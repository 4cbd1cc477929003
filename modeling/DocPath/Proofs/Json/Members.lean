import DocPath.Json.Basic
import Mathlib

/-!
The object that members make which were written one after the other. Of the members with one key the
last gives the value and the first the place.
-/

namespace DocPath.Json

variable (name : String) (members : List (String × Json)) (m : String × Json)

theorem merge_concat : merge (members ++ [m]) = insert m.1 m.2 (merge members) := by
  rw [merge, List.foldl_append]
  rfl

theorem keys_insert (new : Json) :
    (insert name new members).map Prod.fst =
      if name ∈ members.map Prod.fst then members.map Prod.fst
      else members.map Prod.fst ++ [name] := by
  induction members with
  | nil => rfl
  | cons m rest ih =>
    by_cases hkey : m.1 = name
    · simp [insert, hkey]
    · rw [insert, if_neg hkey, List.map_cons, ih, List.map_cons]
      split_ifs with hrest hall hall
      · rfl
      · exact absurd (List.mem_cons_of_mem _ hrest) hall
      · exact absurd hall (by simpa [hrest] using Ne.symm hkey)
      · rfl

/-- The value under a key is that of the last member with the key. -/
theorem find?_merge : find? name (merge members) = find? name members.reverse := by
  induction members using List.reverseRecOn with
  | nil => rfl
  | append_singleton members m ih =>
    rw [merge_concat, find?_insert, ih, List.reverse_concat]
    rfl

/-- Each key stands once, in the place of its first member. -/
theorem keys_merge : (merge members).map Prod.fst = (members.map Prod.fst).eraseDups := by
  induction members using List.reverseRecOn with
  | nil => rfl
  | append_singleton members m ih =>
    rw [merge_concat, keys_insert, ih, List.map_append, List.eraseDups_append]
    by_cases hkey : m.1 ∈ members.map Prod.fst
    · have hold : [m.1].removeAll (members.map Prod.fst) = [] := by
        simpa [List.removeAll] using hkey
      simp [hkey, hold]
    · have hnew : [m.1].removeAll (members.map Prod.fst) = [m.1] := by
        simpa [List.removeAll] using hkey
      simp [hkey, hnew, List.eraseDups_cons]

end DocPath.Json
