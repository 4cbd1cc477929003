import DocPath.Json.Printer
import DocPath.Proofs.Number.Characters
import Mathlib

/-!
Where the text of a document breaks lines. Strings and numbers never do, so that only the style of a
printer can; in the compact style each document is one line.
-/

namespace DocPath

def OneLine (s : String) : Prop := '\n' ∉ s.toList

section OneLine

variable {s t : String}

theorem OneLine.append (hs : OneLine s) (ht : OneLine t) : OneLine (s ++ t) := by
  unfold OneLine
  rw [String.toList_append, List.mem_append]
  rintro (h | h)
  · exact hs h
  · exact ht h

theorem oneLine_ofList {cs : List Char} (h : '\n' ∉ cs) : OneLine (String.ofList cs) := by
  unfold OneLine
  rwa [String.toList_ofList]

theorem OneLine.intercalate {texts : List String} (hs : OneLine s) (h : ∀ t ∈ texts, OneLine t) :
    OneLine (s.intercalate texts) := by
  induction texts with
  | nil => simp [OneLine]
  | cons t texts ih =>
    obtain ⟨ht, hrest⟩ := List.forall_mem_cons.mp h
    cases texts with
    | nil => simpa using ht
    | cons u texts =>
      rw [String.intercalate_cons_cons]
      exact (ht.append hs).append (ih hrest)

end OneLine

theorem oneLine_quote (s : String) : OneLine (Quoted.quote s) := by
  have hcontrol : ∀ n < 0x20, '\n' ∉ Quoted.controlEscape n := by decide
  have hescape : ∀ c, '\n' ∉ Quoted.escape c := by
    intro c
    unfold Quoted.escape
    split_ifs with h1 h2 h3 h4 h5 h6 h7 h8
    · decide
    · decide
    · decide
    · decide
    · decide
    · decide
    · decide
    · exact hcontrol c.toNat h8
    · rw [List.mem_singleton]
      exact Ne.symm h5
  apply oneLine_ofList
  intro h
  rcases List.mem_cons.mp h with h | h
  · exact absurd h (by decide)
  · rcases List.mem_append.mp h with h | h
    · obtain ⟨c, _, hc⟩ := List.mem_flatMap.mp h
      exact hescape c hc
    · exact absurd (List.mem_singleton.mp h) (by decide)

theorem Number.oneLine_text (n : Number) : OneLine n.text := by
  intro h
  have hnot : ¬IsNumeralChar '\n' := by simp [IsNumeralChar, Char.isDigit]
  exact hnot (n.numeric_text '\n' h)

/-- A style that never breaks a line. -/
structure Style.Flat (style : Style) : Prop where
  gap (depth : Nat) : OneLine (style.gap depth)
  colon : OneLine style.colon

theorem Style.flat_compact : Style.compact.Flat where
  gap _ := by simp [OneLine, compact]
  colon := by simp [OneLine, compact]

namespace Json

theorem oneLine_enclose {style : Style} (hstyle : style.Flat) (depth : Nat) {left right : String}
    (hleft : OneLine left) (hright : OneLine right) {texts : List String}
    (h : ∀ t ∈ texts, OneLine t) : OneLine (enclose style depth left right texts) := by
  unfold enclose
  split
  · exact hleft.append hright
  · have hcomma : OneLine "," := by simp [OneLine]
    have hitems : ∀ t ∈ texts.map (style.gap (depth + 1) ++ ·), OneLine t := by
      intro t ht
      obtain ⟨u, hu, rfl⟩ := List.mem_map.mp ht
      exact (hstyle.gap _).append (h u hu)
    exact ((hleft.append (hcomma.intercalate hitems)).append (hstyle.gap depth)).append hright

mutual

theorem oneLine_render {style : Style} (hstyle : style.Flat) (depth : Nat) :
    (v : Json) → OneLine (v.render style depth)
  | null => by simp [OneLine, render]
  | bool true => by simp [OneLine, render]
  | bool false => by simp [OneLine, render]
  | number n => n.oneLine_text
  | string s => oneLine_quote s
  | array items =>
    oneLine_enclose hstyle depth (by simp [OneLine]) (by simp [OneLine])
      (oneLine_itemTexts hstyle (depth + 1) items)
  | object members =>
    oneLine_enclose hstyle depth (by simp [OneLine]) (by simp [OneLine])
      (oneLine_memberTexts hstyle (depth + 1) members)

theorem oneLine_itemTexts {style : Style} (hstyle : style.Flat) (depth : Nat) :
    (items : List Json) → ∀ t ∈ itemTexts style depth items, OneLine t
  | [] => by simp [itemTexts]
  | v :: rest => by
    rw [itemTexts]
    exact List.forall_mem_cons.mpr
      ⟨oneLine_render hstyle depth v, oneLine_itemTexts hstyle depth rest⟩

theorem oneLine_memberTexts {style : Style} (hstyle : style.Flat) (depth : Nat) :
    (members : List (String × Json)) → ∀ t ∈ memberTexts style depth members, OneLine t
  | [] => by simp [memberTexts]
  | (key, v) :: rest => by
    rw [memberTexts]
    have hkey := (oneLine_quote key).append hstyle.colon
    exact List.forall_mem_cons.mpr
      ⟨hkey.append (oneLine_render hstyle depth v), oneLine_memberTexts hstyle depth rest⟩

end

theorem oneLine_compact (v : Json) : OneLine v.compact := oneLine_render Style.flat_compact 0 v

end Json

end DocPath
