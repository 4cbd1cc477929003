/-!
Cutting a path text into tokens. A token is a run of word characters, together with the bracket
group that follows it directly, if that group is closed; all other text only separates tokens.
-/

namespace DocPath

/-- Word characters are the ASCII letters, the digits and the underscore. -/
def isWord (c : Char) : Bool := c.isAlphanum || c == '_'

inductive Token where
  | word (w : List Char)
  | bracketed (w content : List Char)
deriving DecidableEq, Repr

namespace Token

def text : Token → List Char
  | word w => w
  | bracketed w content => w ++ '[' :: content ++ [']']

@[simp] theorem text_word (w : List Char) : (word w).text = w := rfl

@[simp] theorem text_bracketed (w content : List Char) :
    (bracketed w content).text = w ++ '[' :: content ++ [']'] := rfl

/-- The text up to the first closing bracket, and the text after it. -/
def close? : List Char → Option (List Char × List Char)
  | [] => none
  | c :: cs =>
    if c = ']' then some ([], cs)
    else (close? cs).map fun (content, after) => (c :: content, after)

theorem close?_eq_some_iff {cs content after : List Char} :
    close? cs = some (content, after) ↔ cs = content ++ ']' :: after ∧ ']' ∉ content := by
  induction cs generalizing content with
  | nil => simp [close?]
  | cons c cs ih =>
    by_cases hc : c = ']'
    · subst hc
      cases content with
      | nil => simp [close?, eq_comm]
      | cons d content =>
        simp only [close?, if_true, List.cons_append]
        constructor
        · simp
        · rintro ⟨h, h'⟩
          simp [← (List.cons.inj h).1] at h'
    · cases content with
      | nil => simp [close?, hc]
      | cons d content =>
        have := @ih content
        simp only [close?, hc, if_false, Option.map_eq_some_iff, Prod.exists, Prod.mk.injEq]
        constructor
        · rintro ⟨content', after', h, h', rfl⟩
          obtain ⟨rfl, rfl⟩ := List.cons.inj h'
          simp [this.mp h, Ne.symm hc]
        · rintro ⟨h, h'⟩
          obtain ⟨rfl, hcs⟩ := List.cons.inj h
          have hrest := this.mpr ⟨hcs, fun hm => h' (List.mem_cons_of_mem c hm)⟩
          exact ⟨content, after, hrest, rfl, rfl⟩

theorem close?_eq_none_iff {cs : List Char} : close? cs = none ↔ ']' ∉ cs := by
  induction cs with
  | nil => simp [close?]
  | cons c cs ih =>
    by_cases hc : c = ']'
    · simp [close?, hc]
    · simp [close?, hc, ih, Ne.symm hc]

/-- A closed bracket group at the start of a text: its content, and what comes after it. -/
def group? : List Char → Option (List Char × List Char)
  | '[' :: rest => close? rest
  | _ => none

theorem group?_eq_some_iff {cs content after : List Char} :
    group? cs = some (content, after) ↔
      cs = '[' :: content ++ ']' :: after ∧ ']' ∉ content := by
  unfold group?
  split
  · simp [close?_eq_some_iff]
  · rename_i h
    constructor
    · simp
    · rintro ⟨rfl, _⟩
      exact absurd rfl (h _)

theorem length_takeWhile_add_dropWhile (p : Char → Bool) (cs : List Char) :
    (cs.takeWhile p).length + (cs.dropWhile p).length = cs.length := by
  rw [← List.length_append, List.takeWhile_append_dropWhile]

/-- The tokens of a text, from left to right. -/
def scan : List Char → List Token
  | [] => []
  | c :: cs =>
    if isWord c then
      match _h : group? (cs.dropWhile isWord) with
      | some (content, after) => bracketed (c :: cs.takeWhile isWord) content :: scan after
      | none => word (c :: cs.takeWhile isWord) :: scan (cs.dropWhile isWord)
    else scan cs
termination_by cs => cs.length
decreasing_by
  · have hlen := congrArg List.length (group?_eq_some_iff.mp _h).1
    have := length_takeWhile_add_dropWhile isWord cs
    simp only [List.length_append, List.length_cons] at hlen ⊢
    omega
  · have := length_takeWhile_add_dropWhile isWord cs
    simp only [List.length_cons]
    omega
  · simp

@[simp] theorem scan_nil : scan [] = [] := by
  rw [scan]

theorem length_text_le_of_mem_scan {t : Token} {cs : List Char} (h : t ∈ scan cs) :
    t.text.length ≤ cs.length := by
  fun_induction scan cs with
  | case1 => simp at h
  | case2 c cs hc content after hg ih =>
    have hlen := congrArg List.length (group?_eq_some_iff.mp hg).1
    have hcs := length_takeWhile_add_dropWhile isWord cs
    simp only [List.length_append, List.length_cons] at hlen
    rcases List.mem_cons.mp h with rfl | h
    · simp only [text_bracketed, List.length_append, List.length_cons, List.length_nil]
      omega
    · have := ih h
      simp only [List.length_cons]
      omega
  | case3 c cs hc hg ih =>
    have hcs := length_takeWhile_add_dropWhile isWord cs
    rcases List.mem_cons.mp h with rfl | h
    · simp only [text_word, List.length_cons]
      omega
    · have := ih h
      simp only [List.length_cons]
      omega
  | case4 c cs hc ih =>
    have := ih h
    simp only [List.length_cons]
    omega

end Token

end DocPath
