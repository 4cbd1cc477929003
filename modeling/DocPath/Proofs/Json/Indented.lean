import DocPath.Json.Printer
import DocPath.Json.Reader
import DocPath.Proofs.Number.Characters
import Mathlib

/-!
The indented text of a document and the one-line text are the same but for the blanks between their
parts. Blanks in strings stay, so that the strings of the document stay as they are.
-/

namespace DocPath

namespace Json

mutual

/-- A text without the blanks between its parts. -/
def squeeze : List Char → List Char
  | [] => []
  | c :: rest =>
    if c = '"' then c :: squeezeQuoted rest
    else if isBlank c then squeeze rest
    else c :: squeeze rest

/-- The same behind a quote that opens a string. -/
def squeezeQuoted : List Char → List Char
  | [] => []
  | [c] => [c]
  | c :: d :: rest =>
    if c = '"' then c :: squeeze (d :: rest)
    else if c = '\\' then c :: d :: squeezeQuoted rest
    else c :: squeezeQuoted (d :: rest)

end

variable {rest : List Char} {c : Char}

theorem squeezeQuoted_quote (rest : List Char) :
    squeezeQuoted ('"' :: rest) = '"' :: squeeze rest := by
  cases rest with
  | nil => rfl
  | cons d rest => rw [squeezeQuoted, if_pos rfl]

theorem squeezeQuoted_backslash (d : Char) (rest : List Char) :
    squeezeQuoted ('\\' :: d :: rest) = '\\' :: d :: squeezeQuoted rest := by
  rw [squeezeQuoted, if_neg (by decide), if_pos rfl]

theorem squeezeQuoted_cons (hquote : c ≠ '"') (hbackslash : c ≠ '\\') (rest : List Char) :
    squeezeQuoted (c :: rest) = c :: squeezeQuoted rest := by
  cases rest with
  | nil => rfl
  | cons d rest => rw [squeezeQuoted, if_neg hquote, if_neg hbackslash]

/-- Without its blanks, and with any text behind it, the text `s` is `t`. -/
def Squeezes (s t : String) : Prop :=
  ∀ rest, squeeze (s.toList ++ rest) = t.toList ++ squeeze rest

namespace Squeezes

variable {s s' t t' : String}

theorem eq (h : Squeezes s t) : squeeze s.toList = t.toList := by
  have hnil := h []
  rwa [List.append_nil, squeeze, List.append_nil] at hnil

theorem append (h : Squeezes s t) (h' : Squeezes s' t') : Squeezes (s ++ s') (t ++ t') := by
  intro rest
  rw [String.toList_append, String.toList_append, List.append_assoc, h, h', List.append_assoc]

theorem of_blank (h : ∀ c ∈ s.toList, isBlank c) : Squeezes s "" := by
  intro rest
  generalize s.toList = cs at h
  induction cs with
  | nil => rfl
  | cons c cs ih =>
    obtain ⟨hc, hcs⟩ := List.forall_mem_cons.mp h
    have hquote : c ≠ '"' := by
      rintro rfl
      contradiction
    rw [List.cons_append, squeeze, if_neg hquote, if_pos hc]
    exact ih hcs

theorem of_solid (h : ∀ c ∈ s.toList, c ≠ '"' ∧ isBlank c = false) : Squeezes s s := by
  intro rest
  generalize s.toList = cs at h
  induction cs with
  | nil => rfl
  | cons c cs ih =>
    obtain ⟨⟨hquote, hblank⟩, hcs⟩ := List.forall_mem_cons.mp h
    rw [List.cons_append, squeeze, if_neg hquote, if_neg (by simp [hblank]), ih hcs]
    rfl

theorem of_numeric (h : Numeric s) : Squeezes s s := by
  apply of_solid
  intro c hc
  rcases h c hc with hdigit | rfl | rfl | rfl | rfl
  · constructor
    · rintro rfl
      contradiction
    · rw [Bool.eq_false_iff]
      intro hblank
      simp only [isBlank, Bool.or_eq_true, beq_iff_eq] at hblank
      rcases hblank with ((rfl | rfl) | rfl) | rfl <;> contradiction
  · decide
  · decide
  · decide
  · decide

theorem intercalate {texts texts' : List String} (h : List.Forall₂ Squeezes texts texts') :
    Squeezes (",".intercalate texts) (",".intercalate texts') := by
  have hcomma : Squeezes "," "," := of_solid (by simp [isBlank])
  induction h with
  | nil => exact of_solid (by simp)
  | @cons s t texts texts' hst htexts ih =>
    cases htexts with
    | nil => simpa using hst
    | cons hst' hrest =>
      rw [String.intercalate_cons_cons, String.intercalate_cons_cons]
      exact (hst.append hcomma).append ih

end Squeezes

theorem squeezeQuoted_append {cs : List Char} (h : ∀ c ∈ cs, c ≠ '"' ∧ c ≠ '\\')
    (rest : List Char) : squeezeQuoted (cs ++ rest) = cs ++ squeezeQuoted rest := by
  induction cs with
  | nil => rfl
  | cons c cs ih =>
    obtain ⟨⟨hquote, hbackslash⟩, hcs⟩ := List.forall_mem_cons.mp h
    rw [List.cons_append, squeezeQuoted_cons hquote hbackslash, ih hcs]
    rfl

/-- The escape of a character is kept as it is. -/
theorem squeezeQuoted_escape (c : Char) (rest : List Char) :
    squeezeQuoted (Quoted.escape c ++ rest) = Quoted.escape c ++ squeezeQuoted rest := by
  have hdigit : ∀ n < 16, Nat.digitChar n ≠ '"' ∧ Nat.digitChar n ≠ '\\' := by decide
  unfold Quoted.escape
  split_ifs with h1 h2 h3 h4 h5 h6 h7 h8
  · exact squeezeQuoted_backslash _ _
  · exact squeezeQuoted_backslash _ _
  · exact squeezeQuoted_backslash _ _
  · exact squeezeQuoted_backslash _ _
  · exact squeezeQuoted_backslash _ _
  · exact squeezeQuoted_backslash _ _
  · exact squeezeQuoted_backslash _ _
  · have hhigh := hdigit (c.toNat / 16) (by omega)
    have hlow := hdigit (c.toNat % 16) (by omega)
    have hdigits : ∀ d ∈ ['0', '0', Nat.digitChar (c.toNat / 16), Nat.digitChar (c.toNat % 16)],
        d ≠ '"' ∧ d ≠ '\\' := by
      simp only [List.forall_mem_cons]
      exact ⟨by decide, by decide, hhigh, hlow, by simp⟩
    have hrest := squeezeQuoted_append hdigits rest
    rw [Quoted.controlEscape, List.cons_append, List.cons_append, squeezeQuoted_backslash, hrest]
    rfl
  · exact squeezeQuoted_cons h1 h2 _

theorem squeezes_quote (s : String) : Squeezes (Quoted.quote s) (Quoted.quote s) := by
  intro rest
  have hinside : ∀ cs : List Char, squeezeQuoted (cs.flatMap Quoted.escape ++ '"' :: rest) =
      cs.flatMap Quoted.escape ++ '"' :: squeeze rest := by
    intro cs
    induction cs with
    | nil => exact squeezeQuoted_quote rest
    | cons c cs ih =>
      rw [List.flatMap_cons, List.append_assoc, squeezeQuoted_escape, ih, List.append_assoc]
  rw [Quoted.quote, String.toList_ofList, List.cons_append, List.cons_append, squeeze, if_pos rfl]
  simp [hinside]

end Json

/-- A style that has only blanks between the parts of a document. -/
structure Style.Blank (style : Style) : Prop where
  gap (depth : Nat) : Json.Squeezes (style.gap depth) ""
  colon : Json.Squeezes style.colon ":"

theorem Style.blank_indented : Style.indented.Blank where
  gap depth := by
    apply Json.Squeezes.of_blank
    intro c hc
    simp only [indented, String.toList_append, String.toList_ofList, List.mem_append,
      List.mem_replicate] at hc
    rcases hc with hc | ⟨_, rfl⟩
    · obtain rfl : c = '\n' := by simpa using hc
      decide
    · decide
  colon _ := rfl

theorem Style.blank_compact : Style.compact.Blank where
  gap _ _ := rfl
  colon _ := rfl

namespace Json

theorem squeezes_enclose {style : Style} (hstyle : style.Blank) (depth depth' : Nat)
    {left right : String} (hleft : Squeezes left left) (hright : Squeezes right right)
    {texts texts' : List String} (h : List.Forall₂ Squeezes texts texts') :
    Squeezes (enclose style depth left right texts)
      (enclose .compact depth' left right texts') := by
  have hgaps : List.Forall₂ Squeezes (texts.map (style.gap (depth + 1) ++ ·))
      (texts'.map ("" ++ ·)) := by
    rw [List.forall₂_map_left_iff, List.forall₂_map_right_iff]
    exact h.imp fun _ _ hst => (hstyle.gap _).append hst
  cases h with
  | nil => exact hleft.append hright
  | cons hst hrest =>
    exact ((hleft.append (Squeezes.intercalate hgaps)).append (hstyle.gap depth)).append hright

mutual

theorem squeezes_render {style : Style} (hstyle : style.Blank) (depth depth' : Nat) :
    (v : Json) → Squeezes (v.render style depth) (v.render .compact depth')
  | null => Squeezes.of_solid (by simp [render, isBlank])
  | bool true => Squeezes.of_solid (by simp [render, isBlank])
  | bool false => Squeezes.of_solid (by simp [render, isBlank])
  | number n => Squeezes.of_numeric n.numeric_text
  | string s => squeezes_quote s
  | array items =>
    squeezes_enclose hstyle depth depth' (Squeezes.of_solid (by simp [isBlank]))
      (Squeezes.of_solid (by simp [isBlank]))
      (squeezes_itemTexts hstyle (depth + 1) (depth' + 1) items)
  | object members =>
    squeezes_enclose hstyle depth depth' (Squeezes.of_solid (by simp [isBlank]))
      (Squeezes.of_solid (by simp [isBlank]))
      (squeezes_memberTexts hstyle (depth + 1) (depth' + 1) members)

theorem squeezes_itemTexts {style : Style} (hstyle : style.Blank) (depth depth' : Nat) :
    (items : List Json) →
      List.Forall₂ Squeezes (itemTexts style depth items) (itemTexts .compact depth' items)
  | [] => .nil
  | v :: rest =>
    .cons (squeezes_render hstyle depth depth' v) (squeezes_itemTexts hstyle depth depth' rest)

theorem squeezes_memberTexts {style : Style} (hstyle : style.Blank) (depth depth' : Nat) :
    (members : List (String × Json)) →
      List.Forall₂ Squeezes (memberTexts style depth members)
        (memberTexts .compact depth' members)
  | [] => .nil
  | (key, v) :: rest =>
    .cons (((squeezes_quote key).append hstyle.colon).append
        (squeezes_render hstyle depth depth' v))
      (squeezes_memberTexts hstyle depth depth' rest)

end

/-- The indented text is the one-line text with blanks between its parts. -/
theorem squeezes_pretty (v : Json) : Squeezes v.pretty v.compact :=
  squeezes_render Style.blank_indented 0 0 v

theorem squeezes_compact (v : Json) : Squeezes v.compact v.compact :=
  squeezes_render Style.blank_compact 0 0 v

example : (object [("city", .string "New York")]).pretty =
    "\x7b\n  \"city\": \"New York\"\n\x7d" := by
  cbv

end Json

end DocPath
