import DocPath.Json.Basic
import DocPath.Json.Quoted
import DocPath.Json.Numeral

/-!
Reading documents. Every step leaves a shorter rest of the text, which bounds the recursion; nesting
is bounded as well.
-/

namespace DocPath.Json

/-- Blanks between the parts of a document. -/
def isBlank (c : Char) : Bool := c == ' ' || c == '\t' || c == '\n' || c == '\r'

def skipBlanks (cs : List Char) : List Char := cs.dropWhile isBlank

theorem length_skipBlanks_le (cs : List Char) : (skipBlanks cs).length ≤ cs.length :=
  (List.dropWhile_sublist isBlank).length_le

theorem length_lt_of_skipBlanks {c : Char} {cs rest : List Char} (h : skipBlanks cs = c :: rest) :
    rest.length < cs.length := by
  have := length_skipBlanks_le cs
  rw [h, List.length_cons] at this
  omega

/-- A part read from the start of `cs`, and a rest of the text that is shorter than `cs`. -/
abbrev Step (α : Type) (cs : List Char) := Option { r : α × List Char // r.2.length < cs.length }

/-- Arrays and objects may be nested this deep. -/
def maxDepth : Nat := 127

/-- A value that has no parts. -/
def readScalar? (cs : List Char) : Option (Json × List Char) :=
  match cs with
  | 'n' :: 'u' :: 'l' :: 'l' :: rest => some (null, rest)
  | 't' :: 'r' :: 'u' :: 'e' :: rest => some (bool true, rest)
  | 'f' :: 'a' :: 'l' :: 's' :: 'e' :: rest => some (bool false, rest)
  | '"' :: rest => (Quoted.unquote rest).map fun (s, after) => (string (String.ofList s), after)
  | cs => (Numeral.read? cs).map fun (n, after) => (number n, after)

theorem length_lt_of_readScalar? {cs rest : List Char} {v : Json}
    (h : readScalar? cs = some (v, rest)) : rest.length < cs.length := by
  unfold readScalar? at h
  split at h
  · simp_all
    omega
  · simp_all
    omega
  · simp_all
    omega
  · simp only [Option.map_eq_some_iff, Prod.exists, Prod.mk.injEq] at h
    obtain ⟨s, after, hs, _, rfl⟩ := h
    have := Quoted.length_lt_of_unquote hs
    simp
    omega
  · simp only [Option.map_eq_some_iff, Prod.exists, Prod.mk.injEq] at h
    obtain ⟨n, after, hn, _, rfl⟩ := h
    exact Numeral.length_lt_of_read? hn

mutual

/-- Reads one value. `room` is the depth of nesting that is left. -/
def readValue (room : Nat) (cs : List Char) : Step Json cs :=
  match hcs : skipBlanks cs, room with
  | '[' :: rest, room + 1 =>
    have hrest := length_lt_of_skipBlanks hcs
    match hin : skipBlanks rest with
    | ']' :: after =>
      some ⟨(array [], after), Nat.lt_trans (length_lt_of_skipBlanks hin) hrest⟩
    | _ =>
      match readItems room rest with
      | some ⟨(items, after), h⟩ => some ⟨(array items, after), Nat.lt_trans h hrest⟩
      | none => none
  | '\x7b' :: rest, room + 1 =>
    have hrest := length_lt_of_skipBlanks hcs
    match hin : skipBlanks rest with
    | '\x7d' :: after =>
      some ⟨(object [], after), Nat.lt_trans (length_lt_of_skipBlanks hin) hrest⟩
    | _ =>
      match readMembers room rest with
      | some ⟨(members, after), h⟩ => some ⟨(object (merge members), after), Nat.lt_trans h hrest⟩
      | none => none
  | scalar, _ =>
    match hread : readScalar? scalar with
    | some (v, after) =>
      some ⟨(v, after), by
        have := length_lt_of_readScalar? hread
        have := length_skipBlanks_le cs
        rw [hcs] at this
        exact Nat.lt_of_lt_of_le ‹_› this⟩
    | none => none
termination_by (cs.length, 0)

/-- Reads the items of an array from the first one to the closing bracket. -/
def readItems (room : Nat) (cs : List Char) : Step (List Json) cs :=
  match readValue room cs with
  | none => none
  | some ⟨(v, rest), hrest⟩ =>
    match hin : skipBlanks rest with
    | ',' :: more =>
      have hmore := Nat.lt_trans (length_lt_of_skipBlanks hin) hrest
      match readItems room more with
      | some ⟨(items, after), h⟩ => some ⟨(v :: items, after), Nat.lt_trans h hmore⟩
      | none => none
    | ']' :: after => some ⟨([v], after), Nat.lt_trans (length_lt_of_skipBlanks hin) hrest⟩
    | _ => none
termination_by (cs.length, 1)

/-- Reads the members of an object from the first key to the closing brace. -/
def readMembers (room : Nat) (cs : List Char) : Step (List (String × Json)) cs :=
  match hcs : skipBlanks cs with
  | '"' :: rest =>
    match hkey : Quoted.unquote rest with
    | none => none
    | some (key, afterKey) =>
      have hafter := Nat.lt_trans (Quoted.length_lt_of_unquote hkey) (length_lt_of_skipBlanks hcs)
      match hcolon : skipBlanks afterKey with
      | ':' :: source =>
        have hsource := Nat.lt_trans (length_lt_of_skipBlanks hcolon) hafter
        match readValue room source with
        | none => none
        | some ⟨(v, rest), hrest⟩ =>
          match hin : skipBlanks rest with
          | ',' :: more =>
            have hmore := Nat.lt_trans (length_lt_of_skipBlanks hin) (Nat.lt_trans hrest hsource)
            match readMembers room more with
            | some ⟨(members, after), h⟩ =>
              some ⟨((String.ofList key, v) :: members, after), Nat.lt_trans h hmore⟩
            | none => none
          | '\x7d' :: after =>
            some ⟨([(String.ofList key, v)], after),
              Nat.lt_trans (length_lt_of_skipBlanks hin) (Nat.lt_trans hrest hsource)⟩
          | _ => none
      | _ => none
  | _ => none
termination_by (cs.length, 1)

end

/-- The document that is written as `text`, if it is one. -/
def read? (text : String) : Option Json :=
  match readValue maxDepth text.toList with
  | some ⟨(v, rest), _⟩ => if (skipBlanks rest).isEmpty then some v else none
  | none => none

/-- The reader of these documents. What is wrong with any other text is said by `complaint`. -/
def reader (complaint : String → String) : Reader := fun text =>
  match read? text with
  | some document => .ok document
  | none => .error (complaint text)

section Parsed

variable {room : Nat} {cs rest : List Char}

/-- A text that begins no array and no object is read as a value without parts. -/
theorem parsed_readValue_of_scalar (hitems : ∀ rest, skipBlanks cs ≠ '[' :: rest)
    (hmembers : ∀ rest, skipBlanks cs ≠ '\x7b' :: rest) :
    (readValue room cs).map Subtype.val = readScalar? (skipBlanks cs) := by
  rw [readValue.eq_def]
  split
  · rename_i hcs
    exact absurd hcs (hitems _)
  · rename_i hcs
    exact absurd hcs (hmembers _)
  · split
    · rename_i hread
      exact hread.symm
    · rename_i hread
      exact hread.symm

theorem parsed_readValue_of_items (hcs : skipBlanks cs = '[' :: rest)
    (hitems : ∀ after, skipBlanks rest ≠ ']' :: after) :
    (readValue (room + 1) cs).map Subtype.val =
      ((readItems room rest).map Subtype.val).map fun (items, after) => (array items, after) := by
  rw [readValue.eq_def]
  split
  · rename_i hcs' hroom
    obtain rfl := Nat.succ.inj hroom
    obtain rfl := (List.cons.inj (hcs.symm.trans hcs')).2
    dsimp only
    split
    · rename_i hin
      exact absurd hin (hitems _)
    · cases readItems room rest <;> rfl
  · rename_i hcs' _
    rw [hcs] at hcs'
    simp at hcs'
  · rename_i hnot _
    exact absurd rfl (hnot _ _ hcs)

theorem parsed_readItems_of_last {v : Json} {after : List Char}
    (hv : (readValue room cs).map Subtype.val = some (v, rest))
    (hclose : skipBlanks rest = ']' :: after) :
    (readItems room cs).map Subtype.val = some ([v], after) := by
  rw [readItems.eq_def]
  split
  · rename_i hnone
    rw [hnone] at hv
    contradiction
  · rename_i hsome
    rw [hsome] at hv
    obtain ⟨rfl, rfl⟩ := Prod.mk.inj (Option.some.inj hv)
    split
    · rename_i hin
      rw [hclose] at hin
      simp at hin
    · rename_i hin
      obtain rfl := (List.cons.inj (hclose.symm.trans hin)).2
      rfl
    · rename_i hnot
      exact absurd hclose (hnot _)

theorem read?_eq (text : String) :
    read? text = ((readValue maxDepth text.toList).map Subtype.val).bind fun (v, rest) =>
      if (skipBlanks rest).isEmpty then some v else none := by
  rw [read?]
  cases readValue maxDepth text.toList <;> rfl

/-- A text that begins no array and no object is a document if it is one value without parts. -/
theorem read?_of_scalar {text : String} (hitems : ∀ rest, skipBlanks text.toList ≠ '[' :: rest)
    (hmembers : ∀ rest, skipBlanks text.toList ≠ '\x7b' :: rest) :
    read? text = (readScalar? (skipBlanks text.toList)).bind fun (v, rest) =>
      if (skipBlanks rest).isEmpty then some v else none := by
  rw [read?_eq, parsed_readValue_of_scalar hitems hmembers]

/-- A value without parts between two brackets is an array. -/
theorem read?_of_item {text : String} {v : Json} (hopen : skipBlanks text.toList = '[' :: cs)
    (hempty : ∀ rest, skipBlanks cs ≠ ']' :: rest)
    (hitems : ∀ rest, skipBlanks cs ≠ '[' :: rest)
    (hmembers : ∀ rest, skipBlanks cs ≠ '\x7b' :: rest)
    (h : readScalar? (skipBlanks cs) = some (v, rest)) (hclose : skipBlanks rest = [']']) :
    read? text = some (array [v]) := by
  have hitem : (readValue 126 cs).map Subtype.val = some (v, rest) :=
    (parsed_readValue_of_scalar hitems hmembers).trans h
  rw [read?_eq, maxDepth, parsed_readValue_of_items hopen hempty,
    parsed_readItems_of_last hitem hclose]
  rfl

end Parsed

end DocPath.Json
