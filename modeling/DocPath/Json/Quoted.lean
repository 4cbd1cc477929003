/-!
Strings in a document: text between quotes, with escapes for quotes, backslashes and control
characters. Every control character is escaped when written and refused when read.
-/

namespace DocPath.Quoted

/-- The escape of a control character that has none of its own. -/
def controlEscape (n : Nat) : List Char :=
  ['\\', 'u', '0', '0', Nat.digitChar (n / 16), Nat.digitChar (n % 16)]

def escape (c : Char) : List Char :=
  if c = '"' then ['\\', '"']
  else if c = '\\' then ['\\', '\\']
  else if c = '\x08' then ['\\', 'b']
  else if c = '\t' then ['\\', 't']
  else if c = '\n' then ['\\', 'n']
  else if c = '\x0c' then ['\\', 'f']
  else if c = '\r' then ['\\', 'r']
  else if c.toNat < 0x20 then controlEscape c.toNat
  else [c]

def quote (s : String) : String := String.ofList ('"' :: s.toList.flatMap escape ++ ['"'])

def hexDigit? (c : Char) : Option Nat :=
  if '0' ≤ c ∧ c ≤ '9' then some (c.toNat - '0'.toNat)
  else if 'a' ≤ c ∧ c ≤ 'f' then some (c.toNat - 'a'.toNat + 10)
  else if 'A' ≤ c ∧ c ≤ 'F' then some (c.toNat - 'A'.toNat + 10)
  else none

/-- The UTF-16 unit written as four hexadecimal digits. -/
def unit? (a b c d : Char) : Option Nat :=
  match hexDigit? a, hexDigit? b, hexDigit? c, hexDigit? d with
  | some w, some x, some y, some z => some (((w * 16 + x) * 16 + y) * 16 + z)
  | _, _, _, _ => none

/-- The character that one unit stands for, if it is no half of a pair. -/
def ofUnit? (n : Nat) : Option Char :=
  if 0xD800 ≤ n ∧ n < 0xE000 then none else some (Char.ofNat n)

/-- The character that a leading and a trailing unit stand for. -/
def ofPair? (lead trail : Nat) : Option Char :=
  if 0xD800 ≤ lead ∧ lead < 0xDC00 ∧ 0xDC00 ≤ trail ∧ trail < 0xE000 then
    some (Char.ofNat (0x10000 + (lead - 0xD800) * 0x400 + (trail - 0xDC00)))
  else none

/-- What a backslash and one character after it stand for. -/
def short? : Char → Option Char
  | '"' => some '"'
  | '\\' => some '\\'
  | '/' => some '/'
  | 'b' => some '\x08'
  | 'f' => some '\x0c'
  | 'n' => some '\n'
  | 'r' => some '\r'
  | 't' => some '\t'
  | _ => none

/-- Puts a character in front of a string that has been read. -/
def put (x : Char) (read : Option (List Char × List Char)) : Option (List Char × List Char) :=
  read.map fun (s, after) => (x :: s, after)

theorem eq_of_put {x : Char} {read : Option (List Char × List Char)} {s after : List Char}
    (h : put x read = some (s, after)) : ∃ t, read = some (t, after) ∧ s = x :: t := by
  simp only [put, Option.map_eq_some_iff, Prod.exists, Prod.mk.injEq] at h
  obtain ⟨t, after', ht, hs, ha⟩ := h
  exact ⟨t, ha ▸ ht, hs.symm⟩

/-- Reads the string that starts behind an opening quote, and leaves what comes after the closing
one. -/
def unquote : List Char → Option (List Char × List Char)
  | [] => none
  | '"' :: rest => some ([], rest)
  | '\\' :: 'u' :: a :: b :: c :: d :: '\\' :: 'u' :: e :: f :: g :: h :: rest =>
    match unit? a b c d with
    | none => none
    | some lead =>
      match (unit? e f g h).bind (ofPair? lead) with
      | some x => put x (unquote rest)
      | none =>
        match ofUnit? lead with
        | some x => put x (unquote ('\\' :: 'u' :: e :: f :: g :: h :: rest))
        | none => none
  | '\\' :: 'u' :: a :: b :: c :: d :: rest =>
    match (unit? a b c d).bind ofUnit? with
    | some x => put x (unquote rest)
    | none => none
  | '\\' :: c :: rest =>
    match short? c with
    | some x => put x (unquote rest)
    | none => none
  | c :: rest =>
    if c.toNat < 0x20 ∨ c = '\\' then none
    else put c (unquote rest)

theorem length_lt_of_unquote {cs s after : List Char} (h : unquote cs = some (s, after)) :
    after.length < cs.length := by
  fun_induction unquote cs generalizing s with
  | case2 rest =>
    simp only [Option.some.injEq, Prod.mk.injEq] at h
    simp [h.2]
  | case4 | case5 | case7 | case9 | case12 =>
    rename_i ih
    obtain ⟨t, ht, _⟩ := eq_of_put h
    have := ih ht
    simp only [List.length_cons] at this ⊢
    omega
  | _ => contradiction

end DocPath.Quoted
