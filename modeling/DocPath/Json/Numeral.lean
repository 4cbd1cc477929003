import DocPath.Number.Basic

/-!
Numbers as they are written in a document: whole digits without leading zeros, then perhaps a
fraction, then perhaps a power of ten.
-/

namespace DocPath.Numeral

/-- The digits at the start of a text, of which there must be some, and the rest. -/
def digits? (cs : List Char) : Option (List Char × List Char) :=
  match cs.takeWhile Char.isDigit with
  | [] => none
  | d :: ds => some (d :: ds, cs.dropWhile Char.isDigit)

theorem length_lt_of_digits? {cs ds rest : List Char} (h : digits? cs = some (ds, rest)) :
    rest.length < cs.length := by
  have hsplit := congrArg List.length (@List.takeWhile_append_dropWhile _ Char.isDigit cs)
  unfold digits? at h
  split at h
  · contradiction
  · rename_i hds
    simp only [Option.some.injEq, Prod.mk.injEq] at h
    rw [hds, h.2] at hsplit
    simp at hsplit
    omega

def sign : List Char → Bool × List Char
  | '-' :: rest => (true, rest)
  | cs => (false, cs)

def fraction? : List Char → Option (List Char × List Char)
  | '.' :: rest => digits? rest
  | cs => some ([], cs)

/-- A power of ten may have either sign in front of its digits. -/
def powerSign : List Char → Bool × List Char
  | '+' :: rest => (false, rest)
  | cs => sign cs

def power? : List Char → Option ((Bool × List Char) × List Char)
  | c :: rest =>
    if c = 'e' ∨ c = 'E' then
      (digits? (powerSign rest).2).map fun (ds, after) => (((powerSign rest).1, ds), after)
    else some ((false, []), c :: rest)
  | [] => some ((false, []), [])

def valueOf (digits : List Char) : Nat := Nat.ofDigitChars 10 digits 0

def exponentOf (power : Bool × List Char) : Int :=
  if power.1 then -valueOf power.2 else valueOf power.2

/-- Takes digits into a whole number of 64 bits as long as they fit, and leaves the others. -/
def gather (significand : Nat) : List Char → Nat × List Char
  | [] => (significand, [])
  | d :: ds =>
    let next := 10 * significand + (d.toNat - '0'.toNat)
    if next < UInt64.size then gather next ds else (significand, d :: ds)

/-- The number with the given sign, whole digits, fraction and power of ten. Digits that do not fit
into 64 bits are dropped: each whole digit counts as a power of ten. -/
def number? (negative : Bool) (whole fraction : List Char) (power : Bool × List Char) :
    Option Number :=
  let (significand, dropped) := gather 0 whole
  if dropped = [] ∧ fraction = [] ∧ power.2 = [] then
    (Number.ofInt? negative significand).or (Number.ofParts? negative significand 0)
  else
    let (significand, ignored) := gather significand fraction
    Number.ofParts? negative significand
      (exponentOf power + dropped.length - (fraction.length - ignored.length))

def read? (cs : List Char) : Option (Number × List Char) :=
  match digits? (sign cs).2 with
  | none => none
  | some (whole, rest) =>
    if whole.head? = some '0' ∧ 1 < whole.length then none
    else
      match fraction? rest with
      | none => none
      | some (fraction, rest) =>
        match power? rest with
        | none => none
        | some (power, rest) => (number? (sign cs).1 whole fraction power).map (·, rest)

theorem length_sign_le (cs : List Char) : (sign cs).2.length ≤ cs.length := by
  unfold sign
  split <;> simp

theorem length_powerSign_le (cs : List Char) : (powerSign cs).2.length ≤ cs.length := by
  unfold powerSign
  split
  · simp
  · exact length_sign_le _

theorem length_le_of_fraction? {cs ds rest : List Char} (h : fraction? cs = some (ds, rest)) :
    rest.length ≤ cs.length := by
  unfold fraction? at h
  split at h
  · have := length_lt_of_digits? h
    simp
    omega
  · simp_all

theorem length_le_of_power? {cs rest : List Char} {p : Bool × List Char}
    (h : power? cs = some (p, rest)) : rest.length ≤ cs.length := by
  unfold power? at h
  split at h
  · rename_i c tail
    split at h
    · simp only [Option.map_eq_some_iff, Prod.exists, Prod.mk.injEq] at h
      obtain ⟨ds, after, hd, _, rfl⟩ := h
      have := length_lt_of_digits? hd
      have := length_powerSign_le tail
      simp
      omega
    · simp at h
      simp [← h.2]
  · simp at h
    simp [← h.2]

theorem length_lt_of_read? {cs rest : List Char} {n : Number} (h : read? cs = some (n, rest)) :
    rest.length < cs.length := by
  unfold read? at h
  split at h
  · contradiction
  · rename_i hd
    split at h
    · contradiction
    · split at h
      · contradiction
      · rename_i hf
        split at h
        · contradiction
        · rename_i hp
          simp only [Option.map_eq_some_iff, Prod.mk.injEq] at h
          obtain ⟨_, _, _, rfl⟩ := h
          have := length_sign_le cs
          have := length_lt_of_digits? hd
          have := length_le_of_fraction? hf
          have := length_le_of_power? hp
          omega

end DocPath.Numeral
