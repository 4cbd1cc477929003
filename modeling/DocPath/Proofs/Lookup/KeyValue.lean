import DocPath.Json.Numeral
import DocPath.Proofs.Number.Scaling
import DocPath.Proofs.Lookup.StandardKey
import DocPath.Proofs.Path.Cut
import Mathlib

/-!
The number that a key writes. Keys are numerals of documents, and the double nearest to what a key
writes is the one that has the key, so that numbers share a key only if they have one value.
-/

namespace DocPath

namespace Numeral

/-- A fraction behind its point, or nothing. -/
def pointed (fraction : List Char) : List Char :=
  if fraction = [] then [] else '.' :: fraction

/-- The decimal that whole digits, a fraction and a power of ten write, if the text is no more than
that. -/
def decimal? (cs : List Char) : Option Decimal :=
  match digits? cs with
  | none => none
  | some (whole, rest) =>
    match fraction? rest with
    | none => none
    | some (fraction, rest) =>
      match power? rest with
      | some ((minus, power), []) =>
        let exponent : ℤ := if minus then -valueOf power else valueOf power
        some ⟨valueOf (whole ++ fraction), exponent - fraction.length⟩
      | _ => none

/-- The double nearest to what a text writes, with the sign in front of it. -/
def double? (cs : List Char) : Option Number :=
  (decimal? (sign cs).2).bind (Number.ofDecimal? (sign cs).1)

/-- A text that writes a decimal begins with a digit. -/
theorem sign_of_decimal? {cs : List Char} {d : Decimal} (h : decimal? cs = some d) :
    sign cs = (false, cs) := by
  cases cs with
  | nil => rfl
  | cons c cs =>
    have hc : c ≠ '-' := by
      rintro rfl
      contradiction
    rw [sign]
    intro after heq
    exact hc (List.cons.inj heq).1

theorem digits?_append {ds rest : List Char} (hne : ds ≠ []) (hds : ∀ c ∈ ds, c.isDigit)
    (hr : Stops Char.isDigit rest) : digits? (ds ++ rest) = some (ds, rest) := by
  rw [digits?, takeWhile_append_of_stops hds hr, dropWhile_append_of_stops hds hr]
  cases ds with
  | nil => contradiction
  | cons d ds => rfl

/-- What may follow the digits of a numeral is a power of ten. -/
def PowerOrEnd (rest : List Char) : Prop := ∀ c after, rest = c :: after → c = 'e'

theorem PowerOrEnd.stops {rest : List Char} (h : PowerOrEnd rest) : Stops Char.isDigit rest := by
  intro c after hrest
  rw [h c after hrest]
  rfl

theorem fraction?_pointed_append {fraction rest : List Char} (hf : ∀ c ∈ fraction, c.isDigit)
    (hr : PowerOrEnd rest) : fraction? (pointed fraction ++ rest) = some (fraction, rest) := by
  by_cases hne : fraction = []
  · rw [pointed, if_pos hne, hne, List.nil_append, fraction?]
    rintro after rfl
    exact absurd (hr '.' after rfl) (by decide)
  · rw [pointed, if_neg hne, List.cons_append, fraction?]
    exact digits?_append hne hf hr.stops

theorem decimal?_eq {whole fraction rest power : List Char} {minus : Bool} (hne : whole ≠ [])
    (hw : ∀ c ∈ whole, c.isDigit) (hf : ∀ c ∈ fraction, c.isDigit) (hr : PowerOrEnd rest)
    (hp : power? rest = some ((minus, power), [])) :
    decimal? (whole ++ (pointed fraction ++ rest)) = some ⟨valueOf (whole ++ fraction),
      (if minus then -valueOf power else valueOf power : ℤ) - fraction.length⟩ := by
  have hstops : Stops Char.isDigit (pointed fraction ++ rest) := by
    by_cases hfne : fraction = []
    · rw [pointed, if_pos hfne, List.nil_append]
      exact hr.stops
    · rw [pointed, if_neg hfne]
      exact stops_cons rfl
  rw [decimal?, digits?_append hne hw hstops]
  simp only [fraction?_pointed_append hf hr, hp]

theorem decimal?_without_power {whole fraction : List Char} (hne : whole ≠ [])
    (hw : ∀ c ∈ whole, c.isDigit) (hf : ∀ c ∈ fraction, c.isDigit) :
    decimal? (whole ++ pointed fraction) =
      some ⟨valueOf (whole ++ fraction), -fraction.length⟩ := by
  have hend : PowerOrEnd [] := fun _ _ h => by contradiction
  have hpower : power? [] = some ((false, []), []) := rfl
  have hvalue : valueOf [] = 0 := rfl
  have heq := decimal?_eq hne hw hf hend hpower
  rw [List.append_nil, hvalue] at heq
  simpa using heq

end Numeral

namespace Decimal

open Numeral

variable {d : Decimal}

theorem isDigit_of_mem_toDigits {n : Nat} : ∀ c ∈ Nat.toDigits 10 n, c.isDigit := by
  intro c hc
  exact Nat.isDigit_of_mem_toDigits (by decide) (by decide) hc

theorem valueOf_toDigits (n : Nat) : valueOf (Nat.toDigits 10 n) = n :=
  Nat.ofDigitChars_ten_toDigits

theorem isDigit_of_mem_chars : ∀ c ∈ d.chars, c.isDigit := isDigit_of_mem_toDigits

theorem valueOf_chars (d : Decimal) : valueOf d.chars = d.digits := valueOf_toDigits d.digits

theorem isDigit_of_mem_take (d : Decimal) (n : Nat) : ∀ c ∈ d.chars.take n, c.isDigit := by
  intro c hc
  exact isDigit_of_mem_chars c (List.mem_of_mem_take hc)

theorem isDigit_of_mem_drop (d : Decimal) (n : Nat) : ∀ c ∈ d.chars.drop n, c.isDigit := by
  intro c hc
  exact isDigit_of_mem_chars c (List.mem_of_mem_drop hc)

theorem take_chars_ne_nil (d : Decimal) {n : Nat} (hn : 0 < n) : d.chars.take n ≠ [] := by
  have hsize := @size_pos d
  rw [Ne, List.take_eq_nil_iff, ← List.length_eq_zero_iff, ← size]
  omega

theorem power?_powerText (n : ℤ) : power? (powerText n).toList =
    some ((decide (n < 0), Nat.toDigits 10 n.natAbs), []) := by
  have hend : Stops Char.isDigit [] := fun _ _ h => by contradiction
  have hread := digits?_append Nat.toDigits_ne_nil (isDigit_of_mem_toDigits (n := n.natAbs)) hend
  rw [List.append_nil] at hread
  rw [powerText, Nat.toString_eq_ofList_toDigits, String.toList_append, String.toList_ofList]
  generalize Nat.toDigits 10 n.natAbs = ds at *
  by_cases hneg : n < 0
  · have htext : "e-".toList ++ ds = 'e' :: '-' :: ds := rfl
    have hsign : powerSign ('-' :: ds) = (true, ds) := rfl
    rw [if_pos hneg, htext, power?, if_pos (.inl rfl), hsign, hread, decide_eq_true hneg]
    rfl
  · have htext : "e+".toList ++ ds = 'e' :: '+' :: ds := rfl
    have hsign : powerSign ('+' :: ds) = (false, ds) := rfl
    rw [if_neg hneg, htext, power?, if_pos (.inl rfl), hsign, hread, decide_eq_false hneg]
    rfl

theorem powerOrEnd_powerText (n : ℤ) : PowerOrEnd (powerText n).toList := by
  intro c after h
  rw [powerText, String.toList_append] at h
  split at h
  · exact (List.cons.inj h).1.symm
  · exact (List.cons.inj h).1.symm

theorem toList_scientific (d : Decimal) : d.scientific.toList =
    d.chars.take 1 ++ (pointed (d.chars.drop 1) ++ (powerText d.order).toList) := by
  have hdrop : d.chars.drop 1 = [] ↔ (d.size : ℤ) = 1 := by
    have hsize := @size_pos d
    rw [List.drop_eq_nil_iff, ← size]
    omega
  rw [scientific_eq, pointed]
  by_cases h : (d.size : ℤ) = 1
  · simp [h, hdrop.mpr h]
  · simp only [if_neg h, if_neg (hdrop.not.mpr h)]
    simp

/-- The text with a power of ten writes exactly the decimal. -/
theorem decimal?_scientific (d : Decimal) : decimal? d.scientific.toList = some d := by
  have hread := decimal?_eq (d.take_chars_ne_nil Nat.one_pos) (d.isDigit_of_mem_take 1)
    (d.isDigit_of_mem_drop 1) (powerOrEnd_powerText d.order) (power?_powerText d.order)
  have hexponent : (if decide (d.order < 0) then -(d.order.natAbs : ℤ) else d.order.natAbs) -
      (d.chars.drop 1).length = d.exponent := by
    have hsize := @size_pos d
    have hpoint : d.point = d.size + d.exponent := rfl
    rw [List.length_drop, ← size, order]
    simp only [decide_eq_true_eq]
    split <;> omega
  rw [toList_scientific, hread, List.take_append_drop, valueOf_chars, valueOf_toDigits, hexponent]

theorem toList_positional_inside (h : d.exponent < 0) (hpoint : 0 < d.point) :
    d.positional.toList =
      d.chars.take d.point.toNat ++ pointed (d.chars.drop d.point.toNat) := by
  have hrest : d.chars.drop d.point.toNat ≠ [] := by
    have : d.point = d.size + d.exponent := rfl
    rw [Ne, List.drop_eq_nil_iff, ← size]
    omega
  rw [positional, String.toList_ofList, if_neg (by omega), if_pos hpoint, pointed, if_neg hrest]

theorem toList_positional_before (hpoint : d.point ≤ 0) : d.positional.toList =
    ['0'] ++ pointed (List.replicate (-d.point).toNat '0' ++ d.chars) := by
  have hexponent : d.exponent < 0 := by
    have hsize := @size_pos d
    have : d.point = d.size + d.exponent := rfl
    omega
  rw [positional, String.toList_ofList, if_neg (by omega), if_neg (by omega), pointed]
  rw [if_neg (by simp [chars])]
  rfl

theorem decimal?_positional_of_neg (h : d.exponent < 0) :
    decimal? d.positional.toList = some d := by
  have hpoint : d.point = d.size + d.exponent := rfl
  rcases lt_or_ge 0 d.point with hpos | hnonpos
  · have hread := decimal?_without_power (d.take_chars_ne_nil (by omega))
      (d.isDigit_of_mem_take d.point.toNat) (d.isDigit_of_mem_drop d.point.toNat)
    have hexponent : -((d.chars.drop d.point.toNat).length : ℤ) = d.exponent := by
      rw [List.length_drop, ← size]
      omega
    rw [toList_positional_inside h hpos, hread, List.take_append_drop, valueOf_chars, hexponent]
  · have hfraction : ∀ c ∈ List.replicate (-d.point).toNat '0' ++ d.chars, c.isDigit := by
      intro c hc
      rcases List.mem_append.mp hc with hc | hc
      · rw [List.eq_of_mem_replicate hc]
        rfl
      · exact isDigit_of_mem_chars c hc
    have hread := decimal?_without_power (List.cons_ne_nil '0' []) (by simp) hfraction
    have hvalue : valueOf (['0'] ++ (List.replicate (-d.point).toNat '0' ++ d.chars)) =
        d.digits := by
      rw [← List.append_assoc, ← List.replicate_one, List.replicate_append_replicate]
      rw [valueOf, Nat.ofDigitChars_append, Nat.ofDigitChars_replicate_zero, Nat.mul_zero]
      exact valueOf_chars d
    have hexponent : -((List.replicate (-d.point).toNat '0' ++ d.chars).length : ℤ) =
        d.exponent := by
      rw [List.length_append, List.length_replicate, ← size]
      omega
    rw [toList_positional_before hnonpos, hread, hvalue, hexponent]

/-- The text without a power of ten writes a decimal of the same value. -/
theorem exists_decimal?_positional (hd : d.digits ≠ 0) :
    ∃ e, decimal? d.positional.toList = some e ∧ e.value = d.value := by
  rcases lt_or_ge d.exponent 0 with hneg | hnonneg
  · exact ⟨d, decimal?_positional_of_neg hneg, rfl⟩
  · have hnil : ∀ c ∈ ([] : List Char), c.isDigit := by simp
    have hread := decimal?_without_power (Nat.toDigits_ne_nil (n := d.num))
      isDigit_of_mem_toDigits hnil
    refine ⟨⟨d.num, 0⟩, ?_, ?_⟩
    · rw [positional_of_nonneg hd hnonneg, Nat.toString_eq_ofList_toDigits, String.toList_ofList]
      simpa [pointed, valueOf_toDigits] using hread
    · rw [value_eq_div (d := d), den_of_nonneg hnonneg, value]
      simp

end Decimal

namespace Binary64

open Numeral

variable {x y : Binary64}

/-- A key reads back: the double nearest to what it writes is the one that has it. -/
theorem double?_keyText (hx : ¬x.isZero) : double? x.keyText.toList = some (.double x) := by
  have hunits : x.magnitude.units ≠ 0 := isZero_iff.not.mp hx
  have hread := Magnitude.nearest?_shortest hunits .up
  have hdigits := Decimal.digits_ne_zero_of_nearest? hunits hread
  obtain ⟨text, htext, e, he, hvalue⟩ : ∃ text, x.keyText = x.sign ++ text ∧
      ∃ e, decimal? text.toList = some e ∧ e.value = (x.magnitude.shortest .up).value := by
    refine ⟨_, if_neg hx, ?_⟩
    split
    · exact ⟨_, Decimal.decimal?_scientific _, rfl⟩
    · exact Decimal.exists_decimal?_positional hdigits
  have hsign : Numeral.sign x.keyText.toList = (x.negative, text.toList) := by
    rw [htext, String.toList_append, Binary64.sign]
    cases x.negative with
    | true => rfl
    | false => exact sign_of_decimal? he
  rw [double?, hsign, he, Option.bind_some, Number.ofDecimal?, Decimal.nearest?_congr hvalue, hread]
  rfl

theorem exists_double?_keyText (x : Binary64) :
    ∃ y : Binary64, double? x.keyText.toList = some (.double y) ∧ y.value = x.value := by
  by_cases hx : x.isZero
  · refine ⟨⟨false, .zero⟩, ?_, ?_⟩
    · rw [keyText, if_pos hx]
      rfl
    · rw [value_eq_zero_iff.mpr hx, value_eq_zero_iff]
      rfl
  · exact ⟨x, double?_keyText hx, rfl⟩

theorem keyText_eq_keyText_iff : x.keyText = y.keyText ↔ x.value = y.value := by
  constructor
  · intro h
    obtain ⟨x', hx', hx⟩ := exists_double?_keyText x
    obtain ⟨y', hy', hy⟩ := exists_double?_keyText y
    rw [h, hy', Option.some.injEq, Number.double.injEq] at hx'
    rw [← hx, ← hy, hx']
  · intro h
    rcases eq_or_isZero_of_value_eq h with rfl | ⟨hx, hy⟩
    · rfl
    · rw [keyText, keyText, if_pos hx, if_pos hy]

end Binary64

/-- The number is a double, or a whole number up to `2^53`. -/
def Number.InDoubles : Number → Prop
  | int i _ _ => |i| ≤ 2 ^ 53
  | double _ => True

theorem Number.InDoubles.exists_double {n : Number} (h : n.InDoubles) :
    ∃ x : Binary64, x.value = n.value ∧ x.keyText = n.keyText := by
  cases n with
  | int i lower upper =>
    obtain ⟨x, hx⟩ := Binary64.exists_value_eq h
    exact ⟨x, hx, Binary64.keyText_of_value h hx⟩
  | double x => exact ⟨x, rfl, rfl⟩

theorem Number.keyText_eq_keyText_iff {a b : Number} (ha : a.InDoubles) (hb : b.InDoubles) :
    a.keyText = b.keyText ↔ a.value = b.value := by
  obtain ⟨x, hxvalue, hxkey⟩ := ha.exists_double
  obtain ⟨y, hyvalue, hykey⟩ := hb.exists_double
  rw [← hxvalue, ← hyvalue, ← hxkey, ← hykey]
  exact Binary64.keyText_eq_keyText_iff

/-- Two numbers select the same member of every object only if they have one key. -/
theorem Json.select?_object_eq_iff {a b : Number} :
    (∀ members, select? (number a) (object members) = select? (number b) (object members)) ↔
      a.keyText = b.keyText := by
  constructor
  · intro h
    have hmember := h [(a.keyText, null)]
    by_contra hne
    simp [select?, key?, find?, hne] at hmember
  · intro h members
    rw [select?, select?, key?, key?, h]

/-- Numbers up to `2^53` and doubles share a key, and select the same members, exactly if they are
equal, whichever way they are stored. -/
theorem key_identifies_number {a b : Number} (ha : a.InDoubles) (hb : b.InDoubles) :
    (a.keyText = b.keyText ↔ a.value = b.value) ∧
      ((∀ members, Json.select? (.number a) (.object members) =
        Json.select? (.number b) (.object members)) ↔ a.value = b.value) := by
  have hkey := Number.keyText_eq_keyText_iff ha hb
  exact ⟨hkey, Json.select?_object_eq_iff.trans hkey⟩

/-- Zero and minus zero have one key, which is not that of three. -/
theorem key_identifies_number_zero :
    let zero : Number := .int 0 (by decide) (by decide)
    let minusZero : Number := .double ⟨true, .zero⟩
    (zero.InDoubles ∧ minusZero.InDoubles ∧ Json.threeAsDouble.InDoubles) ∧
      (zero.value = minusZero.value ∧ zero.keyText = minusZero.keyText ∧
        ∀ members, Json.select? (.number zero) (.object members) =
          Json.select? (.number minusZero) (.object members)) ∧
      zero.value ≠ Json.threeAsDouble.value ∧ zero.keyText ≠ Json.threeAsDouble.keyText := by
  intro zero minusZero
  have hbound : |(0 : ℤ)| ≤ 2 ^ 53 := by decide
  have hzero : zero.InDoubles := hbound
  have hzeros : zero.value = minusZero.value := by
    have hminus : minusZero.value = 0 := Binary64.value_eq_zero_iff.mpr rfl
    rw [hminus]
    exact Int.cast_zero
  have hthree : zero.value ≠ Json.threeAsDouble.value := by
    have hvalue : Json.threeAsDouble.value = (3 : Nat) :=
      Number.hasValue_iff.mp (by decide : Json.threeAsDouble.HasValue 3)
    rw [hvalue]
    simp [zero, Number.value]
  have hsame := key_identifies_number hzero (b := minusZero) trivial
  have hother := key_identifies_number hzero (b := Json.threeAsDouble) trivial
  exact ⟨⟨hzero, trivial, trivial⟩, ⟨hzeros, hsame.1.mpr hzeros, hsame.2.mpr hzeros⟩,
    hthree, hother.1.not.mpr hthree⟩

end DocPath
