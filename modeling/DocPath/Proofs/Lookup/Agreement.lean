import DocPath.Proofs.Lookup.Member
import DocPath.Proofs.Number.Whole
import Mathlib

/-!
The two ways to a member agree: selection by an index is access by the key that the index denotes,
in arrays of at most `2^53` items.
-/

namespace DocPath

section Text

variable {k : Nat}

theorem isDigit_of_mem_toString {c : Char} (h : c ∈ (toString k).toList) : c.isDigit := by
  rw [Nat.toString_eq_ofList_toDigits, String.toList_ofList] at h
  exact Nat.isDigit_of_mem_toDigits (by decide) (by decide) h

theorem ne_toString_of_mem {text : String} {c : Char} (hc : c ∈ text.toList)
    (hdigit : c.isDigit = false) : text ≠ toString k := by
  rintro rfl
  rw [isDigit_of_mem_toString hc] at hdigit
  contradiction

theorem toString_injective : Function.Injective (toString : Nat → String) := by
  intro k n h
  have hdigits : Nat.toDigits 10 k = Nat.toDigits 10 n := by
    simpa [Nat.toString_eq_ofList_toDigits] using congrArg String.toList h
  rw [← Nat.ofDigitChars_ten_toDigits (n := k), hdigits, Nat.ofDigitChars_ten_toDigits]

theorem toString_int_eq_iff {i : Int} : toString i = toString k ↔ i = k := by
  cases i with
  | ofNat n =>
    constructor
    · intro h
      rw [toString_injective (show toString n = toString k from h)]
      rfl
    · intro h
      rw [h]
      rfl
  | negSucc n =>
    constructor
    · intro h
      exact absurd h (ne_toString_of_mem (c := '-') (by simp [toString, Int.repr]) rfl)
    · intro h
      contradiction

end Text

theorem Magnitude.needsPower_of_whole {x : Magnitude} {k : Nat} (hx : x.units ≠ 0)
    (hwhole : x.units = k * one) (hk : k < 2 ^ 53) : x.needsPower = false := by
  have hgreat : k * one < Nat.pow 10 21 * one :=
    Nat.mul_lt_mul_of_pos_right (hk.trans (by decide)) one_pos
  have hsmall : millionth.units ≤ k * one := by
    calc millionth.units ≤ one := by decide +kernel
      _ ≤ k * one := Nat.le_mul_of_pos_left _ (pos_of_whole hwhole hx)
  rw [needsPower, hwhole]
  simp only [Bool.or_eq_false_iff, decide_eq_false_iff_not]
  omega

namespace Binary64

variable {x : Binary64} {k : Nat}

theorem keyText_of_not_negative (hx : x.magnitude.units ≠ 0) (hnegative : x.negative = false) :
    x.keyText = if x.magnitude.needsPower then (x.magnitude.shortest .up).scientific
      else (x.magnitude.shortest .up).positional := by
  rw [keyText, if_neg (isZero_iff.not.mpr hx), sign, hnegative]
  exact String.empty_append

theorem minus_mem_keyText (hx : x.magnitude.units ≠ 0) (hnegative : x.negative) :
    '-' ∈ x.keyText.toList := by
  rw [keyText, if_neg (isZero_iff.not.mpr hx), sign, if_pos hnegative]
  simp

theorem keyText_of_hasValue (hk : k < 2 ^ 53) (h : (Number.double x).HasValue k) :
    x.keyText = toString k := by
  obtain ⟨hwhole, hsign⟩ := h
  by_cases hx : x.magnitude.units = 0
  · have hzero : k = 0 := by
      rw [hx, eq_comm, Nat.mul_eq_zero] at hwhole
      exact hwhole.resolve_right Magnitude.one_pos.ne'
    rw [keyText, if_pos (isZero_iff.mpr hx), hzero]
    rfl
  · have hnegative : x.negative = false := by
      by_contra hnegative
      rw [hsign (by simpa using hnegative), Nat.zero_mul] at hwhole
      exact hx hwhole
    have hread := Magnitude.nearest?_shortest hx .up
    have hdigits := Decimal.digits_ne_zero_of_nearest? hx hread
    have hexponent := Magnitude.exponent_shortest_nonneg hwhole hx .up
    rw [keyText_of_not_negative hx hnegative, Magnitude.needsPower_of_whole hx hwhole hk]
    rw [if_neg Bool.false_ne_true, Decimal.positional_of_nonneg hdigits hexponent]
    rw [Magnitude.num_of_nearest?_whole hwhole hx hk hread hexponent]

theorem hasValue_of_keyText (hk : k < 2 ^ 53) (h : x.keyText = toString k) :
    (Number.double x).HasValue k := by
  by_cases hx : x.magnitude.units = 0
  · rw [keyText, if_pos (isZero_iff.mpr hx)] at h
    obtain rfl : 0 = k := toString_injective h
    exact ⟨by rw [hx, Nat.zero_mul], fun _ => rfl⟩
  · have hnegative : x.negative = false := by
      by_contra hnegative
      exact ne_toString_of_mem (minus_mem_keyText hx (by simpa using hnegative)) rfl h
    have hread := Magnitude.nearest?_shortest hx .up
    rw [keyText_of_not_negative hx hnegative] at h
    generalize x.magnitude.shortest .up = d at h hread
    split at h
    · exact absurd h (ne_toString_of_mem Decimal.e_mem_scientific rfl)
    · have hexponent : 0 ≤ d.exponent := by
        by_contra hlt
        exact ne_toString_of_mem (Decimal.point_mem_positional (by omega)) rfl h
      have hdigits := Decimal.digits_ne_zero_of_nearest? hx hread
      rw [Decimal.positional_of_nonneg hdigits hexponent] at h
      obtain rfl := toString_injective h
      refine ⟨Magnitude.units_of_nearest?_whole hx hread hexponent hk, ?_⟩
      rw [hnegative]
      intro hsign
      contradiction

end Binary64

theorem Number.hasValue_iff_keyText {n : Number} {k : Nat} (hk : k < 2 ^ 53) :
    n.HasValue k ↔ n.keyText = toString k := by
  cases n with
  | int i lower upper => exact toString_int_eq_iff.symm
  | double x => exact ⟨Binary64.keyText_of_hasValue hk, Binary64.hasValue_of_keyText hk⟩

namespace Json

/-- Below `2^53` the position that an index denotes is the one that its key writes in decimal. -/
theorem denotes_iff_key? {index : Json} {k : Nat} (hk : k < 2 ^ 53) :
    index.Denotes k ↔ index.key? = some (toString k) := by
  constructor
  · intro h
    cases h with
    | number hvalue => rw [key?, (Number.hasValue_iff_keyText hk).mp hvalue]
    | text => rfl
  · intro h
    cases index with
    | number n => exact .number ((Number.hasValue_iff_keyText hk).mpr (Option.some.inj h))
    | string s =>
      rw [key?, Option.some.injEq] at h
      rw [h]
      exact .text k
    | bool b =>
      -- The words `true` and `false` are no numerals.
      have hword : (if b then "true" else "false") = toString k := by
        cases b <;> exact Option.some.inj h
      exact absurd hword (ne_toString_of_mem (c := 'e') (by cases b <;> decide) rfl)
    | null => exact absurd (Option.some.inj h) (ne_toString_of_mem (c := 'n') (by decide) rfl)
    | array items => contradiction
    | object members => contradiction

theorem select?_array_eq_member? {items : List Json} (hlen : items.length ≤ 2 ^ 53)
    (index : Json) :
    select? index (array items) = index.key?.bind fun key => (array items).member? key := by
  have hcount : items.length < UInt64.size := Nat.lt_of_le_of_lt hlen (by decide)
  ext m
  rw [Option.bind_eq_some_iff, select?_array_eq_some_iff hcount]
  constructor
  · rintro ⟨k, hindex, hm⟩
    obtain ⟨hk, _⟩ := List.getElem?_eq_some_iff.mp hm
    refine ⟨toString k, (denotes_iff_key? (by omega)).mp hindex, ?_⟩
    exact (member?_array_eq_some_iff hcount).mpr ⟨k, rfl, hm⟩
  · rintro ⟨key, hkey, hmember⟩
    obtain ⟨k, rfl, hm⟩ := (member?_array_eq_some_iff hcount).mp hmember
    obtain ⟨hk, _⟩ := List.getElem?_eq_some_iff.mp hm
    exact ⟨k, (denotes_iff_key? (by omega)).mpr hkey, hm⟩

/-- Selection by an index is access by its key, if it has one, and selects nothing otherwise. -/
theorem select_agrees_with_member {v index : Json}
    (hlen : ∀ items, v = .array items → items.length ≤ 2 ^ 53) :
    select? index v = index.key?.bind fun key => v.member? key := by
  cases v with
  | array items => exact select?_array_eq_member? (hlen items rfl) index
  | object members => rfl
  | _ => exact (Option.bind_eq_none_iff.mpr fun _ _ => rfl).symm

def threeAsDouble : Number :=
  .double ⟨false, ⟨3 <<< 51, 1023, by decide, by decide, Or.inl (by decide)⟩⟩

theorem select_agrees_with_member_three :
    (∀ items, array [null, null, null, bool true] = .array items → items.length ≤ 2 ^ 53) ∧
      (number threeAsDouble).key? = some "3" ∧
      select? (number threeAsDouble) (array [null, null, null, bool true]) = some (bool true) := by
  have hlen : ∀ items, array [null, null, null, bool true] = .array items →
      items.length ≤ 2 ^ 53 := by
    rintro items ⟨⟩
    decide
  have hkey : (number threeAsDouble).key? = some (toString 3) :=
    (denotes_iff_key? (by decide)).mp (.number (by decide))
  refine ⟨hlen, hkey, ?_⟩
  rw [select_agrees_with_member hlen, hkey]
  rfl

end Json

end DocPath
