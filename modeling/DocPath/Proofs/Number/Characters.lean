import DocPath.Number.Basic
import Mathlib

/-!
The characters with which numbers are written: digits, signs, a point, and the letter in front of a
power of ten.
-/

namespace DocPath

def IsNumeralChar (c : Char) : Prop := c.isDigit ∨ c = '-' ∨ c = '+' ∨ c = '.' ∨ c = 'e'

/-- A text that has no other characters. -/
def Numeric (s : String) : Prop := ∀ c ∈ s.toList, IsNumeralChar c

theorem Numeric.append {s t : String} (hs : Numeric s) (ht : Numeric t) : Numeric (s ++ t) := by
  intro c hc
  rw [String.toList_append] at hc
  rcases List.mem_append.mp hc with h | h
  · exact hs c h
  · exact ht c h

theorem numeric_ofList {cs : List Char} (h : ∀ c ∈ cs, IsNumeralChar c) :
    Numeric (String.ofList cs) := by
  unfold Numeric
  rwa [String.toList_ofList]

theorem isNumeralChar_of_mem_toDigits {n : Nat} : ∀ c ∈ Nat.toDigits 10 n, IsNumeralChar c :=
  fun _ hc => Or.inl (Nat.isDigit_of_mem_toDigits (by decide) (by decide) hc)

theorem numeric_nat (n : Nat) : Numeric (toString n) := by
  rw [Nat.toString_eq_ofList_toDigits]
  exact numeric_ofList isNumeralChar_of_mem_toDigits

theorem numeric_minus : Numeric "-" := by simp [Numeric, IsNumeralChar]

theorem numeric_int (n : Int) : Numeric (toString n) := by
  cases n with
  | ofNat m => exact numeric_nat m
  | negSucc m => exact numeric_minus.append (numeric_nat (m + 1))

namespace Decimal

variable (d : Decimal)

theorem isNumeralChar_of_mem_chars : ∀ c ∈ d.chars, IsNumeralChar c :=
  isNumeralChar_of_mem_toDigits

theorem isNumeralChar_of_mem_zeros {n : Nat} : ∀ c ∈ List.replicate n '0', IsNumeralChar c := by
  intro c hc
  rw [List.eq_of_mem_replicate hc]
  exact Or.inl (by decide)

theorem numeric_positional : Numeric d.positional := by
  apply numeric_ofList
  have hchars := d.isNumeralChar_of_mem_chars
  have hpoint : IsNumeralChar '.' := by simp [IsNumeralChar]
  have hzero : IsNumeralChar '0' := Or.inl (by decide)
  split_ifs
  · exact List.forall_mem_append.mpr ⟨hchars, isNumeralChar_of_mem_zeros⟩
  · have htake := fun c hc => hchars c (List.mem_of_mem_take (i := d.point.toNat) hc)
    have hdrop := fun c hc => hchars c (List.mem_of_mem_drop (i := d.point.toNat) hc)
    exact List.forall_mem_append.mpr ⟨htake, List.forall_mem_cons.mpr ⟨hpoint, hdrop⟩⟩
  · have hbehind := List.forall_mem_append.mpr
      ⟨isNumeralChar_of_mem_zeros (n := (-d.point).toNat), hchars⟩
    exact List.forall_mem_cons.mpr ⟨hzero, List.forall_mem_cons.mpr ⟨hpoint, hbehind⟩⟩

theorem numeric_powerText (n : Int) : Numeric (powerText n) := by
  apply Numeric.append _ (numeric_nat _)
  split_ifs <;> simp [Numeric, IsNumeralChar]

theorem numeric_scientific : Numeric d.scientific := by
  have hchars := d.isNumeralChar_of_mem_chars
  have hpoint : IsNumeralChar '.' := by simp [IsNumeralChar]
  unfold scientific
  split
  · rename_i c r rest heq
    rw [heq] at hchars
    obtain ⟨hc, hrest⟩ := List.forall_mem_cons.mp hchars
    have hpointed := List.forall_mem_cons.mpr ⟨hc, List.forall_mem_cons.mpr ⟨hpoint, hrest⟩⟩
    exact (numeric_ofList hpointed).append (numeric_powerText _)
  · exact (numeric_ofList hchars).append (numeric_powerText _)

end Decimal

theorem Number.numeric_text (n : Number) : Numeric n.text := by
  cases n with
  | int i lower upper => exact numeric_int i
  | double x =>
    have hsign : Numeric x.sign := by
      unfold Binary64.sign
      split_ifs
      · exact numeric_minus
      · simp [Numeric]
    have hfraction : Numeric ".0" := by simp [Numeric, IsNumeralChar]
    apply hsign.append
    split_ifs
    · simp [Numeric, IsNumeralChar]
    · exact Decimal.numeric_scientific _
    · exact (Decimal.numeric_positional _).append hfraction
    · exact Decimal.numeric_positional _

end DocPath
