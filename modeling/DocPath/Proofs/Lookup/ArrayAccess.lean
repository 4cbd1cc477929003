import DocPath.Proofs.Lookup.Agreement
import DocPath.Proofs.Number.Value
import Mathlib

/-!
Access to the items of an array. The item at a place is found by the decimal text of that place and,
with an index, by every number of that value; whatever else is asked for, nothing is found.
-/

namespace DocPath.Json

/-- The access gives the item at the place `k` of an array, whatever stands there. -/
def FindsItem (access : Json → Option Json) (items : List Json) (k : Nat) : Prop :=
  k < items.length ∧ ∀ v, access (array (items.set k v)) = some v

theorem FindsItem.access_eq {access : Json → Option Json} {items : List Json} {k : Nat}
    (h : FindsItem access items k) : access (array items) = items[k]? := by
  obtain ⟨hk, hfinds⟩ := h
  have hitem := hfinds (items.get ⟨k, hk⟩)
  rw [List.get_eq_getElem, List.set_getElem_self] at hitem
  rw [hitem, List.getElem?_eq_getElem hk]

/-- The access finds the places of an array that are denoted, and nothing if none of them is. -/
structure ExactAccess (access : Json → Option Json) (items : List Json) (Denoted : Nat → Prop) :
    Prop where
  findsItem_iff : ∀ k, FindsItem access items k ↔ k < items.length ∧ Denoted k
  eq_none : (∀ k < items.length, ¬Denoted k) → access (array items) = none

/-- An access is exact if it denotes one place at most, which does not depend on the items. -/
theorem exactAccess_of_denotes {access : Json → Option Json} {items : List Json}
    {Denoted : Nat → Prop} (hunique : ∀ i j, Denoted i → Denoted j → i = j)
    (haccess : ∀ items' : List Json, items'.length = items.length → ∀ m,
      access (array items') = some m ↔ ∃ k, Denoted k ∧ items'[k]? = some m) :
    ExactAccess access items Denoted := by
  constructor
  · intro k
    constructor
    · rintro ⟨hk, hfinds⟩
      obtain ⟨i, hi, hnull⟩ := (haccess _ List.length_set _).mp (hfinds null)
      obtain ⟨j, hj, htrue⟩ := (haccess _ List.length_set _).mp (hfinds (bool true))
      obtain rfl := hunique i j hi hj
      by_cases hik : k = i
      · rw [hik] at hk ⊢
        exact ⟨hk, hi⟩
      · -- Another place would hold the same item before and after the change.
        rw [List.getElem?_set_ne hik] at hnull htrue
        have hsame : null = bool true := Option.some.inj (hnull.symm.trans htrue)
        contradiction
    · rintro ⟨hk, hdenoted⟩
      refine ⟨hk, ?_⟩
      intro v
      exact (haccess _ List.length_set v).mpr ⟨k, hdenoted, List.getElem?_set_self hk⟩
  · intro hnone
    apply Option.eq_none_iff_forall_ne_some.mpr
    intro m hm
    obtain ⟨k, hdenoted, hitem⟩ := (haccess items rfl m).mp hm
    obtain ⟨hk, _⟩ := List.getElem?_eq_some_iff.mp hitem
    exact hnone k hk hdenoted

theorem denotes_iff {index : Json} {k : Nat} : index.Denotes k ↔
    (∃ n, index = number n ∧ n.value = k) ∨ index = string (toString k) := by
  constructor
  · intro h
    cases h with
    | number hvalue => exact .inl ⟨_, rfl, Number.hasValue_iff.mp hvalue⟩
    | text => exact .inr rfl
  · rintro (⟨n, rfl, hvalue⟩ | rfl)
    · exact .number (Number.hasValue_iff.mpr hvalue)
    · exact .text k

theorem Denotes.unique {index : Json} {i j : Nat} (hi : index.Denotes i) (hj : index.Denotes j) :
    i = j := by
  rw [denotes_iff] at hi hj
  rcases hi with ⟨n, rfl, hn⟩ | rfl
  · rcases hj with ⟨n', heq, hn'⟩ | heq
    · obtain rfl := number.inj heq
      exact_mod_cast hn.symm.trans hn'
    · contradiction
  · rcases hj with ⟨n, heq, _⟩ | heq
    · contradiction
    · exact toString_injective (string.inj heq)

/-- Arrays are read exactly: a name denotes the place of which it is the decimal text, and an index
the place that is its value, however it is stored, or of which it is the decimal text. What is out
of range finds nothing. -/
theorem array_access_exact {items : List Json} (hlen : items.length < UInt64.size) (name : String)
    (index : Json) :
    ExactAccess (member? name) items (fun k => name = toString k) ∧
      ExactAccess (select? index) items (fun k =>
        (∃ n, index = number n ∧ n.value = k) ∨ index = string (toString k)) := by
  constructor
  · apply exactAccess_of_denotes
    · rintro i j rfl hj
      exact toString_injective hj
    · intro items' hlength m
      rw [← hlength] at hlen
      exact member?_array_eq_some_iff hlen
  · apply exactAccess_of_denotes
    · intro i j hi hj
      exact (denotes_iff.mpr hi).unique (denotes_iff.mpr hj)
    · intro items' hlength m
      rw [← hlength] at hlen
      simp only [← denotes_iff]
      exact select?_array_eq_some_iff hlen

def pastPositions : Number :=
  .double ⟨false, ⟨8 <<< 49, 1086, by decide, by decide, Or.inl (by decide)⟩⟩

/-- Neither the double `2^64` nor the text of `2^64 + 1` comes round to a place of a short array. -/
theorem array_access_exact_past_positions :
    let items : List Json := [null, bool true]
    items.length < UInt64.size ∧ pastPositions.value = UInt64.size ∧
      (array items).member? "1" = some (bool true) ∧
      (array items).member? "18446744073709551617" = none ∧
      FindsItem (select? (number threeAsDouble)) [null, null, null, null] 3 ∧
      select? (number pastPositions) (array items) = none := by
  intro items
  have hlen : items.length < UInt64.size := by decide
  have hvalue : pastPositions.value = UInt64.size :=
    Number.hasValue_iff.mp (by decide +kernel : pastPositions.HasValue UInt64.size)
  have hthree : threeAsDouble.value = (3 : Nat) :=
    Number.hasValue_iff.mp (by decide : threeAsDouble.HasValue 3)
  have hshort := array_access_exact hlen "1" (number pastPositions)
  have hlong := array_access_exact hlen "18446744073709551617" null
  have hfour : [null, null, null, null].length < UInt64.size := by decide
  have hdouble := array_access_exact hfour "" (number threeAsDouble)
  refine ⟨hlen, hvalue, ?_, ?_, ?_, ?_⟩
  · have hfinds := (hshort.1.findsItem_iff 1).mpr ⟨by decide, by decide⟩
    exact hfinds.access_eq
  · exact hlong.1.eq_none (by decide)
  · exact (hdouble.2.findsItem_iff 3).mpr ⟨by decide, .inl ⟨_, rfl, hthree⟩⟩
  · apply hshort.2.eq_none
    rintro k hk (⟨n, heq, hn⟩ | heq)
    · obtain rfl := number.inj heq
      have hsize : UInt64.size = k := by exact_mod_cast hvalue.symm.trans hn
      omega
    · contradiction

end DocPath.Json
