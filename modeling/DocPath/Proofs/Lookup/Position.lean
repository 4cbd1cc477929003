import DocPath.Lookup.Member

/-!
Which texts and numbers denote a position. A text denotes the position whose decimal it is; a number
denotes its value, if that is a natural number, whichever way it is stored.
-/

namespace DocPath

namespace Position

theorem digit_of_isDigit {c : Char} (hc : c.isDigit) :
    c.toNat - '0'.toNat < 10 ∧ Nat.digitChar (c.toNat - '0'.toNat) = c := by
  have hbounds := Char.isDigit_iff_toNat.mp hc
  have hzero : '0'.toNat = 48 := rfl
  have hnine : '9'.toNat = 57 := rfl
  have hlt : c.toNat - '0'.toNat < 10 := by omega
  refine ⟨hlt, Char.toNat_inj.mp ?_⟩
  rw [Nat.toNat_digitChar_of_lt_ten hlt]
  omega

theorem toDigits_append {ds : List Char} (hds : ∀ c ∈ ds, c.isDigit) {n : Nat} (hn : 0 < n) :
    Nat.toDigits 10 n ++ ds = Nat.toDigits 10 (Nat.ofDigitChars 10 ds n) := by
  induction ds generalizing n with
  | nil => simp
  | cons c ds ih =>
    obtain ⟨hc, hrest⟩ := List.forall_mem_cons.mp hds
    obtain ⟨hlt, hchar⟩ := digit_of_isDigit hc
    have hstep := Nat.toDigits_append_toDigits (b := 10) (by decide) hn hlt
    rw [Nat.toDigits_of_lt_base hlt, hchar] at hstep
    have htail := ih hrest (n := 10 * n + (c.toNat - '0'.toNat)) (by omega)
    rw [Nat.ofDigitChars_cons, ← htail, ← hstep, List.append_assoc, List.singleton_append]

theorem toDigits_ofDigitChars {ds : List Char} (h : isCanonical ds) :
    Nat.toDigits 10 (Nat.ofDigitChars 10 ds 0) = ds := by
  match ds with
  | [c] =>
    obtain ⟨hlt, hchar⟩ := digit_of_isDigit h
    rw [Nat.ofDigitChars_cons, Nat.ofDigitChars_nil, Nat.mul_zero, Nat.zero_add]
    rw [Nat.toDigits_of_lt_base hlt, hchar]
  | c :: d :: ds =>
    simp only [isCanonical, Bool.and_eq_true, bne_iff_ne, List.all_eq_true] at h
    obtain ⟨hne, hall⟩ := h
    obtain ⟨hc, hrest⟩ := List.forall_mem_cons.mp hall
    obtain ⟨hlt, hchar⟩ := digit_of_isDigit hc
    have hpos : 0 < c.toNat - '0'.toNat := by
      apply Nat.pos_of_ne_zero
      intro hzero
      rw [hzero] at hchar
      exact hne hchar.symm
    rw [Nat.ofDigitChars_cons, Nat.mul_zero, Nat.zero_add, ← toDigits_append hrest hpos]
    rw [Nat.toDigits_of_lt_base hlt, hchar, List.singleton_append]

theorem isCanonical_append {ds : List Char} {d : Char} (h : isCanonical ds) (hne : ds ≠ ['0'])
    (hd : d.isDigit) : isCanonical (ds ++ [d]) := by
  match ds with
  | [c] =>
    have hc : c ≠ '0' := fun hc => hne (congrArg (· :: []) hc)
    have hdigit : c.isDigit := h
    simp [isCanonical, hc, hdigit, hd]
  | c :: e :: ds =>
    simp only [isCanonical, Bool.and_eq_true] at h
    simp only [List.cons_append, isCanonical, h.1, Bool.true_and]
    rw [← List.cons_append, ← List.cons_append, List.all_append, h.2]
    simp [hd]

theorem isCanonical_toDigits (n : Nat) : isCanonical (Nat.toDigits 10 n) := by
  induction n using Nat.strongRecOn with
  | ind n ih =>
    by_cases hn : n < 10
    · rw [Nat.toDigits_of_lt_base hn]
      simpa [isCanonical, Nat.isDigit_digitChar] using hn
    · rw [Nat.toDigits_of_base_le (by decide) (Nat.le_of_not_lt hn)]
      apply isCanonical_append (ih (n / 10) (by omega))
      · intro hzero
        have hvalue := congrArg (Nat.ofDigitChars 10 · 0) hzero
        rw [Nat.ofDigitChars_ten_toDigits] at hvalue
        have : n / 10 = 0 := hvalue
        omega
      · simpa [Nat.isDigit_digitChar] using Nat.mod_lt n (by decide)

theorem le_ofDigitChars (ds : List Char) (n : Nat) : n ≤ Nat.ofDigitChars 10 ds n := by
  induction ds generalizing n with
  | nil => simp
  | cons c ds ih =>
    rw [Nat.ofDigitChars_cons]
    exact Nat.le_trans (by omega) (ih _)

theorem foldlM_append? (ds : List Char) (p : Position) :
    ds.foldlM append? p =
      if Nat.ofDigitChars 10 ds p.toNat < UInt64.size then
        some (UInt64.ofNat (Nat.ofDigitChars 10 ds p.toNat))
      else none := by
  induction ds generalizing p with
  | nil =>
    have := p.toNat_lt_size
    simp [this]
  | cons c ds ih =>
    rw [List.foldlM_cons, append?, Nat.ofDigitChars_cons, Nat.mul_comm 10]
    generalize hn : p.toNat * 10 + (c.toNat - '0'.toNat) = n
    by_cases hlt : n < UInt64.size
    · have := ih (UInt64.ofNat n)
      rw [UInt64.toNat_ofNat_of_lt' hlt] at this
      simpa [hlt] using this
    · have := le_ofDigitChars ds n
      rw [if_neg hlt, if_neg (by omega)]
      rfl

theorem ofText?_eq_some_iff {text : String} {p : Position} :
    ofText? text = some p ↔ text = toString p.toNat := by
  rw [Nat.toString_eq_ofList_toDigits, ofText?, foldlM_append?]
  constructor
  · intro h
    split at h
    · rename_i hcanonical
      split at h
      · rename_i hlt
        rw [← Option.some.inj h, UInt64.toNat_ofNat_of_lt' hlt]
        have := toDigits_ofDigitChars hcanonical
        rw [UInt64.toNat_zero, this, String.ofList_toList]
      · contradiction
    · contradiction
  · intro h
    have hlist : text.toList = Nat.toDigits 10 p.toNat := by rw [h, String.toList_ofList]
    have hlt := p.toNat_lt_size
    rw [hlist, if_pos (isCanonical_toDigits _), UInt64.toNat_zero, Nat.ofDigitChars_ten_toDigits]
    rw [if_pos hlt, UInt64.ofNat_toNat]

end Position

/-- The exact value of a number is the natural number `k`. -/
def Number.HasValue : Number → Nat → Prop
  | int i _ _, k => i = k
  | double x, k => x.magnitude.units = k * Magnitude.one ∧ (x.negative → k = 0)

instance : (n : Number) → (k : Nat) → Decidable (n.HasValue k)
  | .int i _ _, k => inferInstanceAs (Decidable (i = k))
  | .double x, k => inferInstanceAs
      (Decidable (x.magnitude.units = k * Magnitude.one ∧ (x.negative → k = 0)))

theorem Binary64.isZero_iff {x : Binary64} : x.isZero ↔ x.magnitude.units = 0 := by
  simp [isZero]

theorem Binary64.position?_eq {x : Binary64} {k : Nat} (h : (Number.double x).HasValue k)
    (hk : k ≤ UInt64.size) : x.position? = some (UInt64.ofNat (min k (UInt64.size - 1))) := by
  obtain ⟨hunits, hsign⟩ := h
  have hone := Magnitude.one_pos
  have hzero : x.negative → x.isZero := by
    intro hnegative
    rw [isZero_iff, hunits, hsign hnegative, Nat.zero_mul]
  simp only [position?, hunits, Nat.mul_mod_left, Nat.mul_div_cancel k hone]
  rw [if_pos ⟨hzero, trivial, Nat.mul_le_mul_right _ hk⟩]

theorem Binary64.exists_hasValue {x : Binary64} {p : Position} (h : x.position? = some p) :
    ∃ k, (Number.double x).HasValue k ∧ k ≤ UInt64.size := by
  simp only [position?] at h
  split at h
  · rename_i hcond
    obtain ⟨hzero, hmod, hle⟩ := hcond
    have hone := Magnitude.one_pos
    have hunits := Nat.div_mul_cancel (Nat.dvd_of_mod_eq_zero hmod)
    refine ⟨x.magnitude.units / Magnitude.one, ⟨hunits.symm, ?_⟩, ?_⟩
    · intro hnegative
      rw [isZero_iff.mp (hzero hnegative), Nat.zero_div]
    · exact Nat.div_le_of_le_mul (by rwa [Nat.mul_comm])
  · contradiction

/-- A number denotes a position below the greatest one exactly if that is its value. The greatest
one is no place in an array that can be counted. -/
theorem Number.position?_toNat_eq_iff {n : Number} {k : Nat} (hk : k + 1 < UInt64.size) :
    n.position?.map UInt64.toNat = some k ↔ n.HasValue k := by
  cases n with
  | int i lower upper =>
    by_cases hi : 0 ≤ i
    · have hlt : i.toNat < UInt64.size := by omega
      simp only [position?, if_pos hi, Option.map_some, UInt64.toNat_ofNat_of_lt' hlt]
      rw [Option.some.injEq, HasValue]
      omega
    · simp only [position?, if_neg hi, Option.map_none, HasValue]
      constructor
      · intro h
        contradiction
      · intro h
        omega
  | double x =>
    constructor
    · intro h
      obtain ⟨p, hp, hk'⟩ := Option.map_eq_some_iff.mp h
      obtain ⟨k', hvalue, hle⟩ := Binary64.exists_hasValue hp
      have hlt : min k' (UInt64.size - 1) < UInt64.size := by omega
      rw [position?, Binary64.position?_eq hvalue hle, Option.some.injEq] at hp
      rw [← hp, UInt64.toNat_ofNat_of_lt' hlt] at hk'
      have : k' = k := by omega
      rwa [← this]
    · intro h
      have hmin : min k (UInt64.size - 1) = k := by omega
      rw [position?, Binary64.position?_eq h (by omega), Option.map_some, hmin]
      rw [UInt64.toNat_ofNat_of_lt' (by omega)]

end DocPath
