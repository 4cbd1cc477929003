import DocPath.Proofs.Lookup.Position

/-!
Members of a value without the functions that find them: what a value owns by name and what an index
picks, in documents whose arrays have places for 64-bit positions.
-/

namespace DocPath.Json

/-- A position is denoted by a number that has it as its value, and by its decimal text. -/
inductive Denotes : Json → Nat → Prop where
  | number {n : Number} {k : Nat} (h : n.HasValue k) : Denotes (.number n) k
  | text (k : Nat) : Denotes (.string (toString k)) k

inductive Owns : Json → String → Json → Prop where
  | member {members : List (String × Json)} {name : String} {m : Json}
      (h : find? name members = some m) : Owns (.object members) name m
  | item {items : List Json} {k : Nat} {m : Json} (h : items[k]? = some m) :
      Owns (.array items) (toString k) m

inductive Picks (index : Json) : Json → Json → Prop where
  | member {members : List (String × Json)} {key : String} {m : Json}
      (hkey : index.key? = some key) (h : find? key members = some m) :
      Picks index (.object members) m
  | item {items : List Json} {k : Nat} {m : Json} (hk : index.Denotes k)
      (h : items[k]? = some m) : Picks index (.array items) m

section Array

variable {items : List Json}

theorem member?_array_eq_some_iff (hlen : items.length < UInt64.size) {name : String} {m : Json} :
    (array items).member? name = some m ↔ ∃ k : Nat, name = toString k ∧ items[k]? = some m := by
  simp only [member?, Option.bind_eq_some_iff, Position.ofText?_eq_some_iff]
  constructor
  · rintro ⟨p, hname, hm⟩
    exact ⟨p.toNat, hname, hm⟩
  · rintro ⟨k, hname, hm⟩
    obtain ⟨hk, _⟩ := List.getElem?_eq_some_iff.mp hm
    have hto := UInt64.toNat_ofNat_of_lt' (Nat.lt_trans hk hlen)
    refine ⟨UInt64.ofNat k, by rw [hto, hname], ?_⟩
    rw [item?, hto]
    exact hm

theorem position?_toNat_eq_iff {index : Json} {k : Nat} (hk : k + 1 < UInt64.size) :
    index.position?.map UInt64.toNat = some k ↔ index.Denotes k := by
  cases index with
  | number n =>
    constructor
    · intro h
      exact .number ((Number.position?_toNat_eq_iff hk).mp h)
    · rintro ⟨h⟩
      exact (Number.position?_toNat_eq_iff hk).mpr h
  | string s =>
    constructor
    · intro h
      obtain ⟨p, hp, rfl⟩ := Option.map_eq_some_iff.mp h
      rw [Position.ofText?_eq_some_iff.mp hp]
      exact .text p.toNat
    · intro h
      cases h
      have hto := UInt64.toNat_ofNat_of_lt' (Nat.lt_of_succ_lt hk)
      have hp : Position.ofText? (toString k) = some (UInt64.ofNat k) := by
        apply Position.ofText?_eq_some_iff.mpr
        rw [hto]
      rw [position?, hp, Option.map_some, hto]
  | _ =>
    constructor
    · intro h
      contradiction
    · intro h
      cases h

theorem select?_array_eq_some_iff (hlen : items.length < UInt64.size) {index m : Json} :
    select? index (.array items) = some m ↔ ∃ k, index.Denotes k ∧ items[k]? = some m := by
  simp only [select?, Option.bind_eq_some_iff]
  constructor
  · rintro ⟨p, hp, hm⟩
    obtain ⟨hk, _⟩ := List.getElem?_eq_some_iff.mp hm
    refine ⟨p.toNat, (position?_toNat_eq_iff (by omega)).mp ?_, hm⟩
    rw [hp, Option.map_some]
  · rintro ⟨k, hindex, hm⟩
    obtain ⟨hk, _⟩ := List.getElem?_eq_some_iff.mp hm
    obtain ⟨p, hp, rfl⟩ :=
      Option.map_eq_some_iff.mp ((position?_toNat_eq_iff (by omega)).mpr hindex)
    exact ⟨p, hp, hm⟩

end Array

inductive Part : Json → Json → Prop where
  | self (v : Json) : Part v v
  | item {part v : Json} {items : List Json} (hv : v ∈ items) (h : Part part v) :
      Part part (.array items)
  | member {part v : Json} {key : String} {members : List (String × Json)}
      (hv : (key, v) ∈ members) (h : Part part v) : Part part (.object members)

/-- Every array in the document has fewer than `2^64` items. -/
def Countable (v : Json) : Prop := ∀ items, Part (.array items) v → items.length < UInt64.size

theorem countable_array_iff {items : List Json} :
    (array items).Countable ↔ items.length < UInt64.size ∧ ∀ v ∈ items, v.Countable := by
  constructor
  · intro h
    exact ⟨h items (.self _), fun v hv items' hpart => h items' (.item hv hpart)⟩
  · rintro ⟨hlen, hall⟩ items' hpart
    cases hpart with
    | self => exact hlen
    | item hv hpart => exact hall _ hv items' hpart

theorem countable_object_iff {members : List (String × Json)} :
    (object members).Countable ↔ ∀ entry ∈ members, entry.2.Countable := by
  constructor
  · rintro h ⟨key, v⟩ hv items hpart
    exact h items (.member hv hpart)
  · intro hall items hpart
    cases hpart with
    | member hv hpart => exact hall _ hv items hpart

theorem countable_number (n : Number) : (number n).Countable := by
  intro items hpart
  cases hpart

theorem countable_string (s : String) : (string s).Countable := by
  intro items hpart
  cases hpart

theorem mem_of_find? {name : String} {members : List (String × Json)} {m : Json}
    (h : find? name members = some m) : (name, m) ∈ members := by
  induction members with
  | nil => simp [find?] at h
  | cons entry rest ih =>
    obtain ⟨key, value⟩ := entry
    rw [find?] at h
    split at h
    · rename_i hkey
      rw [hkey, Option.some.inj h]
      exact List.mem_cons_self
    · exact List.mem_cons_of_mem _ (ih h)

section Countable

variable {v m index : Json} {name : String}

theorem Owns.countable (h : v.Owns name m) (hv : v.Countable) : m.Countable := by
  cases h with
  | member hm => exact countable_object_iff.mp hv _ (mem_of_find? hm)
  | item hm => exact (countable_array_iff.mp hv).2 m (List.mem_of_getElem? hm)

theorem Picks.countable (h : index.Picks v m) (hv : v.Countable) : m.Countable := by
  cases h with
  | member _ hm => exact countable_object_iff.mp hv _ (mem_of_find? hm)
  | item _ hm => exact (countable_array_iff.mp hv).2 m (List.mem_of_getElem? hm)

theorem member?_eq_some_iff (hv : v.Countable) : v.member? name = some m ↔ v.Owns name m := by
  cases v with
  | array items =>
    rw [member?_array_eq_some_iff (countable_array_iff.mp hv).1]
    constructor
    · rintro ⟨k, rfl, hm⟩
      exact .item hm
    · intro h
      cases h with
      | item hm => exact ⟨_, rfl, hm⟩
  | object members =>
    constructor
    · exact .member
    · intro h
      cases h with
      | member hm => exact hm
  | _ =>
    constructor
    · intro h
      contradiction
    · intro h
      cases h

theorem select?_eq_some_iff (hv : v.Countable) : select? index v = some m ↔ index.Picks v m := by
  cases v with
  | array items =>
    rw [select?_array_eq_some_iff (countable_array_iff.mp hv).1]
    constructor
    · rintro ⟨k, hk, hm⟩
      exact .item hk hm
    · intro h
      cases h with
      | item hk hm => exact ⟨_, hk, hm⟩
  | object members =>
    constructor
    · intro h
      obtain ⟨key, hkey, hm⟩ := Option.bind_eq_some_iff.mp h
      exact .member hkey hm
    · intro h
      apply Option.bind_eq_some_iff.mpr
      cases h with
      | member hkey hm => exact ⟨_, hkey, hm⟩
  | _ =>
    constructor
    · intro h
      contradiction
    · intro h
      cases h

end Countable

end DocPath.Json
