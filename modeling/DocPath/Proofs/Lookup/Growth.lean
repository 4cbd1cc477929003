import DocPath.Proofs.Lookup.Failing
import DocPath.Proofs.Lookup.Position

/-!
Growing documents. What a path leads to in a document it also leads to in every document that
extends it, up to growth.
-/

namespace DocPath

/-- Numbers that compare as equal. The two zeros do; a whole number and a double do not. -/
def Number.Alike : Number → Number → Prop
  | int i _ _, int j _ _ => i = j
  | double x, double y => x = y ∨ (x.isZero ∧ y.isZero)
  | _, _ => False

theorem Number.Alike.refl (n : Number) : n.Alike n := by
  cases n with
  | int i _ _ => exact rfl
  | double x => exact Or.inl rfl

theorem Binary64.position?_of_isZero {x : Binary64} (h : x.isZero) : x.position? = some 0 := by
  have hvalue : (Number.double x).HasValue 0 := by
    refine ⟨?_, fun _ => rfl⟩
    rw [isZero_iff.mp h, Nat.zero_mul]
  exact position?_eq hvalue (Nat.zero_le _)

theorem Number.Alike.keyText_eq {n n' : Number} (h : n.Alike n') : n'.keyText = n.keyText := by
  cases n with
  | int i _ _ =>
    cases n' with
    | int j _ _ =>
      obtain rfl : i = j := h
      rfl
    | double y => exact h.elim
  | double x =>
    cases n' with
    | int j _ _ => exact h.elim
    | double y =>
      rcases h with rfl | ⟨hx, hy⟩
      · rfl
      · simp [keyText, Binary64.keyText, hx, hy]

theorem Number.Alike.position?_eq {n n' : Number} (h : n.Alike n') :
    n'.position? = n.position? := by
  cases n with
  | int i _ _ =>
    cases n' with
    | int j _ _ =>
      obtain rfl : i = j := h
      rfl
    | double y => exact h.elim
  | double x =>
    cases n' with
    | int j _ _ => exact h.elim
    | double y =>
      rcases h with rfl | ⟨hx, hy⟩
      · rfl
      · rw [position?, position?, Binary64.position?_of_isZero hx, Binary64.position?_of_isZero hy]

namespace Json

/-- The second value extends the first: it has all members of the first, grown, and perhaps more.
The order of keys does not matter, and numbers need only be the same in the given sense. -/
inductive Grows (same : Number → Number → Prop) : Json → Json → Prop where
  | null : Grows same null null
  | bool (b : Bool) : Grows same (bool b) (bool b)
  | number {n n' : Number} (h : same n n') : Grows same (number n) (number n')
  | string (s : String) : Grows same (string s) (string s)
  | array {items items' : List Json} (hlen : items.length ≤ items'.length)
      (hgrow : ∀ (k : Nat) v v', items[k]? = some v → items'[k]? = some v' → Grows same v v') :
      Grows same (array items) (array items')
  | object {members members' : List (String × Json)}
      (hkeys : ∀ key v, find? key members = some v → ∃ v', find? key members' = some v')
      (hgrow : ∀ key v v', find? key members = some v → find? key members' = some v' →
        Grows same v v') :
      Grows same (object members) (object members')

section Members

variable {same : Number → Number → Prop} {v v' m i i' : Json}

theorem Grows.item? {items items' : List Json} (h : Grows same (.array items) (.array items'))
    {p : Position} (hm : item? items p = some m) :
    ∃ m', item? items' p = some m' ∧ Grows same m m' := by
  cases h with
  | array hlen hgrow =>
    obtain ⟨hp, _⟩ := List.getElem?_eq_some_iff.mp hm
    have hm' := List.getElem?_eq_getElem (Nat.lt_of_lt_of_le hp hlen)
    exact ⟨_, hm', hgrow _ _ _ hm hm'⟩

theorem Grows.find? {members members' : List (String × Json)}
    (h : Grows same (.object members) (.object members')) {key : String}
    (hm : Json.find? key members = some m) :
    ∃ m', Json.find? key members' = some m' ∧ Grows same m m' := by
  cases h with
  | object hkeys hgrow =>
    obtain ⟨m', hm'⟩ := hkeys key m hm
    exact ⟨m', hm', hgrow key m m' hm hm'⟩

theorem Grows.member? (h : Grows same v v') {name : String} (hm : v.member? name = some m) :
    ∃ m', v'.member? name = some m' ∧ Grows same m m' := by
  cases h with
  | array hlen hgrow =>
    obtain ⟨p, hp, hitem⟩ := Option.bind_eq_some_iff.mp hm
    obtain ⟨m', hm', hgrows⟩ := (Grows.array hlen hgrow).item? hitem
    refine ⟨m', ?_, hgrows⟩
    apply Option.bind_eq_some_iff.mpr
    exact ⟨p, hp, hm'⟩
  | object hkeys hgrow => exact (Grows.object hkeys hgrow).find? hm
  | _ => contradiction

-- Only scalars denote keys and positions, and those grow into nothing else.

theorem Grows.key?_eq (hsame : ∀ n n', same n n' → n.Alike n') (h : Grows same i i')
    {key : String} (hkey : i.key? = some key) : i'.key? = some key := by
  cases h with
  | array _ _ => contradiction
  | object _ _ => contradiction
  | number hn =>
    rw [← hkey, key?, (hsame _ _ hn).keyText_eq]
    rfl
  | _ => exact hkey

theorem Grows.position?_eq (hsame : ∀ n n', same n n' → n.Alike n') (h : Grows same i i')
    {p : Position} (hp : i.position? = some p) : i'.position? = some p := by
  cases h with
  | array _ _ => contradiction
  | object _ _ => contradiction
  | number hn =>
    rw [← hp, position?, (hsame _ _ hn).position?_eq]
    rfl
  | _ => exact hp

theorem Grows.select? (hsame : ∀ n n', same n n' → n.Alike n') (h : Grows same v v')
    (hi : Grows same i i') (hm : Json.select? i v = some m) :
    ∃ m', Json.select? i' v' = some m' ∧ Grows same m m' := by
  cases h with
  | array hlen hgrow =>
    obtain ⟨p, hp, hitem⟩ := Option.bind_eq_some_iff.mp hm
    obtain ⟨m', hm', hgrows⟩ := (Grows.array hlen hgrow).item? hitem
    refine ⟨m', ?_, hgrows⟩
    apply Option.bind_eq_some_iff.mpr
    exact ⟨p, hi.position?_eq hsame hp, hm'⟩
  | object hkeys hgrow =>
    obtain ⟨key, hkey, hfind⟩ := Option.bind_eq_some_iff.mp hm
    obtain ⟨m', hm', hgrows⟩ := (Grows.object hkeys hgrow).find? hfind
    refine ⟨m', ?_, hgrows⟩
    apply Option.bind_eq_some_iff.mpr
    exact ⟨key, hi.key?_eq hsame hkey, hm'⟩
  | _ => contradiction

end Members

theorem Leads.grows {same : Number → Number → Prop} (hsame : ∀ n n', same n n' → n.Alike n')
    {root root' v v' u : Json} {p : Path} (h : Leads root v p u) (hroot : Grows same root root')
    (hv : Grows same v v') : ∃ u', Leads root' v' p u' ∧ Grows same u u' := by
  induction h generalizing v' with
  | here v => exact ⟨v', .here v', hv⟩
  | bare hm _ ih =>
    obtain ⟨m', hm', hgrows⟩ := hv.member? hm
    obtain ⟨u', hrest, hu⟩ := ih hgrows
    exact ⟨u', .bare hm' hrest, hu⟩
  | indexed hm _ hw _ ihi ihrest =>
    obtain ⟨m', hm', hgrows⟩ := hv.member? hm
    -- The index path starts at the root again, so its value grows with the root.
    obtain ⟨i', hi', higrows⟩ := ihi hroot
    obtain ⟨w', hw', hwgrows⟩ := hgrows.select? hsame higrows hw
    obtain ⟨u', hrest, hu⟩ := ihrest hwgrows
    exact ⟨u', .indexed hm' hi' hw' hrest, hu⟩

/-- In a document that has grown, a path leads to the value it led to before, grown. Numbers may be
told apart by identity, by comparison, or by anything between the two. -/
theorem resolve_of_grows {same : Number → Number → Prop} (hsame : ∀ n n', same n n' → n.Alike n')
    {root root' : Json} (hroot : Grows same root root') {p : Path} {v : Json}
    (h : root.resolve p = .ok v) : ∃ v', root'.resolve p = .ok v' ∧ Grows same v v' := by
  obtain ⟨v', hv', hgrows⟩ := (resolve_eq_ok_iff.mp h).grows hsame hroot hroot
  exact ⟨v', resolve_eq_ok_iff.mpr hv', hgrows⟩

/-- A member may move, an array may get longer, and an object may get further keys. -/
theorem resolve_of_grows_reordered :
    let index : Number := .int 1 (by decide) (by decide)
    let before : Json := .object [("table", .object [("1", .array [.null])]),
      ("row", .number index)]
    let after : Json := .object [("row", .number index), ("new", .null),
      ("table", .object [("2", .null), ("1", .array [.null, .null])])]
    Grows Number.Alike before after ∧
      before.resolve [.indexed "table" [.bare "row"]] = .ok (.array [.null]) ∧
      ∃ v, after.resolve [.indexed "table" [.bare "row"]] = .ok v ∧
        Grows Number.Alike (.array [.null]) v := by
  intro index before after
  have hindex := Number.Alike.refl index
  have hitems : Grows Number.Alike (.array [.null]) (.array [.null, .null]) := by
    refine .array (by decide) ?_
    intro k v v' hv hv'
    cases k with
    | zero =>
      rw [← Option.some.inj hv, ← Option.some.inj hv']
      exact .null
    | succ k => contradiction
  have htable : Grows Number.Alike (.object [("1", .array [.null])])
      (.object [("2", .null), ("1", .array [.null, .null])]) := by
    refine .object ?_ ?_
    · intro key v hv
      grind [Json.find?]
    · intro key v v' hv hv'
      grind [Json.find?]
  have hgrows : Grows Number.Alike before after := by
    refine .object ?_ ?_
    · intro key v hv
      grind [Json.find?]
    · intro key v v' hv hv'
      grind [Json.find?, Grows.number]
  have hbefore : before.resolve [.indexed "table" [.bare "row"]] = .ok (.array [.null]) := by
    cbv
  exact ⟨hgrows, hbefore, resolve_of_grows (fun _ _ h => h) hgrows hbefore⟩

end Json

end DocPath
