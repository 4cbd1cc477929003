import DocPath.Proofs.Lookup.Growth

/-!
What a path depends on. Two objects that agree under the names which a path reads answer it alike,
whatever else they hold.
-/

namespace DocPath.Json

/-- Outcomes with related values, or with the same failure. -/
inductive OutcomesAlike (R : Json → Json → Prop) :
    Except PathFailure Json → Except PathFailure Json → Prop where
  | ok {v v' : Json} (h : R v v') : OutcomesAlike R (.ok v) (.ok v')
  | error (e : PathFailure) : OutcomesAlike R (.error e) (.error e)

theorem OutcomesAlike.bind {R : Json → Json → Prop} {x x' : Except PathFailure Json}
    {f f' : Json → Except PathFailure Json} (hx : OutcomesAlike R x x')
    (hf : ∀ v v', R v v' → OutcomesAlike R (f v) (f' v')) :
    OutcomesAlike R (x >>= f) (x' >>= f') := by
  cases hx with
  | ok h => exact hf _ _ h
  | error e => exact .error e

/-- Related values have related members, both those of a name and those that related values pick. -/
structure Congruence (R : Json → Json → Prop) : Prop where
  member? {v v' : Json} (h : R v v') (name : String) :
    Option.Rel R (v.member? name) (v'.member? name)
  select? {v v' i i' : Json} (h : R v v') (hi : R i i') :
    Option.Rel R (select? i v) (select? i' v')

theorem select?_object_eq_none (members : List (String × Json)) (v : Json) :
    select? (.object members) v = none := by
  cases v <;> rfl

section Agree

variable {R : Json → Json → Prop} {members members' : List (String × Json)}

/-- Two objects that have related members, or none, under each of the names. -/
def AgreeOn (R : Json → Json → Prop) (names : List String)
    (members members' : List (String × Json)) : Prop :=
  ∀ name ∈ names, Option.Rel R (find? name members) (find? name members')

/-- The values at which two walks along a path are, where those of an empty path are related and
those of any other path have related members under its first name. -/
def Meet (R : Json → Json → Prop) (v v' : Json) : Path → Prop
  | [] => R v v'
  | s :: _ => Option.Rel R (v.member? s.name) (v'.member? s.name)

theorem Congruence.meet (hR : Congruence R) {v v' : Json} (h : R v v') (p : Path) :
    Meet R v v' p := by
  cases p with
  | nil => exact h
  | cons s rest => exact hR.member? h s.name

theorem meet_of_agreeOn {p : Path} (hp : p ≠ []) (h : AgreeOn R p.names members members') :
    Meet R (.object members) (.object members') p := by
  cases p with
  | nil => exact absurd rfl hp
  | cons s rest =>
    apply h
    cases s <;> simp [Segment.names]

theorem outcomesAlike_of_rel {x x' : Option Json} (e : PathFailure) :
    Option.Rel R x x' → OutcomesAlike R (match x with | some w => .ok w | none => .error e)
      (match x' with | some w => .ok w | none => .error e) := by
  intro h
  cases h with
  | some hw => exact .ok hw
  | none => exact .error e

section Segment

variable {root root' v v' : Json} {inside : Path} {name : String}

theorem outcomesAlike_bare (h : Option.Rel R (v.member? name) (v'.member? name)) :
    OutcomesAlike R (walkSegment root inside v (.bare name)).outcome
      (walkSegment root' inside v' (.bare name)).outcome := by
  rw [outcome_walkSegment_bare, outcome_walkSegment_bare]
  exact outcomesAlike_of_rel (.missing name) h

theorem outcomesAlike_indexed {index : Path}
    (h : Option.Rel R (v.member? name) (v'.member? name))
    (hindex : ∀ m m' e, R m m' → OutcomesAlike R
      ((walkFrom root index root index).outcome >>= fun i =>
        match select? i m with | some w => .ok w | none => .error e)
      ((walkFrom root' index root' index).outcome >>= fun i =>
        match select? i m' with | some w => .ok w | none => .error e)) :
    OutcomesAlike R (walkSegment root inside v (.indexed name index)).outcome
      (walkSegment root' inside v' (.indexed name index)).outcome := by
  rw [outcome_walkSegment_indexed, outcome_walkSegment_indexed]
  revert h
  generalize v.member? name = x, v'.member? name = x'
  intro h
  cases h with
  | none => exact .error _
  | some hm => exact hindex _ _ _ hm

end Segment

theorem outcomes_alike (hR : Congruence R) (p : Path) (h : AgreeOn R p.names members members')
    (inside : Path) (v v' : Json) (hstart : Meet R v v' p) :
    OutcomesAlike R (walkFrom (.object members) inside v p).outcome
      (walkFrom (.object members') inside v' p).outcome := by
  match p with
  | [] => exact .ok hstart
  | .bare name :: rest =>
    have hrest : AgreeOn R (Path.names rest) members members' := fun n hn =>
      h n (List.mem_append_right _ hn)
    rw [outcome_walkFrom_cons, outcome_walkFrom_cons]
    apply OutcomesAlike.bind (outcomesAlike_bare hstart)
    intro w w' hw
    exact outcomes_alike hR rest hrest inside w w' (hR.meet hw rest)
  | .indexed name index :: rest =>
    have hrest : AgreeOn R (Path.names rest) members members' := fun n hn =>
      h n (List.mem_append_right _ hn)
    have hindex : AgreeOn R (Path.names index) members members' := fun n hn =>
      h n (List.mem_append_left _ (List.mem_cons_of_mem _ hn))
    rw [outcome_walkFrom_cons, outcome_walkFrom_cons]
    apply OutcomesAlike.bind (outcomesAlike_indexed hstart ?_)
    · intro w w' hw
      exact outcomes_alike hR rest hrest inside w w' (hR.meet hw rest)
    · intro m m' e hm
      by_cases hne : index = []
      · -- The index is the whole document, and no object picks a member.
        subst hne
        simp only [walkFrom_nil, Logged.outcome_pure, Logged.ok_bind, select?_object_eq_none]
        exact .error e
      · have hi := outcomes_alike hR index hindex index _ _ (meet_of_agreeOn hne hindex)
        apply hi.bind
        intro i i' hi
        exact outcomesAlike_of_rel e (hR.select? hm hi)

end Agree

theorem congruence_eq : Congruence (· = ·) where
  member? := by
    rintro v _ rfl name
    cases v.member? name with
    | none => exact .none
    | some m => exact .some rfl
  select? := by
    rintro v _ i _ rfl rfl
    cases select? i v with
    | none => exact .none
    | some m => exact .some rfl

/-- Values that are equal but for the order of keys: each extends the other. -/
def Equals (same : Number → Number → Prop) (v v' : Json) : Prop :=
  Grows same v v' ∧ Grows same v' v

theorem rel_equals {same : Number → Number → Prop} {x x' : Option Json}
    (h : ∀ m, x = some m → ∃ m', x' = some m' ∧ Grows same m m')
    (h' : ∀ m', x' = some m' → ∃ m, x = some m ∧ Grows same m' m) :
    Option.Rel (Equals same) x x' := by
  cases x with
  | none =>
    cases x' with
    | none => exact .none
    | some m' =>
      obtain ⟨m, hm, _⟩ := h' m' rfl
      contradiction
  | some m =>
    obtain ⟨m', rfl, hgrows⟩ := h m rfl
    obtain ⟨w, hw, hgrows'⟩ := h' m' rfl
    obtain rfl := Option.some.inj hw
    exact .some ⟨hgrows, hgrows'⟩

theorem congruence_equals {same : Number → Number → Prop}
    (hsame : ∀ n n', same n n' → n.Alike n') : Congruence (Equals same) where
  member? := by
    rintro v v' ⟨h, h'⟩ name
    exact rel_equals (fun m hm => h.member? hm) (fun m hm => h'.member? hm)
  select? := by
    rintro v v' i i' ⟨h, h'⟩ ⟨hi, hi'⟩
    exact rel_equals (fun m hm => h.select? hsame hi hm) (fun m hm => h'.select? hsame hi' hm)

theorem OutcomesAlike.eq {x x' : Except PathFailure Json} (h : OutcomesAlike (· = ·) x x') :
    x = x' := by
  cases h with
  | ok h => rw [h]
  | error e => rfl

/-- The names that a path reads are all that its outcome depends on. -/
theorem resolve_depends_on_names {p : Path} (hp : p ≠ []) (members members' : List (String × Json)) :
    ((∀ name ∈ p.names, find? name members = find? name members') →
      (object members).resolve p = (object members').resolve p) ∧
    ∀ same : Number → Number → Prop, (∀ n n', same n n' → n.Alike n') →
      (∀ name ∈ p.names, Option.Rel (Equals same) (find? name members) (find? name members')) →
      OutcomesAlike (Equals same) ((object members).resolve p) ((object members').resolve p) := by
  constructor
  · intro h
    have hagree : AgreeOn (· = ·) p.names members members' := by
      intro name hname
      rw [h name hname]
      cases find? name members' with
      | none => exact .none
      | some m => exact .some rfl
    exact (outcomes_alike congruence_eq p hagree p _ _ (meet_of_agreeOn hp hagree)).eq
  · intro same hsame h
    exact outcomes_alike (congruence_equals hsame) p h p _ _ (meet_of_agreeOn hp h)

/-- The empty index path reads the whole document, but nothing of it shows. -/
theorem resolve_depends_on_names_not_on_others :
    let p : Path := [.indexed "rows" [.bare "at"], .indexed "cells" []]
    let rows : Json := .object [("last", .object [("cells", .array [.null])])]
    let members := [("rows", rows), ("at", .string "last")]
    let members' := [("new", .bool true), ("at", .string "last"), ("rows", rows)]
    p ≠ [] ∧ (∀ name ∈ p.names, find? name members = find? name members') ∧
      (object members).resolve p = (object members').resolve p := by
  intro p rows members members'
  have hp : p ≠ [] := by simp [p]
  have hagree : ∀ name ∈ p.names, find? name members = find? name members' := by
    simp [p, members, members', Segment.names, find?]
  exact ⟨hp, hagree, (resolve_depends_on_names hp members members').1 hagree⟩

end DocPath.Json
