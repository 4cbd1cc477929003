import DocPath.Lookup.Walk

/-!
Where a path leads, as a relation. The walk goes along it and notes each segment, whatever the path
is that it reports failures for.
-/

namespace DocPath

theorem Logged.bind_of_ok {α β : Type} {events : List Event} {a : α} (f : α → Logged β) :
    (⟨events, .ok a⟩ : Logged α) >>= f = ⟨events ++ (f a).events, (f a).outcome⟩ := rfl

namespace Json

/-- From a value along a path to another value. An index path leads from the root to the value that
picks the member. -/
inductive Leads (root : Json) : Json → Path → Json → Prop where
  | here (v : Json) : Leads root v [] v
  | bare {v m u : Json} {name : String} {rest : Path} (hm : v.member? name = some m)
      (hrest : Leads root m rest u) : Leads root v (.bare name :: rest) u
  | indexed {v m i w u : Json} {name : String} {index rest : Path}
      (hm : v.member? name = some m) (hi : Leads root root index i)
      (hw : select? i m = some w) (hrest : Leads root w rest u) :
      Leads root v (.indexed name index :: rest) u

section Segment

variable {root v m i w : Json} {inside : Path} {name : String}

theorem walkSegment_bare_of_member (hm : v.member? name = some m) :
    walkSegment root inside v (.bare name) = ⟨[.entered (.bare name)], .ok m⟩ := by
  rw [walkSegment, hm]
  rfl

theorem walkSegment_indexed_of_member {index : Path} {events : List Event}
    (hm : v.member? name = some m) (hi : walkFrom root index root index = ⟨events, .ok i⟩)
    (hw : select? i m = some w) :
    walkSegment root inside v (.indexed name index) =
      ⟨.entered (.indexed name index) :: events, .ok w⟩ := by
  rw [walkSegment, hm]
  simp only [hi, hw, Logged.bind_of_ok, Logged.events_pure, List.append_nil]
  rfl

end Segment

section Run

variable {root v w u : Json} {p q : Path} {s : Segment}

theorem Leads.walkFrom_eq (h : Leads root v p u) (inside : Path) :
    walkFrom root inside v p = ⟨p.flatten.map .entered, .ok u⟩ := by
  induction h generalizing inside with
  | here v => rfl
  | @bare v m u name rest hm _ ih =>
    rw [walkFrom_cons, walkSegment_bare_of_member hm, Logged.bind_of_ok, ih inside]
    rfl
  | @indexed v m i w u name index rest hm _ hw _ ihi ihrest =>
    -- The index path reports failures for itself, so its hypothesis is used at `index`.
    rw [walkFrom_cons, walkSegment_indexed_of_member hm (ihi index) hw, Logged.bind_of_ok]
    rw [ihrest inside, Path.flatten_cons, List.map_append]
    rfl

theorem walkSegment_of_leads {inside : Path} (h : Leads root v [s] w) :
    walkSegment root inside v s = ⟨s.flatten.map .entered, .ok w⟩ := by
  cases h with
  | bare hm hrest =>
    cases hrest
    exact walkSegment_bare_of_member hm
  | @indexed _ _ _ _ _ _ index _ hm hi hw hrest =>
    cases hrest
    exact walkSegment_indexed_of_member hm (hi.walkFrom_eq index) hw

theorem Leads.unique (h : Leads root v p u) (h' : Leads root v p w) : u = w := by
  have heq := (h.walkFrom_eq p).symm.trans (h'.walkFrom_eq p)
  exact Except.ok.inj (congrArg Logged.outcome heq)

theorem leads_append_iff :
    Leads root v (p ++ q) u ↔ ∃ w, Leads root v p w ∧ Leads root w q u := by
  induction p generalizing v with
  | nil =>
    constructor
    · intro h
      exact ⟨v, .here v, h⟩
    · rintro ⟨w, h, hrest⟩
      cases h
      exact hrest
  | cons s p ih =>
    constructor
    · intro h
      cases h with
      | bare hm hrest =>
        obtain ⟨w, hp, hq⟩ := ih.mp hrest
        exact ⟨w, .bare hm hp, hq⟩
      | indexed hm hi hw hrest =>
        obtain ⟨w, hp, hq⟩ := ih.mp hrest
        exact ⟨w, .indexed hm hi hw hp, hq⟩
    · rintro ⟨w, h, hq⟩
      cases h with
      | bare hm hp => exact .bare hm (ih.mpr ⟨w, hp, hq⟩)
      | indexed hm hi hw hp => exact .indexed hm hi hw (ih.mpr ⟨w, hp, hq⟩)

theorem Leads.cons (hs : Leads root v [s] w) (h : Leads root w p u) : Leads root v (s :: p) u := by
  have happend : Leads root v ([s] ++ p) u := leads_append_iff.mpr ⟨w, hs, h⟩
  exact happend

end Run

end Json

end DocPath
