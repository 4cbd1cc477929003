import DocPath.Proofs.Lookup.Leads

/-!
The lookups that a path asks for, and the one that finds nothing when a path leads nowhere. Its
place in the path tells what is noted and what is reported; the document only decides which lookup
it is. So the walk succeeds exactly where the path leads, and fails exactly at that lookup.
-/

namespace DocPath

/-- A lookup that a path asks for: that of its first name, that of the value of the index path
there, one in those brackets, or one of the segments after it. -/
inductive Lookup : Path → Type where
  | name (s : Segment) (rest : Path) : Lookup (s :: rest)
  | index (name : String) (index rest : Path) : Lookup (.indexed name index :: rest)
  | inside (name : String) {index : Path} (l : Lookup index) (rest : Path) :
      Lookup (.indexed name index :: rest)
  | later (s : Segment) {rest : Path} (l : Lookup rest) : Lookup (s :: rest)

namespace Lookup

def isName : {p : Path} → Lookup p → Bool
  | _, name _ _ => true
  | _, index _ _ _ => false
  | _, inside _ l _ => l.isName
  | _, later _ l => l.isName

/-- The segment whose name or index is looked up. -/
def segment : {p : Path} → Lookup p → Segment
  | _, name s _ => s
  | _, index n i _ => .indexed n i
  | _, inside _ l _ => l.segment
  | _, later _ l => l.segment

/-- The innermost path that the segment stands in, where the outermost one is `whole`. -/
def around (whole : Path) : {p : Path} → Lookup p → Path
  | _, name _ _ => whole
  | _, index _ _ _ => whole
  | _, @inside _ i l _ => l.around i
  | _, later _ l => l.around whole

/-- The segments that are entered before the lookup is made. -/
def entered : {p : Path} → Lookup p → Path
  | _, name s _ => [s]
  | _, index n i _ => (Segment.indexed n i).flatten
  | _, @inside n i l _ => .indexed n i :: l.entered
  | _, later s l => s.flatten ++ l.entered

variable {p : Path}

/-- What is noted if the lookup finds nothing. -/
def event (whole : Path) (l : Lookup p) : Event :=
  if l.isName then .nameMissing l.segment.name (l.around whole)
  else .indexMissing l.segment.name (l.segment.index?.getD [])

/-- The member that is reported as missing if the lookup finds nothing. -/
def reported (l : Lookup p) : String :=
  if l.isName then l.segment.name else l.segment.render

theorem entered_ne_nil (l : Lookup p) : l.entered ≠ [] := by
  induction l with
  | name s rest => exact List.cons_ne_nil _ _
  | index n i rest => exact List.cons_ne_nil _ _
  | inside n l rest ih => exact List.cons_ne_nil _ _
  | later s l ih => exact List.append_ne_nil_of_right_ne_nil _ ih

/-- What is entered before a lookup is where the segments of the path begin, in reading order. -/
theorem entered_prefix (l : Lookup p) : l.entered <+: p.flatten := by
  induction l with
  | name s rest => cases s <;> simp [entered, Segment.flatten]
  | index n i rest => exact List.prefix_append _ _
  | inside n l rest ih =>
    rw [entered, Path.flatten_cons, Segment.flatten, List.cons_append, List.cons_prefix_cons]
    exact ⟨rfl, ih.trans (List.prefix_append _ _)⟩
  | later s l ih =>
    rw [entered, Path.flatten_cons, List.prefix_append_right_inj]
    exact ih

theorem segment_mem_around (l : Lookup p) {whole : Path} (h : p <:+ whole) :
    l.segment ∈ l.around whole := by
  induction l generalizing whole with
  | name s rest => exact h.mem List.mem_cons_self
  | index n i rest => exact h.mem List.mem_cons_self
  | inside n l rest ih => exact ih (List.suffix_refl _)
  | later s l ih => exact ih ((List.suffix_cons s _).trans h)

theorem getLast?_entered {l : Lookup p} (h : l.isName) : l.entered.getLast? = some l.segment := by
  induction l with
  | name s rest => rfl
  | index n i rest => contradiction
  | inside n l rest ih =>
    rw [entered, List.getLast?_cons_of_ne_nil l.entered_ne_nil]
    exact ih h
  | later s l ih =>
    rw [entered, List.getLast?_append, ih h, Option.some_or]
    rfl

theorem flatten_segment_suffix {l : Lookup p} (h : l.isName = false) :
    l.segment.flatten <:+ l.entered := by
  induction l with
  | name s rest => contradiction
  | index n i rest => exact List.suffix_refl _
  | inside n l rest ih => exact (ih h).trans (List.suffix_cons _ _)
  | later s l ih => exact (ih h).trans (List.suffix_append _ _)

theorem exists_segment_eq_indexed {l : Lookup p} (h : l.isName = false) :
    ∃ name index, l.segment = .indexed name index := by
  induction l with
  | name s rest => contradiction
  | index n i rest => exact ⟨n, i, rfl⟩
  | inside n l rest ih => exact ih h
  | later s l ih => exact ih h

theorem segment_mem_flatten (l : Lookup p) : l.segment ∈ p.flatten := by
  apply l.entered_prefix.mem
  cases h : l.isName with
  | true => exact List.mem_of_getLast? (getLast?_entered h)
  | false =>
    obtain ⟨name, index, hs⟩ := exists_segment_eq_indexed h
    apply (flatten_segment_suffix h).mem
    rw [hs]
    exact List.mem_cons_self

/-- The path spells what is reported: it is one of its names, or one of its segments. -/
theorem reported_eq (l : Lookup p) :
    ∃ s ∈ p.flatten, l.reported = s.name ∨ l.reported = s.render := by
  refine ⟨l.segment, l.segment_mem_flatten, ?_⟩
  unfold reported
  split
  · exact Or.inl rfl
  · exact Or.inr rfl

end Lookup

namespace Json

/-- From a value along a path: the lookup is made, and it finds nothing. -/
inductive FailsAt (root : Json) : Json → {p : Path} → Lookup p → Prop where
  | name {v : Json} {s : Segment} {rest : Path} (hm : v.member? s.name = none) :
      FailsAt root v (.name s rest)
  | index {v m i : Json} {name : String} {index rest : Path} (hm : v.member? name = some m)
      (hi : Leads root root index i) (hw : select? i m = none) :
      FailsAt root v (.index name index rest)
  | inside {v m : Json} {name : String} {index rest : Path} {l : Lookup index}
      (hm : v.member? name = some m) (h : FailsAt root root l) :
      FailsAt root v (.inside name l rest)
  | later {v w : Json} {s : Segment} {rest : Path} {l : Lookup rest} (hs : Leads root v [s] w)
      (h : FailsAt root w l) : FailsAt root v (.later s l)

section Segment

variable {root v m i : Json} {inside : Path}

theorem walkSegment_of_name {s : Segment} (hm : v.member? s.name = none) :
    walkSegment root inside v s =
      ⟨[.entered s, .nameMissing s.name inside], .error (.missing s.name)⟩ := by
  cases s with
  | bare name =>
    rw [Segment.name_bare] at hm
    rw [walkSegment, hm]
    rfl
  | indexed name index =>
    rw [Segment.name_indexed] at hm
    rw [walkSegment, hm]
    rfl

variable {name : String} {index : Path} {events : List Event}

theorem walkSegment_indexed_of_index (hm : v.member? name = some m)
    (hi : walkFrom root index root index = ⟨events, .ok i⟩) (hw : select? i m = none) :
    walkSegment root inside v (.indexed name index) =
      ⟨.entered (.indexed name index) :: events ++ [.indexMissing name index],
        .error (.missing (Segment.indexed name index).render)⟩ := by
  rw [walkSegment, hm]
  simp only [hi, Logged.bind_of_ok, hw]
  rfl

theorem walkSegment_indexed_of_inside {e : PathFailure} (hm : v.member? name = some m)
    (hi : walkFrom root index root index = ⟨events, .error e⟩) :
    walkSegment root inside v (.indexed name index) =
      ⟨.entered (.indexed name index) :: events, .error e⟩ := by
  rw [walkSegment, hm]
  simp only [hi]
  rfl

end Segment

section Run

variable {root v w u : Json} {p : Path}

theorem FailsAt.walkFrom_eq {l : Lookup p} (h : FailsAt root v l) (inside : Path) :
    walkFrom root inside v p =
      ⟨l.entered.map .entered ++ [l.event inside], .error (.missing l.reported)⟩ := by
  induction h generalizing inside with
  | name hm =>
    rw [walkFrom_cons, walkSegment_of_name hm]
    rfl
  | @index _ _ _ _ index _ hm hi hw =>
    rw [walkFrom_cons, walkSegment_indexed_of_index hm (hi.walkFrom_eq index) hw]
    rfl
  | @inside _ _ _ index _ _ hm _ ih =>
    rw [walkFrom_cons, walkSegment_indexed_of_inside hm (ih index)]
    rfl
  | later hs _ ih =>
    rw [walkFrom_cons, walkSegment_of_leads hs, Logged.bind_of_ok, ih inside]
    rw [Lookup.entered, List.map_append, List.append_assoc]
    rfl

/-- A path leads somewhere, or one of its lookups finds nothing. -/
theorem leads_or_failsAt (root : Json) (p : Path) (v : Json) :
    (∃ u, Leads root v p u) ∨ ∃ l : Lookup p, FailsAt root v l := by
  match p with
  | [] => exact Or.inl ⟨v, .here v⟩
  | .bare name :: rest =>
    cases hm : v.member? name with
    | none => exact Or.inr ⟨_, .name hm⟩
    | some m =>
      rcases leads_or_failsAt root rest m with ⟨u, hu⟩ | ⟨l, hl⟩
      · exact Or.inl ⟨u, .bare hm hu⟩
      · exact Or.inr ⟨_, .later (.bare hm (.here m)) hl⟩
  | .indexed name index :: rest =>
    cases hm : v.member? name with
    | none => exact Or.inr ⟨_, .name hm⟩
    | some m =>
      rcases leads_or_failsAt root index root with ⟨i, hi⟩ | ⟨l, hl⟩
      · cases hw : select? i m with
        | none => exact Or.inr ⟨_, .index hm hi hw⟩
        | some w =>
          rcases leads_or_failsAt root rest w with ⟨u, hu⟩ | ⟨l, hl⟩
          · exact Or.inl ⟨u, .indexed hm hi hw hu⟩
          · exact Or.inr ⟨_, .later (.indexed hm hi hw (.here w)) hl⟩
      · exact Or.inr ⟨_, .inside hm hl⟩

theorem Leads.not_failsAt (h : Leads root v p u) (l : Lookup p) : ¬FailsAt root v l := by
  intro hl
  have heq := (h.walkFrom_eq p).symm.trans (hl.walkFrom_eq p)
  have := congrArg Logged.outcome heq
  contradiction

/-- At most one lookup of a path finds nothing, for the walk does not go on past it. -/
theorem FailsAt.unique {l l' : Lookup p} (h : FailsAt root v l) (h' : FailsAt root v l') :
    l = l' := by
  induction h with
  | name hm =>
    cases h' with
    | name => rfl
    | index hm' => exact absurd (hm.symm.trans hm') (by simp)
    | inside hm' => exact absurd (hm.symm.trans hm') (by simp)
    | later hs => exact absurd (.name hm) (hs.not_failsAt _)
  | index hm hi hw =>
    cases h' with
    | name hm' => exact absurd (hm.symm.trans hm') (by simp)
    | index => rfl
    | inside _ h' => exact absurd h' (hi.not_failsAt _)
    | later hs => exact absurd (.index hm hi hw) (hs.not_failsAt _)
  | inside hm h ih =>
    cases h' with
    | name hm' => exact absurd (hm.symm.trans hm') (by simp)
    | index _ hi => exact absurd h (hi.not_failsAt _)
    | inside _ h' => rw [ih h']
    | later hs => exact absurd (.inside hm h) (hs.not_failsAt _)
  | later hs h ih =>
    cases h' with
    | name hm => exact absurd (.name hm) (hs.not_failsAt _)
    | index hm hi hw => exact absurd (.index hm hi hw) (hs.not_failsAt _)
    | inside hm h' => exact absurd (.inside hm h') (hs.not_failsAt _)
    | later hs' h' =>
      obtain rfl := hs.unique hs'
      rw [ih h']

theorem resolve_eq_ok_iff : root.resolve p = .ok u ↔ root.Leads root p u := by
  constructor
  · intro h
    rcases leads_or_failsAt root p root with ⟨w, hw⟩ | ⟨l, hl⟩
    · rw [resolve, walk, hw.walkFrom_eq p, Except.ok.injEq] at h
      rwa [← h]
    · rw [resolve, walk, hl.walkFrom_eq p] at h
      contradiction
  · intro h
    rw [resolve, walk, h.walkFrom_eq p]

theorem resolve_eq_error_iff {e : PathFailure} :
    root.resolve p = .error e ↔ ∃ l : Lookup p, root.FailsAt root l ∧ e = .missing l.reported := by
  rcases leads_or_failsAt root p root with ⟨u, hu⟩ | ⟨l, hl⟩
  · rw [resolve, walk, hu.walkFrom_eq p]
    constructor
    · intro h
      contradiction
    · rintro ⟨l, hl, _⟩
      exact absurd hl (hu.not_failsAt l)
  · rw [resolve, walk, hl.walkFrom_eq p, Except.error.injEq]
    constructor
    · intro h
      exact ⟨l, hl, h.symm⟩
    · rintro ⟨l', hl', rfl⟩
      rw [hl.unique hl']

end Run

end Json

end DocPath
