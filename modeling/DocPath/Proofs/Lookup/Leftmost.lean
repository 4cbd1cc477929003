import DocPath.Proofs.Lookup.Failing
import Mathlib.Logic.ExistsUnique

/-!
Where a path that leads nowhere breaks off. The prefixes up to that segment lead somewhere, all
longer ones fail alike, and what is reported is spelled by the path and not by the document.
-/

namespace DocPath.Json

/-- The prefixes of a path with at most `i` segments lead somewhere, and the longer ones all fail
with `e`. -/
def BreaksAfter (root : Json) (p : Path) (e : PathFailure) (i : Nat) : Prop :=
  ∀ q, q <+: p →
    (q.length ≤ i → ∃ v, root.resolve q = .ok v) ∧ (i < q.length → root.resolve q = .error e)

/-- What is reported as missing where a segment leads nowhere from the value `u`: its name, what its
index path reports by itself, or the segment as a whole. -/
inductive Reports (root u : Json) : Segment → String → Prop where
  | name {s : Segment} (hm : u.member? s.name = none) : Reports root u s s.name
  | inside {m : Json} {name x : String} {index : Path} (hm : u.member? name = some m)
      (hi : root.resolve index = .error (.missing x)) : Reports root u (.indexed name index) x
  | index {m i : Json} {name : String} {index : Path} (hm : u.member? name = some m)
      (hi : root.resolve index = .ok i) (hw : select? i m = none) :
      Reports root u (.indexed name index) (Segment.indexed name index).render

section Break

variable {root v w u : Json} {p q before : Path} {s : Segment} {x : String}

theorem FailsAt.exists_reports {l : Lookup p} (h : FailsAt root v l) :
    ∃ before s after u, p = before ++ s :: after ∧ Leads root v before u ∧
      Reports root u s l.reported := by
  induction h with
  | @name v s rest hm => exact ⟨[], s, rest, v, rfl, .here v, .name hm⟩
  | @index v m i name index rest hm hi hw =>
    exact ⟨[], _, rest, v, rfl, .here v, .index hm (resolve_eq_ok_iff.mpr hi) hw⟩
  | @inside v m name index rest l hm h _ =>
    have hi := resolve_eq_error_iff.mpr ⟨l, h, rfl⟩
    exact ⟨[], _, rest, v, rfl, .here v, .inside hm hi⟩
  | @later v w s rest l hs _ ih =>
    obtain ⟨before, s', after, u, rfl, hbefore, hreports⟩ := ih
    exact ⟨s :: before, s', after, u, rfl, hs.cons hbefore, hreports⟩

theorem Reports.exists_failsAt (h : Reports root u s x) (rest : Path) :
    ∃ l : Lookup (s :: rest), FailsAt root u l ∧ l.reported = x := by
  cases h with
  | name hm => exact ⟨_, .name hm, rfl⟩
  | index hm hi hw => exact ⟨_, .index hm (resolve_eq_ok_iff.mp hi) hw, rfl⟩
  | inside hm hi =>
    obtain ⟨l, hl, hx⟩ := resolve_eq_error_iff.mp hi
    exact ⟨_, .inside hm hl, (PathFailure.missing.inj hx).symm⟩

theorem Leads.exists_failsAt_append (h : Leads root v p u) {l : Lookup q} (hl : FailsAt root u l) :
    ∃ l' : Lookup (p ++ q), FailsAt root v l' ∧ l'.reported = l.reported := by
  induction h with
  | here v => exact ⟨l, hl, rfl⟩
  | bare hm _ ih =>
    obtain ⟨l', hl', heq⟩ := ih hl
    exact ⟨_, .later (.bare hm (.here _)) hl', heq⟩
  | indexed hm hi hw _ _ ih =>
    obtain ⟨l', hl', heq⟩ := ih hl
    exact ⟨_, .later (.indexed hm hi hw (.here _)) hl', heq⟩

theorem resolve_append_of_reports (hbefore : Leads root root before u) (h : Reports root u s x)
    (rest : Path) : root.resolve (before ++ s :: rest) = .error (.missing x) := by
  obtain ⟨l, hl, rfl⟩ := h.exists_failsAt rest
  obtain ⟨l', hl', heq⟩ := hbefore.exists_failsAt_append hl
  exact resolve_eq_error_iff.mpr ⟨l', hl', by rw [heq]⟩

theorem breaksAfter_iff (hbefore : Leads root root before u) (h : Reports root u s x)
    (after : Path) (i : Nat) :
    root.BreaksAfter (before ++ s :: after) (.missing x) i ↔ i = before.length := by
  constructor
  · intro hbreaks
    rcases Nat.lt_trichotomy i before.length with hlt | heq | hgt
    · have herror := (hbreaks before (List.prefix_append _ _)).2 hlt
      rw [resolve_eq_ok_iff.mpr hbefore] at herror
      contradiction
    · exact heq
    · have hprefix : before ++ [s] <+: before ++ s :: after :=
        (List.prefix_append_right_inj before).mpr ⟨after, rfl⟩
      obtain ⟨v, hv⟩ := (hbreaks _ hprefix).1 (by rw [List.length_append]; exact hgt)
      rw [resolve_append_of_reports hbefore h []] at hv
      contradiction
  · rintro rfl q hq
    constructor
    · intro hle
      obtain ⟨r, rfl⟩ := List.prefix_of_prefix_length_le hq (List.prefix_append _ _) hle
      obtain ⟨v, hv, _⟩ := leads_append_iff.mp hbefore
      exact ⟨v, resolve_eq_ok_iff.mpr hv⟩
    · intro hlt
      obtain ⟨r, rfl⟩ :=
        List.prefix_of_prefix_length_le (List.prefix_append _ _) hq (Nat.le_of_lt hlt)
      -- The prefix goes past the segment that leads nowhere, so that is its next one.
      have hr := (List.prefix_append_right_inj before).mp hq
      cases r with
      | nil => simp at hlt
      | cons s' r =>
        obtain ⟨rfl, _⟩ := List.cons_prefix_cons.mp hr
        exact resolve_append_of_reports hbefore h r

end Break

/-- A path that leads nowhere breaks off after one number of segments, and reports what leads
nowhere there. The same lookup fails with the same report over every document. -/
theorem resolve_eq_error_leftmost {root : Json} {p : Path} {e : PathFailure}
    (h : root.resolve p = .error e) :
    (∃ before s after u x, p = before ++ s :: after ∧
      (∀ i, root.BreaksAfter p e i ↔ i = before.length) ∧ root.resolve before = .ok u ∧
      e = .missing x ∧ root.Reports u s x) ∧
    (∃ s ∈ p.flatten, e = .missing s.name ∨ e = .missing s.render) ∧
    (∃! l : Lookup p, root.FailsAt root l) ∧
    ∀ (l : Lookup p) (other : Json), root.FailsAt root l → other.FailsAt other l →
      other.resolve p = .error e := by
  obtain ⟨l, hl, rfl⟩ := resolve_eq_error_iff.mp h
  refine ⟨?_, ?_, ⟨l, hl, fun l' hl' => hl'.unique hl⟩, ?_⟩
  · obtain ⟨before, s, after, u, rfl, hbefore, hreports⟩ := hl.exists_reports
    have hresolve := resolve_eq_ok_iff.mpr hbefore
    have hbreaks := breaksAfter_iff hbefore hreports after
    exact ⟨before, s, after, u, _, rfl, hbreaks, hresolve, rfl, hreports⟩
  · obtain ⟨s, hs, hname | hrender⟩ := l.reported_eq
    · exact ⟨s, hs, Or.inl (by rw [hname])⟩
    · exact ⟨s, hs, Or.inr (by rw [hrender])⟩
  · intro l' other hl' hother
    obtain rfl := hl.unique hl'
    exact resolve_eq_error_iff.mpr ⟨l, hother, rfl⟩

theorem resolve_eq_error_leftmost_in_table :
    let root : Json := .object [("table", .object [("rows", .array [.null])]),
      ("row", .string "key")]
    let p : Path := [.bare "table", .indexed "rows" [.bare "row"], .bare "after"]
    root.resolve p = .error (.missing "rows[row]") ∧
      ∃ before u, (∀ i, root.BreaksAfter p (.missing "rows[row]") i ↔ i = before.length) ∧
        root.resolve before = .ok u := by
  intro root p
  have h : root.resolve p = .error (.missing "rows[row]") := rfl
  obtain ⟨⟨before, _, _, u, _, _, hbreaks, hu, _, _⟩, _⟩ := resolve_eq_error_leftmost h
  exact ⟨h, before, u, hbreaks, hu⟩

end DocPath.Json
