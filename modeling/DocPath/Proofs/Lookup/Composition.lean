import DocPath.Proofs.Lookup.Failing
import DocPath.Proofs.Path.Join
import Mathlib

/-!
Following one path behind another. A path text behind a point goes on from the value in front of it,
as long as it closes no bracket, for only brackets look at the root again.
-/

namespace DocPath

namespace Json

variable {root : Json}

/-- The path that failures are reported for does not change where a walk leads. -/
theorem outcome_walkFrom_inside (inside inside' : Path) (v : Json) (p : Path) :
    (walkFrom root inside v p).outcome = (walkFrom root inside' v p).outcome := by
  rcases leads_or_failsAt root p v with ⟨u, hu⟩ | ⟨l, hl⟩
  · rw [hu.walkFrom_eq, hu.walkFrom_eq]
  · rw [hl.walkFrom_eq, hl.walkFrom_eq]

theorem outcome_walkFrom_append (inside : Path) (v : Json) (p q : Path) :
    (walkFrom root inside v (p ++ q)).outcome =
      (walkFrom root inside v p).outcome >>= fun w => (walkFrom root inside w q).outcome := by
  induction p generalizing v with
  | nil => rfl
  | cons s p ih =>
    rw [List.cons_append, outcome_walkFrom_cons, outcome_walkFrom_cons, bind_assoc]
    congr 1
    funext w
    exact ih w

theorem resolve_append (p q : Path) :
    root.resolve (p ++ q) = root.resolve p >>= fun v => (walkFrom root q v q).outcome := by
  rw [resolve, walk, outcome_walkFrom_append, outcome_walkFrom_inside (p ++ q) p]
  congr 1
  funext v
  exact outcome_walkFrom_inside (p ++ q) q v q

/-- Without index paths a walk never looks at the root. -/
theorem outcome_walkFrom_of_bare {p : Path} (hp : ∀ s ∈ p, s.isIndexed = false)
    (root' v : Json) (inside inside' : Path) :
    (walkFrom root inside v p).outcome = (walkFrom root' inside' v p).outcome := by
  induction p generalizing v with
  | nil => rfl
  | cons s p ih =>
    obtain ⟨hs, hrest⟩ := List.forall_mem_cons.mp hp
    cases s with
    | indexed name index => contradiction
    | bare name =>
      rw [outcome_walkFrom_cons, outcome_walkFrom_cons]
      rw [outcome_walkSegment_bare, outcome_walkSegment_bare]
      cases v.member? name with
      | none => rfl
      | some found => exact ih hrest found

theorem resolve_append_of_bare {p q : Path} (hq : ∀ s ∈ q, s.isIndexed = false) :
    root.resolve (p ++ q) = root.resolve p >>= fun v => v.resolve q := by
  rw [resolve_append]
  congr 1
  funext v
  exact outcome_walkFrom_of_bare hq v v q q

end Json

theorem parse_append_point {p q : String} (hp : p ≠ "") (hq : q ≠ "") (hclose : ']' ∉ q.toList) :
    Path.parse (p ++ "." ++ q) = do
      let front ← Path.parse p
      let back ← Path.parse q
      return front ++ back := by
  have hp' : p.toList ≠ [] := fun h => hp (String.toList_eq_nil_iff.mp h)
  have hq' : q.toList ≠ [] := fun h => hq (String.toList_eq_nil_iff.mp h)
  have hpoint : IsSeparator ['.'] := by
    intro c hc
    rw [List.mem_singleton.mp hc]
    decide
  have htext : (p ++ "." ++ q).toList = p.toList ++ (['.'] ++ q.toList) := by simp
  rw [Path.parse, htext]
  exact Path.ofChars_join hp' hq' (List.cons_ne_nil _ _) hpoint (.inr hclose)

/-- A path text goes on behind a point from the value that the text in front of it leads to. -/
theorem query_append_point (root : Json) {p q : String} (hp : p ≠ "") (hq : q ≠ "")
    (hclose : ']' ∉ q.toList) :
    root.query (p ++ "." ++ q) = root.query p >>= fun v => v.query q := by
  have hq' : q.toList ≠ [] := fun h => hq (String.toList_eq_nil_iff.mp h)
  obtain ⟨back, hback, hbare⟩ := Path.exists_ofChars_of_no_close hq' hclose
  have hparse : Path.parse q = .ok back := hback
  unfold Json.query
  rw [parse_append_point hp hq hclose, hparse]
  cases Path.parse p with
  | error e => rfl
  | ok front => exact Json.resolve_append_of_bare hbare

/-- Brackets that are never closed only separate, on both sides of the point. -/
theorem query_append_point_unclosed :
    let row : Json := .object [("y", .object [("z", .array [.string "first"])])]
    let root : Json := .object [("t", .object [("i", row)]), ("k", .string "i")]
    "t[k][y" ≠ "" ∧ "z[0" ≠ "" ∧ ']' ∉ "z[0".toList ∧
      root.query ("t[k][y" ++ "." ++ "z[0") = .ok (.string "first") := by
  intro row root
  have hp : "t[k][y" ≠ "" := by decide
  have hq : "z[0" ≠ "" := by decide
  have hclose : ']' ∉ "z[0".toList := by simp
  have hfront : root.query "t[k][y" = .ok (.object [("z", .array [.string "first"])]) := by cbv
  have hback : (Json.object [("z", .array [.string "first"])]).query "z[0" =
      .ok (.string "first") := by cbv
  refine ⟨hp, hq, hclose, ?_⟩
  rw [query_append_point root hp hq hclose, hfront]
  exact hback

end DocPath
