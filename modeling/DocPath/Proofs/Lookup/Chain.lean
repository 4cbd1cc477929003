import DocPath.Proofs.Lookup.Failing
import DocPath.Proofs.Lookup.Member
import DocPath.Proofs.Path.Accepted
import Mathlib

/-!
What a path text leads to, told from its tokens: a chain of values in which each token leads from one
to the next, and the text in brackets is looked up from the root.
-/

namespace DocPath

/-- A segment that a token stands for, told without the runs of its bracket text. -/
inductive Token.Writes : Token → Segment → Prop where
  | word (w : List Char) : Writes (.word w) (.bare (String.ofList w))
  | bracketed {w content : List Char} {index : Path}
      (h : Path.parse (String.ofList content) = .ok index) :
      Writes (.bracketed w content) (.indexed (String.ofList w) index)

theorem Token.writes_segment {t : Token} (h : t.Accepted) : t.Writes t.segment := by
  cases t with
  | word w => exact .word w
  | bracketed w content =>
    apply Token.Writes.bracketed
    rw [Path.parse, String.toList_ofList]
    exact ofChars_of_no_bracket h.1 h.no_bracket

theorem writes_of_parse {s : String} {p : Path} (h : Path.parse s = .ok p) :
    List.Forall₂ Token.Writes (Token.scan s.toList) p := by
  by_cases hs : s.toList = []
  · rw [Path.parse, hs, Path.ofChars_nil] at h
    contradiction
  · obtain ⟨haccepted, rfl⟩ := (ofChars_eq_ok_iff hs).mp h
    rw [List.forall₂_map_right_iff, List.forall₂_same]
    exact fun t ht => Token.writes_segment (haccepted t ht)

namespace Json

/-- From a value along a token to another value. The text in brackets is looked up from the root. -/
inductive Follows (root : Json) : Json → Token → Json → Prop where
  | word {v m : Json} {w : List Char} (hm : v.Owns (String.ofList w) m) :
      Follows root v (.word w) m
  | bracketed {v m i u : Json} {w content : List Char} (hm : v.Owns (String.ofList w) m)
      (hi : root.query (String.ofList content) = .ok i) (hu : i.Picks m u) :
      Follows root v (.bracketed w content) u

/-- The values that are met along tokens, the one at the start among them. -/
inductive Chain (root : Json) : List Token → List Json → Prop where
  | stop (v : Json) : Chain root [] [v]
  | step {v u : Json} {t : Token} {ts : List Token} {us : List Json} (h : Follows root v t u)
      (hrest : Chain root ts (u :: us)) : Chain root (t :: ts) (v :: u :: us)

section Unique

variable {root v m u u' index : Json} {name : String}

theorem Owns.unique (h : v.Owns name u) (h' : v.Owns name u') (hv : v.Countable) : u = u' := by
  rw [← member?_eq_some_iff hv] at h h'
  exact Option.some.inj (h.symm.trans h')

theorem Picks.unique (h : index.Picks m u) (h' : index.Picks m u') (hm : m.Countable) :
    u = u' := by
  rw [← select?_eq_some_iff hm] at h h'
  exact Option.some.inj (h.symm.trans h')

theorem Follows.countable {t : Token} (h : Follows root v t u) (hv : v.Countable) : u.Countable := by
  cases h with
  | word hm => exact hm.countable hv
  | bracketed hm _ hu => exact hu.countable (hm.countable hv)

theorem Follows.unique {t : Token} (h : Follows root v t u) (h' : Follows root v t u')
    (hv : v.Countable) : u = u' := by
  cases h with
  | word hm =>
    cases h' with
    | word hm' => exact hm.unique hm' hv
  | bracketed hm hi hu =>
    cases h' with
    | bracketed hm' hi' hu' =>
      obtain rfl := hm.unique hm' hv
      obtain rfl := Except.ok.inj (hi.symm.trans hi')
      exact hu.unique hu' (hm.countable hv)

theorem Chain.unique {ts : List Token} {us us' : List Json} (h : Chain root ts (v :: us))
    (h' : Chain root ts (v :: us')) (hv : v.Countable) : us = us' := by
  induction ts generalizing v us us' with
  | nil =>
    cases h
    cases h'
    rfl
  | cons t ts ih =>
    cases h with
    | step hstep hrest =>
      cases h' with
      | step hstep' hrest' =>
        obtain rfl := hstep.unique hstep' hv
        rw [ih hrest hrest' (hstep.countable hv)]

end Unique

theorem query_eq_ok_iff {root i : Json} {s : String} {p : Path} (hp : Path.parse s = .ok p) :
    root.query s = .ok i ↔ Leads root root p i := by
  rw [query, hp, Logged.ok_bind, resolve_eq_ok_iff]

theorem leads_cons_iff {root v u : Json} {t : Token} {s : Segment} {rest : Path}
    (hv : v.Countable) (hs : t.Writes s) :
    Leads root v (s :: rest) u ↔ ∃ w, Follows root v t w ∧ Leads root w rest u := by
  cases hs with
  | word w =>
    constructor
    · intro h
      cases h with
      | bare hm hrest =>
        have howns := (member?_eq_some_iff hv).mp hm
        exact ⟨_, .word howns, hrest⟩
    · rintro ⟨m, hstep, hrest⟩
      cases hstep with
      | word hm =>
        apply Leads.bare ?_ hrest
        exact (member?_eq_some_iff hv).mpr hm
  | bracketed hindex =>
    constructor
    · intro h
      cases h with
      | indexed hm hi hw hrest =>
        have howns := (member?_eq_some_iff hv).mp hm
        have hi' := (query_eq_ok_iff hindex).mpr hi
        have hpicks := (select?_eq_some_iff (howns.countable hv)).mp hw
        exact ⟨_, .bracketed howns hi' hpicks, hrest⟩
    · rintro ⟨w, hstep, hrest⟩
      cases hstep with
      | bracketed hm hi hu =>
        have hi' := (query_eq_ok_iff hindex).mp hi
        have hw := (select?_eq_some_iff (hm.countable hv)).mpr hu
        apply Leads.indexed ?_ hi' hw hrest
        exact (member?_eq_some_iff hv).mpr hm

theorem leads_iff_chain {root v u : Json} {ts : List Token} {p : Path} (hv : v.Countable)
    (hp : List.Forall₂ Token.Writes ts p) :
    Leads root v p u ↔ ∃ us, Chain root ts (v :: us) ∧ (v :: us).getLast? = some u := by
  induction hp generalizing v with
  | nil =>
    constructor
    · intro h
      cases h
      exact ⟨[], .stop u, rfl⟩
    · rintro ⟨us, hchain, hlast⟩
      cases hchain
      rw [← Option.some.inj hlast]
      exact .here v
  | cons hs _ ih =>
    rw [leads_cons_iff hv hs]
    constructor
    · rintro ⟨w, hstep, hrest⟩
      obtain ⟨us, hchain, hlast⟩ := (ih (hstep.countable hv)).mp hrest
      exact ⟨w :: us, .step hstep hchain, hlast⟩
    · rintro ⟨us, hchain, hlast⟩
      cases hchain with
      | step hstep hrest =>
        refine ⟨_, hstep, ?_⟩
        apply (ih (hstep.countable hv)).mpr
        exact ⟨_, hrest, hlast⟩

end Json

/-- A path text is looked up along the chain of its tokens, of which there is at most one. -/
theorem query_eq_ok_iff_chain {root : Json} (hroot : root.Countable) {s : String} {p : Path}
    (hp : Path.parse s = .ok p) :
    List.Forall₂ Token.Writes (Token.scan s.toList) p ∧
    (∀ v, root.query s = .ok v ↔
      ∃ us, Json.Chain root (Token.scan s.toList) (root :: us) ∧
        (root :: us).getLast? = some v) ∧
    ∀ us us', Json.Chain root (Token.scan s.toList) (root :: us) →
      Json.Chain root (Token.scan s.toList) (root :: us') → us = us' := by
  have hwrites := writes_of_parse hp
  refine ⟨hwrites, ?_, ?_⟩
  · intro v
    rw [Json.query_eq_ok_iff hp, Json.leads_iff_chain hroot hwrites]
  · intro us us' h h'
    exact h.unique h' hroot

def oneAsDouble : Number :=
  .double ⟨false, ⟨0x10000000000000, 1022, by decide, by decide, Or.inl (by decide)⟩⟩

/-- Rows of a table, and the number of one of them. -/
def tableDocument : Json :=
  .object [("rows", .array [.string "a", .array [.string "b", .string "c"]]),
    ("at", .object [("row", .number oneAsDouble)])]

theorem query_table_eq_ok_of_chain :
    tableDocument.Countable ∧
      Path.parse "rows[at..row].0" =
        .ok [.indexed "rows" [.bare "at", .bare "row"], .bare "0"] ∧
      tableDocument.query "rows[at..row].0" = .ok (.string "b") := by
  have hroot : tableDocument.Countable := by
    simp [tableDocument, Json.countable_object_iff, Json.countable_array_iff,
      Json.countable_number, Json.countable_string, UInt64.size]
  have hp : Path.parse "rows[at..row].0" =
      .ok [.indexed "rows" [.bare "at", .bare "row"], .bare "0"] := by cbv
  have hscan : Token.scan "rows[at..row].0".toList =
      [.bracketed "rows".toList "at..row".toList, .word "0".toList] := by cbv
  have hindex : tableDocument.query "at..row" = .ok (.number oneAsDouble) := by cbv
  have hdenotes : (Json.number oneAsDouble).Denotes 1 := .number (by decide)
  have hrows : Json.Follows tableDocument tableDocument
      (.bracketed "rows".toList "at..row".toList) (.array [.string "b", .string "c"]) :=
    .bracketed (.member rfl) hindex (.item hdenotes rfl)
  have hfirst : Json.Follows tableDocument (.array [.string "b", .string "c"])
      (.word "0".toList) (.string "b") := .word (.item (k := 0) rfl)
  refine ⟨hroot, hp, ?_⟩
  apply ((query_eq_ok_iff_chain hroot hp).2.1 _).mpr
  rw [hscan]
  exact ⟨_, .step hrows (.step hfirst (.stop _)), rfl⟩

end DocPath
