import DocPath.CommandLine.Record
import DocPath.Proofs.Lookup.Failing

/-!
What is logged while a path is followed: the segments in reading order up to the lookup that finds
nothing, and then that lookup.
-/

namespace DocPath

namespace Record

/-- The record of a segment that is entered. -/
def entering (s : Segment) : Record :=
  ⟨.trace, "context_path::eval", "resolving element `" ++ s.render ++ "`"⟩

/-- The record of a lookup that finds nothing. -/
def failing (text : String) : Record := ⟨.debug, "context_path::eval", text⟩

end Record

theorem Path.map_name_flatten (p : Path) : p.flatten.map Segment.name = p.names := by
  match p with
  | [] => rfl
  | .bare n :: rest =>
    rw [flatten_cons, names_cons, List.map_append, map_name_flatten rest]
    rfl
  | .indexed n index :: rest =>
    rw [flatten_cons, names_cons, List.map_append, map_name_flatten rest, Segment.flatten]
    rw [List.map_cons, map_name_flatten index]
    rfl

namespace Lookup

theorem ofEvent_event_of_isName {p : Path} {l : Lookup p} (h : l.isName) :
    Record.ofEvent (l.event p) =
      Record.failing ("property `" ++ l.segment.name ++ "` not found while resolving `" ++
        (l.around p).render ++ "`") := by
  rw [event, if_pos h]
  rfl

theorem ofEvent_event_of_index {p : Path} {l : Lookup p} (h : l.isName = false) {name : String}
    {index : Path} (hs : l.segment = .indexed name index) :
    Record.ofEvent (l.event p) =
      Record.failing ("index from `" ++ index.render ++ "` not found under `" ++ name ++ "`") := by
  rw [event, h, hs]
  rfl

end Lookup

namespace Json

/-- The log records of following a path from the root. -/
def records (root : Json) (p : Path) : List Record := (root.walk p).events.map Record.ofEvent

variable {root v : Json} {p : Path}

theorem records_of_resolve (h : root.resolve p = .ok v) :
    root.records p = p.flatten.map Record.entering := by
  rw [records, walk, (resolve_eq_ok_iff.mp h).walkFrom_eq p, List.map_map]
  rfl

theorem FailsAt.records_eq {l : Lookup p} (h : root.FailsAt root l) :
    root.records p = l.entered.map Record.entering ++ [Record.ofEvent (l.event p)] := by
  rw [records, walk, h.walkFrom_eq p, List.map_append, List.map_map]
  rfl

end Json

/-- Following a path logs each of its segments in reading order. If it leads nowhere, the log stops
at one lookup, whose record comes last. -/
theorem records_follow_walk (root : Json) (p : Path) :
    p.flatten.map Segment.name = p.names ∧
    (∀ v, root.resolve p = .ok v → root.records p = p.flatten.map Record.entering) ∧
    ∀ e, root.resolve p = .error e → ∃ (l : Lookup p) (text : String),
      root.FailsAt root l ∧
      root.records p = l.entered.map Record.entering ++ [Record.failing text] ∧
      l.entered ≠ [] ∧ l.entered <+: p.flatten ∧ l.segment ∈ l.around p ∧
      (l.isName → l.entered.getLast? = some l.segment ∧
        text = "property `" ++ l.segment.name ++ "` not found while resolving `" ++
          (l.around p).render ++ "`" ∧
        e = .missing l.segment.name) ∧
      (l.isName = false → ∃ name index, l.segment = .indexed name index ∧
        l.segment.flatten <:+ l.entered ∧
        text = "index from `" ++ Path.render index ++ "` not found under `" ++ name ++ "`" ∧
        e = .missing l.segment.render) := by
  refine ⟨p.map_name_flatten, fun v h => Json.records_of_resolve h, ?_⟩
  intro e h
  obtain ⟨l, hl, rfl⟩ := Json.resolve_eq_error_iff.mp h
  have haround := l.segment_mem_around (List.suffix_refl p)
  cases hname : l.isName with
  | true =>
    have hrecords := hl.records_eq
    rw [Lookup.ofEvent_event_of_isName hname] at hrecords
    refine ⟨l, _, hl, hrecords, l.entered_ne_nil, l.entered_prefix, haround, ?_, ?_⟩
    · intro _
      refine ⟨Lookup.getLast?_entered hname, rfl, ?_⟩
      rw [Lookup.reported, if_pos hname]
    · intro hfalse
      rw [hname] at hfalse
      contradiction
  | false =>
    obtain ⟨name, index, hs⟩ := Lookup.exists_segment_eq_indexed hname
    have hrecords := hl.records_eq
    rw [Lookup.ofEvent_event_of_index hname hs] at hrecords
    refine ⟨l, _, hl, hrecords, l.entered_ne_nil, l.entered_prefix, haround, ?_, ?_⟩
    · intro htrue
      rw [hname] at htrue
      contradiction
    · intro _
      refine ⟨name, index, hs, Lookup.flatten_segment_suffix hname, rfl, ?_⟩
      rw [Lookup.reported, hname]
      rfl

theorem records_follow_walk_into_brackets :
    let root : Json := .object [("rows", .array [.null]), ("at", .object [])]
    let p : Path := [.indexed "rows" [.bare "at", .bare "row"], .bare "name"]
    root.resolve p = .error (.missing "row") ∧
      ∃ (reached : Path) (text : String),
        root.records p = reached.map Record.entering ++ [Record.failing text] ∧
        reached ≠ [] ∧ reached <+: p.flatten := by
  intro root p
  have h : root.resolve p = .error (.missing "row") := rfl
  obtain ⟨l, text, _, hrecords, hne, hprefix, _⟩ := (records_follow_walk root p).2.2 _ h
  exact ⟨h, l.entered, text, hrecords, hne, hprefix⟩

end DocPath
