import DocPath.Proofs.CommandLine.Output
import DocPath.Proofs.CommandLine.Verbosity
import DocPath.Proofs.Lookup.Log
import Mathlib

/-!
What a run logs: the input that is read, the segments that its paths enter, and the lookup that
finds nothing if the run fails because of that. The level picks from these records, and changes
nothing else that the run leaves.
-/

namespace DocPath

namespace Record

theorem shownAt_trace (r : Record) : r.shownAt .trace := by
  unfold shownAt
  cases r.level <;> decide

theorem shownAt_debug_iff (r : Record) : r.shownAt .debug ↔ r.level ≠ .trace := by
  unfold shownAt
  cases r.level <;> decide

theorem rank_lt_debug {level : Level} (hdebug : level ≠ .debug) (htrace : level ≠ .trace) :
    level.rank < Level.debug.rank := by
  cases level <;> first | decide | contradiction

theorem shownAt_eq_false {r : Record} {level : Level} (h : level.rank < Level.debug.rank)
    (hr : r.level = .debug ∨ r.level = .trace) : r.shownAt level = false := by
  have hrank : Level.debug.rank ≤ r.level.rank := by
    rcases hr with hr | hr
    · rw [hr]
    · rw [hr]
      decide
  unfold shownAt
  exact decide_eq_false (by omega)

/-- The records of a list that are shown at the debug level, if all are of that level. -/
theorem filter_debug {records : List Record} (h : ∀ r ∈ records, r.level = .debug) :
    records.filter (shownAt .debug) = records := by
  apply List.filter_eq_self.mpr
  intro r hr
  apply r.shownAt_debug_iff.mpr
  rw [h r hr]
  simp

theorem filter_debug_entering (p : Path) :
    (p.map entering).filter (shownAt .debug) = [] := by
  apply List.filter_eq_nil_iff.mpr
  intro r hr hshown
  obtain ⟨s, _, rfl⟩ := List.mem_map.mp hr
  exact (entering s).shownAt_debug_iff.mp hshown rfl

end Record

namespace Json

/-- The segments that are entered when a path text is looked up: all of a path that leads somewhere,
and those in front of the lookup that finds nothing. A text that is no path enters none. -/
inductive Enters (document : Json) : String → Path → Prop where
  | refused {text : String} {e : PathFailure} (h : Path.parse text = .error e) :
      Enters document text []
  | found {text : String} {p : Path} {v : Json} (hp : Path.parse text = .ok p)
      (hv : document.resolve p = .ok v) : Enters document text p.flatten
  | missing {text : String} {p : Path} {l : Lookup p} (hp : Path.parse text = .ok p)
      (hl : document.FailsAt document l) : Enters document text l.entered

/-- The paths up to the first one that fails, and that one. -/
def reached (document : Json) (texts : List String) : List String :=
  texts.take ((document.leading texts).length + 1)

section Reached

variable {document : Json} {text : String}

theorem reached_cons_of_ok {v : Json} (h : document.query text = .ok v) (rest : List String) :
    document.reached (text :: rest) = text :: document.reached rest := by
  rw [reached, leading_cons_of_ok h]
  rfl

theorem reached_cons_of_error {e : PathFailure} (h : document.query text = .error e)
    (rest : List String) : document.reached (text :: rest) = [text] := by
  rw [reached, leading_cons_of_error h]
  rfl

end Reached

end Json

/-- Whatever lookup finds nothing, there is one record of it. -/
theorem Lookup.exists_failing {p : Path} (l : Lookup p) :
    ∃ message, Record.ofEvent (l.event p) = Record.failing message := by
  unfold event
  split <;> exact ⟨_, rfl⟩

namespace Run

/-- The records that are shown at a level. -/
def log (run : Run) (level : Level) : List Record := run.records.filter (Record.shownAt level)

/-- The bytes of the input are a text that is read as a document, and that is not null. -/
def Holds (read : Json.Reader) (input : Except ReadFailure ByteArray) (document : Json) : Prop :=
  ∃ text : String, input = .ok text.toUTF8 ∧ read text = .ok document ∧ document ≠ .null

/-- The input is recorded with the number of its bytes if it is a text. -/
inductive ReadRecords (input : Except ReadFailure ByteArray) : List Record → Prop where
  | text {text : String} (h : input = .ok text.toUTF8) :
      ReadRecords input [⟨.debug, "context_path",
        "read " ++ toString text.toUTF8.size ++ " bytes of JSON input"⟩]
  | none (h : ∀ text : String, input ≠ .ok text.toUTF8) : ReadRecords input []

/-- The segments that the paths of an invocation enter, path by path. -/
inductive EnteredPaths (read : Json.Reader) (i : Invocation)
    (input : Except ReadFailure ByteArray) : List Path → Prop where
  | document {document : Json} {entered : List Path} (h : Holds read input document)
      (hentered : List.Forall₂ document.Enters (document.reached i.paths) entered) :
      EnteredPaths read i input entered
  | none (h : ∀ document, ¬Holds read input document) : EnteredPaths read i input []

/-- A lookup that finds nothing is recorded once, and no other failure is. -/
inductive MissRecords (failure : Option RunFailure) : List Record → Prop where
  | missing {x : String} (h : failure = some (.path (.missing x))) (text : String) :
      MissRecords failure [Record.failing text]
  | none (h : ∀ x, failure ≠ some (.path (.missing x))) : MissRecords failure []

theorem ReadRecords.level_eq {input : Except ReadFailure ByteArray} {read : List Record}
    (h : ReadRecords input read) : ∀ r ∈ read, r.level = .debug := by
  intro r hr
  cases h with
  | text h =>
    obtain rfl := List.mem_singleton.mp hr
    rfl
  | none h => exact absurd hr List.not_mem_nil

theorem MissRecords.level_eq {failure : Option RunFailure} {missed : List Record}
    (h : MissRecords failure missed) : ∀ r ∈ missed, r.level = .debug := by
  intro r hr
  cases h with
  | missing h text =>
    obtain rfl := List.mem_singleton.mp hr
    rfl
  | none h => exact absurd hr List.not_mem_nil

section Answer

variable {document : Json} {text : String}

theorem trace_events_of_parse_error {e : PathFailure} (h : Path.parse text = .error e) :
    (document.trace text).events = [] := by
  rw [Json.trace, h]
  rfl

theorem trace_events_of_parse_ok {p : Path} (h : Path.parse text = .ok p) :
    (document.trace text).events.map Record.ofEvent = document.records p := by
  rw [Json.trace, h]
  rfl

theorem exists_enters_of_ok {v : Json} (h : document.query text = .ok v) :
    ∃ entered, document.Enters text entered ∧
      (document.trace text).events.map Record.ofEvent = entered.map Record.entering := by
  cases hp : Path.parse text with
  | error e =>
    rw [Json.query_of_parse_error hp] at h
    contradiction
  | ok p =>
    rw [Json.query_of_parse_ok hp] at h
    refine ⟨p.flatten, .found hp h, ?_⟩
    rw [trace_events_of_parse_ok hp, Json.records_of_resolve h]

theorem exists_enters_of_error {e : PathFailure} (h : document.query text = .error e) :
    ∃ entered missed, document.Enters text entered ∧ MissRecords (some (.path e)) missed ∧
      (document.trace text).events.map Record.ofEvent =
        entered.map Record.entering ++ missed := by
  cases hp : Path.parse text with
  | error e' =>
    rw [Json.query_of_parse_error hp] at h
    obtain rfl := Except.error.inj h
    have hnot : ∀ x, some (RunFailure.path e') ≠ some (.path (.missing x)) := by
      intro x hx
      rcases parse_failures hp with rfl | ⟨_, rfl⟩ <;> simp at hx
    refine ⟨[], [], .refused hp, .none hnot, ?_⟩
    rw [trace_events_of_parse_error hp]
    rfl
  | ok p =>
    rw [Json.query_of_parse_ok hp] at h
    obtain ⟨l, hl, rfl⟩ := Json.resolve_eq_error_iff.mp h
    obtain ⟨message, hmessage⟩ := l.exists_failing
    refine ⟨l.entered, [Record.failing message], .missing hp hl, .missing rfl message, ?_⟩
    rw [trace_events_of_parse_ok hp, hl.records_eq, hmessage]

theorem answer_records (print : Json → String) (document : Json) (texts : List String) :
    ∃ entered missed, List.Forall₂ document.Enters (document.reached texts) entered ∧
      MissRecords (answer print document texts).failure missed ∧
      (answer print document texts).records =
        entered.flatten.map Record.entering ++ missed := by
  induction texts with
  | nil => exact ⟨[], [], .nil, .none (by simp [answer]), rfl⟩
  | cons text rest ih =>
    cases hq : document.query text with
    | error e =>
      obtain ⟨entered, missed, henters, hmissed, hrecords⟩ := exists_enters_of_error hq
      rw [Json.reached_cons_of_error hq, answer_cons_of_error hq]
      refine ⟨[entered], missed, .cons henters .nil, hmissed, ?_⟩
      rw [hrecords, List.flatten_singleton]
    | ok v =>
      obtain ⟨entered, henters, hrecords⟩ := exists_enters_of_ok hq
      obtain ⟨more, missed, hmore, hmissed, hrest⟩ := ih
      rw [Json.reached_cons_of_ok hq, answer_cons_of_ok hq]
      refine ⟨entered :: more, missed, .cons henters hmore, hmissed, ?_⟩
      simp only [hrecords, hrest, List.flatten_cons, List.map_append, List.append_assoc]

end Answer

section Input

variable {read : Json.Reader} {input : Except ReadFailure ByteArray} {text : String}
  {document : Json}

theorem holds_iff (hinput : input.bind decode = .ok text) :
    Holds read input document ↔ read text = .ok document ∧ document ≠ .null := by
  constructor
  · rintro ⟨text', htext', hdocument⟩
    have hsame := (bind_decode_eq_ok_iff.mpr htext').symm.trans hinput
    rwa [Except.ok.inj hsame] at hdocument
  · rintro hdocument
    exact ⟨text, bind_decode_eq_ok_iff.mp hinput, hdocument⟩

theorem ne_text_of_error {e : ReadFailure} (hinput : input.bind decode = .error e)
    (text : String) : input ≠ .ok text.toUTF8 := by
  intro htext
  rw [bind_decode_eq_ok_iff.mpr htext] at hinput
  contradiction

/-- The records of a run are that of its input, those of its paths, and that of the lookup that
finds nothing, in this order. -/
theorem ofInput_records (read : Json.Reader) (i : Invocation)
    (input : Except ReadFailure ByteArray) :
    ∃ first entered missed, ReadRecords input first ∧ EnteredPaths read i input entered ∧
      MissRecords (ofInput read i input).failure missed ∧
      (ofInput read i input).records =
        first ++ (entered.flatten.map Record.entering ++ missed) := by
  cases hinput : input.bind decode with
  | error e =>
    have hnot := ne_text_of_error hinput
    have hnone : ∀ document, ¬Holds read input document := by
      rintro document ⟨text, htext, _⟩
      exact hnot text htext
    rw [ofInput_of_unreadable i hinput]
    exact ⟨[], [], [], .none hnot, .none hnone, .none (by simp), rfl⟩
  | ok text =>
    have hfirst : ReadRecords input [Record.inputRead text.utf8ByteSize] :=
      .text (bind_decode_eq_ok_iff.mp hinput)
    by_cases hholds : ∃ document, Holds read input document
    · obtain ⟨document, hdocument⟩ := hholds
      obtain ⟨hjson, hnull⟩ := (holds_iff hinput).mp hdocument
      obtain ⟨entered, missed, hentered, hmissed, hrecords⟩ := answer_records
        (if i.pretty then Json.pretty else Json.compact) document i.paths
      rw [ofInput_of_document i hinput hjson hnull]
      refine ⟨_, entered, missed, hfirst, .document hdocument hentered, hmissed, ?_⟩
      simp only [hrecords, List.singleton_append]
    · have hnone := not_exists.mp hholds
      cases hjson : read text with
      | error cause =>
        rw [ofInput_of_notJson i hinput hjson]
        exact ⟨_, [], [], hfirst, .none hnone, .none (by simp), rfl⟩
      | ok document =>
        by_cases hnull : document = .null
        · rw [hnull] at hjson
          rw [ofInput_of_null i hinput hjson]
          exact ⟨_, [], [], hfirst, .none hnone, .none (by simp), rfl⟩
        · exact absurd ((holds_iff hinput).mpr ⟨hjson, hnull⟩) (hnone document)

end Input

section Log

variable (run : Run)

theorem log_trace : run.log .trace = run.records := by
  unfold log
  rw [List.filter_eq_self]
  exact fun r _ => r.shownAt_trace

/-- The records at the debug level are those at the trace level without the ones of that level. -/
theorem log_debug :
    run.log .debug = (run.log .trace).filter fun r => r.level ≠ .trace := by
  rw [log_trace, log]
  apply List.filter_congr
  intro r _
  rw [Bool.eq_iff_iff, r.shownAt_debug_iff, decide_eq_true_iff]

theorem log_eq_nil {level : Level} (hdebug : level ≠ .debug) (htrace : level ≠ .trace)
    (h : ∀ r ∈ run.records, r.level = .debug ∨ r.level = .trace) : run.log level = [] := by
  apply List.filter_eq_nil_iff.mpr
  intro r hr
  rw [Record.shownAt_eq_false (Record.rank_lt_debug hdebug htrace) (h r hr)]
  simp

end Log

/-- What a run shows of its log at every level: `first` for its input, then the segments `entered`
on its paths, then `missed` for the lookup that finds nothing. -/
structure Logs (read : Json.Reader) (i : Invocation) (input : Except ReadFailure ByteArray)
    (run : Run) (first : List Record) (entered : List Path) (missed : List Record) : Prop where
  ofInput : ReadRecords input first
  ofPaths : EnteredPaths read i input entered
  ofFailure : MissRecords run.failure missed
  atTrace : run.log .trace = first ++ (entered.flatten.map Record.entering ++ missed)
  atDebug : run.log .debug = first ++ missed
  withoutTrace : ((run.log .trace).filter fun r => r.level ≠ .trace) = run.log .debug
  belowDebug : ∀ level, level ≠ .debug → level ≠ .trace → run.log level = []

section Runs

variable (read : Json.Reader) (i : Invocation) (input : Except ReadFailure ByteArray)

theorem exists_logs :
    ∃ first entered missed, Logs read i input (ofInput read i input) first entered missed := by
  obtain ⟨first, entered, missed, hfirst, hentered, hmissed, hrecords⟩ :=
    ofInput_records read i input
  have htrace := (ofInput read i input).log_trace.trans hrecords
  refine ⟨first, entered, missed, hfirst, hentered, hmissed, htrace, ?_, ?_, ?_⟩
  · unfold log
    rw [hrecords, List.filter_append, List.filter_append, Record.filter_debug_entering]
    rw [Record.filter_debug hfirst.level_eq, Record.filter_debug hmissed.level_eq]
    rfl
  · exact (ofInput read i input).log_debug.symm
  · intro level hdebug hlevel
    apply log_eq_nil _ hdebug hlevel
    intro r hr
    rw [hrecords] at hr
    rcases List.mem_append.mp hr with hr | hr
    · exact Or.inl (hfirst.level_eq r hr)
    · rcases List.mem_append.mp hr with hr | hr
      · obtain ⟨s, _, rfl⟩ := List.mem_map.mp hr
        exact Or.inr rfl
      · exact Or.inl (hmissed.level_eq r hr)

theorem ofInput_quiet : ofInput read i.quiet input = ofInput read i input := rfl

/-- The log of a run is all that depends on how much is to be logged. -/
theorem logging_changes_nothing_else :
    (∀ flag before after, IsVerboseFlag flag → "--" ∉ before →
      Request.ofArguments (before ++ flag :: after) = .run i →
        Request.ofArguments (before ++ after) = .run i.quiet) ∧
    (∀ j, j.quiet = i.quiet → ∀ named? time,
      (ofInput read j input).output = (ofInput read i input).output ∧
      (ofInput read j input).status = (ofInput read i input).status ∧
      (ofInput read j input).errorOutput time (level j named?) =
        ((ofInput read i input).log (named?.getD (if j.verbose then .debug else .warn))).map
            (Record.line time) ++
          ((ofInput read i input).failure.map RunFailure.report).toList) ∧
    ∃ first entered missed, Logs read i input (ofInput read i input) first entered missed := by
  refine ⟨?_, ?_, exists_logs read i input⟩
  · intro flag before after hflag hbefore h
    exact ofArguments_append_flag hflag hbefore h
  · intro j hj named? time
    have hsame : ofInput read j input = ofInput read i input := by
      rw [← ofInput_quiet read j, hj, ofInput_quiet read i]
    rw [hsame]
    exact ⟨rfl, rfl, rfl⟩

end Runs

/-- The path that is not there is logged once, and the one behind it is not even read. -/
theorem logging_changes_nothing_else_on_missing_member :
    let read := Json.reader fun _ => "expected value at line 1 column 1"
    let i : Invocation := ⟨none, false, true, [".", "gone", "a[1]"]⟩
    let input : Except ReadFailure ByteArray := .ok "\"é\"".toUTF8
    let first : Record := ⟨.debug, "context_path", "read 4 bytes of JSON input"⟩
    Request.ofArguments (["."] ++ "-v" :: ["gone", "a[1]"]) = .run i ∧
      Request.ofArguments ([".", "gone", "a[1]"]) = .run i.quiet ∧
      (ofInput read i.quiet input).output = (ofInput read i input).output ∧
      (ofInput read i.quiet input).status = (ofInput read i input).status ∧
      ∃ (entered : Path) (message : String),
        (ofInput read i input).log .trace =
          first :: (entered.map Record.entering ++ [Record.failing message]) ∧
        (ofInput read i input).log .debug = [first, Record.failing message] := by
  intro read i input first
  let document : Json := .string "é"
  have hflagged : Request.ofArguments (["."] ++ "-v" :: ["gone", "a[1]"]) = .run i := by cbv
  have hinput : input.bind decode = .ok "\"é\"" := bind_decode_eq_ok_iff.mpr rfl
  have hchars : "\"é\"".toList = ['"', 'é', '"'] := by simp
  have hjson : Json.read? "\"é\"" = some document := by
    rw [Json.read?_of_scalar]
    · cbv
    · simp [hchars, Json.skipBlanks, Json.isBlank]
    · simp [hchars, Json.skipBlanks, Json.isBlank]
  have hread : read "\"é\"" = .ok document := by simp only [read, Json.reader, hjson]
  have hnull : document ≠ .null := by simp [document]
  have hpoint : document.query "." = .ok document := by cbv
  have hgone : document.query "gone" = .error (.missing "gone") := by cbv
  have hfailure : (ofInput read i input).failure = some (.path (.missing "gone")) := by
    rw [ofInput_of_document i hinput hread hnull]
    rw [answer_cons_of_ok hpoint, answer_cons_of_error hgone]
  obtain ⟨hflags, hruns, records, entered, missed, hlogs⟩ :=
    logging_changes_nothing_else read i input
  have hquiet := hflags "-v" ["."] ["gone", "a[1]"] (Or.inl rfl) (by simp) hflagged
  obtain ⟨houtput, hstatus, _⟩ := hruns i.quiet rfl none ""
  have hfirst : records = [first] := by
    cases hlogs.ofInput with
    | text h =>
      have hsame := (bind_decode_eq_ok_iff.mpr h).symm.trans hinput
      rw [Except.ok.inj hsame]
      rfl
    | none h => exact absurd rfl (h _)
  obtain ⟨message, hmissed⟩ : ∃ message, missed = [Record.failing message] := by
    cases hlogs.ofFailure with
    | missing _ message => exact ⟨message, rfl⟩
    | none h => exact absurd hfailure (h _)
  refine ⟨hflagged, hquiet, houtput, hstatus, entered.flatten, message, ?_, ?_⟩
  · rw [hlogs.atTrace, hfirst, hmissed]
    rfl
  · rw [hlogs.atDebug, hfirst, hmissed]
    rfl

end Run

end DocPath
