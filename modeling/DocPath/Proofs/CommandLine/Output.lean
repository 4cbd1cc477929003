import DocPath.CommandLine.Run
import DocPath.Proofs.Json.Indented
import DocPath.Proofs.Json.Lines
import DocPath.Proofs.Lookup.Precedence
import Mathlib

/-!
What a run prints, whatever reader it has. It prints the values of the paths in front of the first
one that fails, each on a line, and reports that one. Without a document that is not null it prints
nothing.
-/

namespace DocPath

theorem decode_eq_ok_iff {bytes : ByteArray} {text : String} :
    decode bytes = .ok text ↔ bytes = text.toUTF8 := by
  unfold decode String.fromUTF8?
  by_cases h : bytes.IsValidUTF8
  · rw [dif_pos h, Except.ok.injEq, ← String.toByteArray_inj]
    rfl
  · rw [dif_neg h]
    constructor
    · intro herror
      contradiction
    · rintro rfl
      exact absurd text.isValidUTF8 h

/-- Bytes that are no text are refused. -/
theorem decode_eq_error_of_not_text {bytes : ByteArray}
    (h : ∀ text : String, bytes ≠ text.toUTF8) : decode bytes = .error .notText := by
  cases hdecode : decode bytes with
  | ok text => exact absurd (decode_eq_ok_iff.mp hdecode) (h text)
  | error e =>
    unfold decode at hdecode
    split at hdecode
    · contradiction
    · exact hdecode.symm

theorem bind_decode_eq_ok_iff {input : Except ReadFailure ByteArray} {text : String} :
    input.bind decode = .ok text ↔ input = .ok text.toUTF8 := by
  cases input with
  | error e =>
    constructor
    · intro h
      contradiction
    · intro h
      contradiction
  | ok bytes =>
    rw [Except.ok.injEq, ← decode_eq_ok_iff]
    rfl

/-- Texts with a line break behind each. -/
def lines (texts : List String) : String := String.join (texts.map (· ++ "\n"))

section Lines

theorem toList_lines_cons (text : String) (texts : List String) :
    (lines (text :: texts)).toList = text.toList ++ '\n' :: (lines texts).toList := by
  simp [lines]

variable {texts : List String}

theorem splitOn_lines (h : ∀ t ∈ texts, OneLine t) :
    (lines texts).toList.splitOn '\n' = texts.map String.toList ++ [[]] := by
  induction texts with
  | nil => rfl
  | cons text texts ih =>
    obtain ⟨htext, hrest⟩ := List.forall_mem_cons.mp h
    have hnot : ∀ c ∈ text.toList, (c == '\n') = false := by
      intro c hc
      rw [beq_eq_false_iff_ne]
      rintro rfl
      exact htext hc
    have hsplit := List.splitOnP_append_cons_of_forall_mem hnot '\n' (by simp)
      (lines texts).toList
    rw [toList_lines_cons, List.splitOn_eq_splitOnP, hsplit, ← List.splitOn_eq_splitOnP, ih hrest]
    rfl

theorem count_lines (h : ∀ t ∈ texts, OneLine t) :
    (lines texts).toList.count '\n' = texts.length := by
  induction texts with
  | nil => rfl
  | cons text texts ih =>
    obtain ⟨htext, hrest⟩ := List.forall_mem_cons.mp h
    rw [toList_lines_cons, List.count_append, List.count_cons_self, ih hrest]
    rw [List.count_eq_zero_of_not_mem htext, List.length_cons, Nat.zero_add]

theorem squeezes_lines {print : Json → String} (h : ∀ v, Json.Squeezes (print v) v.compact)
    (values : List Json) :
    Json.Squeezes (lines (values.map print)) (String.join (values.map Json.compact)) := by
  induction values with
  | nil => exact fun _ => rfl
  | cons v values ih =>
    have hbreak : Json.Squeezes "\n" "" := fun _ => rfl
    have hall := ((h v).append hbreak).append ih
    rw [String.append_empty] at hall
    simpa [lines] using hall

end Lines

namespace Json

/-- The paths in front of the first one that fails. -/
def leading (document : Json) (texts : List String) : List String :=
  texts.takeWhile fun text => (document.query text).isOk

/-- The paths lead to the values, one by one. -/
def Finds (document : Json) (texts : List String) (values : List Json) : Prop :=
  List.Forall₂ (fun text v => document.query text = .ok v) texts values

section Leading

variable {document : Json} {text : String}

theorem leading_cons_of_ok {v : Json} (h : document.query text = .ok v) (rest : List String) :
    document.leading (text :: rest) = text :: document.leading rest := by
  rw [leading, List.takeWhile_cons, h]
  rfl

theorem leading_cons_of_error {e : PathFailure} (h : document.query text = .error e)
    (rest : List String) : document.leading (text :: rest) = [] := by
  rw [leading, List.takeWhile_cons, h]
  rfl

end Leading

end Json

namespace Run

variable {print : Json → String} {document : Json} {text : String} {rest : List String}

theorem answer_cons_of_ok {v : Json} (h : document.query text = .ok v) :
    answer print document (text :: rest) =
      ⟨print v ++ "\n" ++ (answer print document rest).output,
        (document.trace text).events.map Record.ofEvent ++ (answer print document rest).records,
        (answer print document rest).failure⟩ := by
  rw [answer, Json.outcome_trace, h]

theorem answer_cons_of_error {e : PathFailure} (h : document.query text = .error e) :
    answer print document (text :: rest) =
      ⟨"", (document.trace text).events.map Record.ofEvent, some (.path e)⟩ := by
  rw [answer, Json.outcome_trace, h]

/-- All paths lead somewhere and the run does not fail, or one of them fails behind the leading ones
and the run fails as it does. -/
def EndsAt (document : Json) (texts : List String) (failure : Option RunFailure) : Prop :=
  (document.leading texts = texts ∧ failure = none) ∨
    ∃ text rest e, texts = document.leading texts ++ text :: rest ∧
      document.query text = .error e ∧ failure = some (.path e)

theorem answer_leading (print : Json → String) (document : Json) (texts : List String) :
    ∃ values, document.Finds (document.leading texts) values ∧
      (answer print document texts).output = lines (values.map print) ∧
      EndsAt document texts (answer print document texts).failure := by
  induction texts with
  | nil => exact ⟨[], .nil, rfl, Or.inl ⟨rfl, rfl⟩⟩
  | cons text rest ih =>
    cases hq : document.query text with
    | error e =>
      rw [Json.leading_cons_of_error hq, answer_cons_of_error hq]
      refine ⟨[], .nil, rfl, Or.inr ⟨text, rest, e, ?_, hq, rfl⟩⟩
      rw [Json.leading_cons_of_error hq, List.nil_append]
    | ok v =>
      obtain ⟨values, hvalues, houtput, hends⟩ := ih
      rw [Json.leading_cons_of_ok hq, answer_cons_of_ok hq]
      refine ⟨v :: values, .cons hq hvalues, ?_, ?_⟩
      · simp [houtput, lines]
      · unfold EndsAt
        rw [Json.leading_cons_of_ok hq]
        rcases hends with ⟨hall, hnone⟩ | ⟨text', rest', e, hsplit, he, hfailure⟩
        · exact Or.inl ⟨by rw [hall], hnone⟩
        · refine Or.inr ⟨text', rest', e, ?_, he, hfailure⟩
          rw [List.cons_append, ← hsplit]

/-- The paths behind one that fails do not change the run. -/
theorem answer_append_of_error (print : Json → String) {e : PathFailure}
    (h : document.query text = .error e) (texts rest others : List String) :
    answer print document (texts ++ text :: others) =
      answer print document (texts ++ text :: rest) := by
  induction texts with
  | nil => rw [List.nil_append, List.nil_append, answer_cons_of_error h, answer_cons_of_error h]
  | cons first texts ih =>
    rw [List.cons_append, List.cons_append]
    cases hq : document.query first with
    | error e => rw [answer_cons_of_error hq, answer_cons_of_error hq]
    | ok v => rw [answer_cons_of_ok hq, answer_cons_of_ok hq, ih]

/-- Besides the log a run writes these lines to the error output. -/
def Reports (run : Run) (reports : List String) : Prop :=
  ∀ time level, ∃ log, (∀ line ∈ log, ∃ r ∈ run.records, line = r.line time) ∧
    run.errorOutput time level = log ++ reports

theorem reports_of_failure {run : Run} {failure : Option RunFailure}
    (h : run.failure = failure) : run.Reports (failure.map RunFailure.report).toList := by
  intro time level
  refine ⟨(run.records.filter (Record.shownAt level)).map (Record.line time), ?_, ?_⟩
  · intro line hline
    obtain ⟨r, hr, rfl⟩ := List.mem_map.mp hline
    exact ⟨r, (List.mem_filter.mp hr).1, rfl⟩
  · rw [errorOutput, h]

theorem status_of_failure {run : Run} {failure : Option RunFailure} (h : run.failure = failure) :
    run.status = if failure.isSome then 1 else 0 := by
  rw [status, h]

/-- A run that prints nothing and reports why. -/
structure Refused (run : Run) (report : String) : Prop where
  output : run.output = ""
  status : run.status = 1
  reports : run.Reports [report]

theorem refused_of_failure {run : Run} (failure : RunFailure) (houtput : run.output = "")
    (hfailure : run.failure = some failure) : run.Refused failure.report where
  output := houtput
  status := status_of_failure hfailure
  reports := reports_of_failure hfailure

section Input

variable {read : Json.Reader} (i : Invocation) {input : Except ReadFailure ByteArray}

/-- The run on a text that is a document prints and reports what the paths of the invocation ask
for. -/
theorem ofInput_of_document (hinput : input.bind decode = .ok text)
    (hread : read text = .ok document) (hnull : document ≠ .null) :
    let answered := answer (if i.pretty then Json.pretty else Json.compact) document i.paths
    ofInput read i input = { answered with
      records := Record.inputRead text.utf8ByteSize :: answered.records } := by
  have hnot : document.isNull = false := by
    rw [← Bool.not_eq_true]
    exact fun h => hnull (Json.isNull_iff.mp h)
  rw [ofInput, hinput]
  simp only [onText, hread, hnot]
  rfl

theorem ofInput_of_unreadable {e : ReadFailure} (hinput : input.bind decode = .error e) :
    ofInput read i input = ⟨"", [], some (.unreadable (i.input.getD "stdin") e)⟩ := by
  rw [ofInput, hinput]

theorem ofInput_of_notJson {cause : String} (hinput : input.bind decode = .ok text)
    (hread : read text = .error cause) :
    ofInput read i input =
      ⟨"", [Record.inputRead text.utf8ByteSize], some (.notJson cause)⟩ := by
  rw [ofInput, hinput]
  simp only [onText, hread]

theorem ofInput_of_null (hinput : input.bind decode = .ok text)
    (hread : read text = .ok .null) :
    ofInput read i input =
      ⟨"", [Record.inputRead text.utf8ByteSize], some (.path .nullDocument)⟩ := by
  rw [ofInput, hinput]
  simp only [onText, hread]
  rfl

theorem refused_of_unreadable {e : ReadFailure} (hinput : input.bind decode = .error e) :
    (ofInput read i input).Refused
      ("error: failed to read " ++ i.input.getD "stdin" ++ ": " ++ e.message) := by
  rw [ofInput_of_unreadable i hinput]
  exact refused_of_failure (.unreadable _ e) rfl rfl

theorem refused_of_notJson {cause : String} (hinput : input.bind decode = .ok text)
    (hread : read text = .error cause) :
    (ofInput read i input).Refused ("error: input is not valid JSON: " ++ cause) := by
  rw [ofInput_of_notJson i hinput hread]
  exact refused_of_failure (.notJson cause) rfl rfl

theorem refused_of_null (hinput : input.bind decode = .ok text)
    (hread : read text = .ok .null) :
    (ofInput read i input).Refused "error[EmptyContext]: Context is empty" := by
  rw [ofInput_of_null i hinput hread]
  exact refused_of_failure (.path .nullDocument) rfl rfl

end Input

/-- What a run on a document prints and reports: the values of the leading paths, and then the
failure of the path behind them, if there is one. -/
structure Answers (document : Json) (i : Invocation) (run : Run) (values : List Json) : Prop where
  finds : document.Finds (document.leading i.paths) values
  output : run.output = lines (values.map (if i.pretty then Json.pretty else Json.compact))
  ends : (document.leading i.paths = i.paths ∧ run.status = 0 ∧ run.Reports []) ∨
    ∃ text rest e, i.paths = document.leading i.paths ++ text :: rest ∧
      document.query text = .error e ∧ run.status = 1 ∧
      run.Reports ["error[" ++ e.kind ++ "]: " ++ e.message]

theorem exists_answers {read : Json.Reader} (i : Invocation)
    {input : Except ReadFailure ByteArray} (hinput : input.bind decode = .ok text)
    (hread : read text = .ok document) (hnull : document ≠ .null) :
    ∃ values, Answers document i (ofInput read i input) values := by
  let print := if i.pretty then Json.pretty else Json.compact
  obtain ⟨values, hvalues, houtput, hends⟩ := answer_leading print document i.paths
  have hrun := ofInput_of_document i hinput hread hnull
  have hsame : (ofInput read i input).failure = (answer print document i.paths).failure := by
    rw [hrun]
  refine ⟨values, hvalues, ?_, ?_⟩
  · rw [hrun]
    exact houtput
  · rcases hends with ⟨hall, hnone⟩ | ⟨text, rest, e, hsplit, he, hfailure⟩
    · have hnone' := hsame.trans hnone
      exact Or.inl ⟨hall, status_of_failure hnone', reports_of_failure hnone'⟩
    · have hfailure' := hsame.trans hfailure
      exact Or.inr
        ⟨text, rest, e, hsplit, he, status_of_failure hfailure', reports_of_failure hfailure'⟩

namespace Answers

variable {i : Invocation} {run : Run} {values : List Json} (h : Answers document i run values)
include h

theorem fails (hsplit : i.paths = document.leading i.paths ++ text :: rest) :
    ∃ e, document.query text = .error e ∧ run.status = 1 ∧
      run.Reports ["error[" ++ e.kind ++ "]: " ++ e.message] := by
  rcases h.ends with ⟨hall, _⟩ | ⟨text', rest', e, hsplit', hfails⟩
  · rw [hall] at hsplit
    simp at hsplit
  · have hsame := List.append_cancel_left (hsplit.symm.trans hsplit')
    obtain ⟨rfl, _⟩ := List.cons.inj hsame
    exact ⟨e, hfails⟩

/-- Without the blanks between the parts of documents both forms are one text. -/
theorem squeeze_output :
    Json.squeeze run.output.toList = (String.join (values.map Json.compact)).toList := by
  rw [h.output]
  apply (squeezes_lines _ values).eq
  split
  · exact Json.squeezes_pretty
  · exact Json.squeezes_compact

/-- In one-line form each line is a value. -/
theorem lines_output (hcompact : i.pretty = false) :
    run.output.toList.count '\n' = (document.leading i.paths).length ∧
      run.output.toList.splitOn '\n' = values.map (fun v => v.compact.toList) ++ [[]] := by
  have houtput : run.output = lines (values.map Json.compact) := by
    rw [h.output, hcompact]
    rfl
  have hlines : ∀ t ∈ values.map Json.compact, OneLine t := by
    intro t ht
    obtain ⟨v, _, rfl⟩ := List.mem_map.mp ht
    exact v.oneLine_compact
  rw [houtput, count_lines hlines, splitOn_lines hlines, List.length_map, List.map_map]
  exact ⟨h.finds.length_eq.symm, rfl⟩

end Answers

/-- A run without a document prints nothing. A run on a document prints the values of its paths up
to the first one that fails, and no path behind that one matters; in one-line form each value is one
line, and the indented form differs from it in blanks alone. -/
theorem output_up_to_first_failure (read : Json.Reader) (i : Invocation)
    (input : Except ReadFailure ByteArray) :
    (∀ e, input = .error e → (ofInput read i input).Refused
      ("error: failed to read " ++ i.input.getD "stdin" ++ ": " ++ e.message)) ∧
    (∀ bytes, input = .ok bytes → (∀ text : String, bytes ≠ text.toUTF8) →
      (ofInput read i input).Refused ("error: failed to read " ++ i.input.getD "stdin" ++ ": " ++
        "stream did not contain valid UTF-8")) ∧
    ∀ text : String, input = .ok text.toUTF8 →
      (∀ cause, read text = .error cause → (ofInput read i input).Refused
        ("error: input is not valid JSON: " ++ cause)) ∧
      (read text = .ok .null →
        (ofInput read i input).Refused "error[EmptyContext]: Context is empty") ∧
      ∀ document, read text = .ok document → document ≠ .null →
        ∃ values, Answers document i (ofInput read i input) values ∧
          (∀ path rest others, i.paths = document.leading i.paths ++ path :: rest →
            ofInput read { i with paths := document.leading i.paths ++ path :: others } input =
              ofInput read i input) ∧
          (i.pretty = false →
            (ofInput read i input).output.toList.count '\n' =
              (document.leading i.paths).length ∧
            (ofInput read i input).output.toList.splitOn '\n' =
              values.map (fun v => v.compact.toList) ++ [[]]) ∧
          Json.squeeze (ofInput read i input).output.toList =
            (String.join (values.map Json.compact)).toList := by
  refine ⟨?_, ?_, ?_⟩
  · rintro e rfl
    exact refused_of_unreadable i rfl
  · rintro bytes rfl hnot
    have hunread : (Except.ok bytes : Except ReadFailure ByteArray).bind decode =
        .error .notText := decode_eq_error_of_not_text hnot
    exact refused_of_unreadable i hunread
  intro text htext
  have hinput := bind_decode_eq_ok_iff.mpr htext
  refine ⟨fun cause => refused_of_notJson i hinput, refused_of_null i hinput, ?_⟩
  intro document hread hnull
  obtain ⟨values, hvalues⟩ := exists_answers i hinput hread hnull
  refine ⟨values, hvalues, ?_, hvalues.lines_output, hvalues.squeeze_output⟩
  intro path rest others hsplit
  obtain ⟨e, he, _⟩ := hvalues.fails hsplit
  have hsame := answer_append_of_error (if i.pretty then Json.pretty else Json.compact) he
    (document.leading i.paths) rest others
  rw [← hsplit] at hsame
  rw [ofInput_of_document i hinput hread hnull, ofInput_of_document _ hinput hread hnull]
  simp only [hsame]

/-- A string with a line break in it is printed on one line, and the path behind the one that fails
is not even read; indented, the array around the string takes three lines. A text that is no
document is refused with what the reader says of it. -/
theorem output_up_to_first_failure_of_line_break :
    let paths := [".", "gone", "a[1]"]
    let read := Json.reader fun _ => "expected value at line 1 column 1"
    let text := "[\"x\\ny\"]"
    let document : Json := .array [.string "x\ny"]
    let input : Except ReadFailure ByteArray := .ok text.toUTF8
    let run := ofInput read ⟨none, false, false, paths⟩ input
    let indented := ofInput read ⟨none, true, false, paths⟩ input
    read text = .ok document ∧ document ≠ .null ∧
      paths = document.leading paths ++ "gone" :: ["a[1]"] ∧
      run.output = "[\"x\\ny\"]\n" ∧ run.output.toList.count '\n' = 1 ∧
      indented.output = "[\n  \"x\\ny\"\n]\n" ∧
      Json.squeeze indented.output.toList = text.toList ∧
      run.Reports ["error[PropertyNotFound]: Property gone not found"] ∧
      (ofInput read ⟨none, false, false, paths⟩ (.ok "?".toUTF8)).Refused
        "error: input is not valid JSON: expected value at line 1 column 1" := by
  intro paths read text document input run indented
  have hread : read text = .ok document := by
    have hchars : text.toList = ['[', '"', 'x', '\\', 'n', 'y', '"', ']'] := by simp [text]
    have hopen : Json.skipBlanks text.toList = '[' :: ['"', 'x', '\\', 'n', 'y', '"', ']'] := by
      rw [hchars]
      rfl
    have hscalar : Json.readScalar? (Json.skipBlanks ['"', 'x', '\\', 'n', 'y', '"', ']']) =
        some (.string "x\ny", [']']) := by cbv
    have hdocument : Json.read? text = some document := by
      apply Json.read?_of_item hopen _ _ _ hscalar rfl
      · simp [Json.skipBlanks, Json.isBlank]
      · simp [Json.skipBlanks, Json.isBlank]
      · simp [Json.skipBlanks, Json.isBlank]
    simp only [read, Json.reader, hdocument]
  have hnull : document ≠ .null := by simp [document]
  have hpoint : document.query "." = .ok document := by cbv
  have hgone : document.query "gone" = .error (.missing "gone") := by cbv
  have hleading : document.leading paths = ["."] := by
    rw [Json.leading_cons_of_ok hpoint, Json.leading_cons_of_error hgone]
  have hpaths : paths = document.leading paths ++ "gone" :: ["a[1]"] := by
    rw [hleading]
    rfl
  have hvalues {values : List Json} (h : document.Finds (document.leading paths) values) :
      values = [document] := by
    rw [hleading] at h
    cases h with
    | cons hv hrest =>
      cases hrest
      rw [Except.ok.inj (hpoint.symm.trans hv)]
  obtain ⟨values, hanswers, _, hlines, _⟩ :=
    ((output_up_to_first_failure read ⟨none, false, false, paths⟩ input).2.2 text rfl).2.2
      document hread hnull
  obtain ⟨values', hanswers', _, _, hsqueeze⟩ :=
    ((output_up_to_first_failure read ⟨none, true, false, paths⟩ input).2.2 text rfl).2.2
      document hread hnull
  obtain rfl := hvalues hanswers.finds
  obtain rfl := hvalues hanswers'.finds
  have houtput : run.output = "[\"x\\ny\"]\n" := by
    rw [hanswers.output]
    cbv
  have hindented : indented.output = "[\n  \"x\\ny\"\n]\n" := by
    rw [hanswers'.output]
    cbv
  obtain ⟨e, he, _, hreports⟩ := hanswers.fails hpaths
  obtain rfl := Except.error.inj (hgone.symm.trans he)
  have hcount := (hlines rfl).1
  rw [hleading] at hcount
  have hbad : read "?" = .error "expected value at line 1 column 1" := by
    have hchars : "?".toList = ['?'] := by simp
    have hnone : Json.read? "?" = none := by
      rw [Json.read?_of_scalar]
      · cbv
      · simp [hchars, Json.skipBlanks, Json.isBlank]
      · simp [hchars, Json.skipBlanks, Json.isBlank]
    simp only [read, Json.reader, hnone]
  have hrefused := ((output_up_to_first_failure read ⟨none, false, false, paths⟩
    (.ok "?".toUTF8)).2.2 "?" rfl).1 _ hbad
  exact ⟨hread, hnull, hpaths, houtput, hcount, hindented, hsqueeze, hreports, hrefused⟩

end Run

end DocPath
