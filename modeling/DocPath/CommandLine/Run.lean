import DocPath.CommandLine.Arguments
import DocPath.CommandLine.Input
import DocPath.CommandLine.Record
import DocPath.Json.Printer
import DocPath.Lookup.Walk

/-!
A run of the command line: it prints the value of each path on a line, stops at the first failure,
and reports it. The log goes to the error output, before the report. Which texts are documents, and
what is wrong with the others, is up to a reader.
-/

namespace DocPath

inductive RunFailure where
  | unreadable (name : String) (e : ReadFailure)
  | notJson (cause : String)
  | path (e : PathFailure)
deriving DecidableEq, Repr

def RunFailure.report : RunFailure → String
  | unreadable name e => "error: failed to read " ++ name ++ ": " ++ e.message
  | notJson cause => "error: input is not valid JSON: " ++ cause
  | path e => "error[" ++ e.kind ++ "]: " ++ e.message

/-- What a run leaves: its output, all its log records, and its failure if there is one. -/
structure Run where
  output : String
  records : List Record
  failure : Option RunFailure

namespace Run

/-- The values of paths, each on a line, up to the first path that fails. -/
def answer (print : Json → String) (document : Json) : List String → Run
  | [] => ⟨"", [], none⟩
  | text :: rest =>
    let found := document.trace text
    let records := found.events.map Record.ofEvent
    match found.outcome with
    | .ok v =>
      let more := answer print document rest
      ⟨print v ++ "\n" ++ more.output, records ++ more.records, more.failure⟩
    | .error e => ⟨"", records, some (.path e)⟩

section Reading

variable (read : Json.Reader) (i : Invocation)

def onText (text : String) : Run :=
  match read text with
  | .error cause => ⟨"", [], some (.notJson cause)⟩
  | .ok document =>
    if document.isNull then ⟨"", [], some (.path .nullDocument)⟩
    else answer (if i.pretty then Json.pretty else Json.compact) document i.paths

/-- The run that an invocation makes on the bytes of its input. -/
def ofInput (input : Except ReadFailure ByteArray) : Run :=
  match input.bind decode with
  | .error e => ⟨"", [], some (.unreadable (i.input.getD "stdin") e)⟩
  | .ok text =>
    let run := onText read i text
    { run with records := Record.inputRead text.utf8ByteSize :: run.records }

end Reading

def status (run : Run) : Nat := if run.failure.isSome then 1 else 0

/-- The level of the log: the one that is asked for by name, else the one of the options. -/
def level (i : Invocation) (named? : Option Level) : Level :=
  named?.getD (if i.verbose then .debug else .warn)

/-- The error output at a level: the log, then the report. -/
def errorOutput (run : Run) (time : String) (level : Level) : List String :=
  (run.records.filter (Record.shownAt level)).map (Record.line time)
    ++ (run.failure.map RunFailure.report).toList

end Run

end DocPath
