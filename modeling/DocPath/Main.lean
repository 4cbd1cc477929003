import DocPath.CommandLine.Run

/-!
The program: it takes the arguments, reads the input, and prints what the run leaves. The reader of
its documents is given to it.
-/

namespace DocPath

def usage : String := "Usage: context-path [OPTIONS] <PATHS>..."

def helpText : String :=
  "Resolve path expressions such as `books[currentBook].pages` against JSON\n\n" ++
  usage ++ "\n\n" ++
  "Arguments:\n" ++
  "  <PATHS>...  Path expressions to resolve\n\n" ++
  "Options:\n" ++
  "  -i, --input <INPUT>  JSON document to query; stdin when omitted\n" ++
  "      --pretty         Pretty-print resolved values\n" ++
  "  -v, --verbose        Log at debug level unless RUST_LOG says otherwise\n" ++
  "  -h, --help           Print help\n"

/-- A refusal by its number, which the system gives with either sign. -/
def refusal (number : UInt32) (details : String) : ReadFailure :=
  match min number.toNat (UInt32.size - number.toNat) with
  | 2 => .notFound
  | 20 => .notADirectory
  | 21 => .isADirectory
  | n => .refused details n

def readFailureOf : IO.Error → ReadFailure
  | .noFileOrDirectory _ _ _ => .notFound
  | .inappropriateType _ number details => refusal number details
  | .permissionDenied _ number details => refusal number details
  | .otherError number details => refusal number details
  | e => .refused (toString e) 0

def readInput : Option String → IO (Except ReadFailure ByteArray)
  | some name => do
    try
      return .ok (← IO.FS.readBinFile name)
    catch e => return .error (readFailureOf e)
  | none => do
    try
      return .ok (← (← IO.getStdin).readBinToEnd)
    catch e => return .error (readFailureOf e)

def serve (read : Json.Reader) (i : Invocation) : IO UInt32 := do
  let run := Run.ofInput read i (← readInput i.input)
  let named := (← IO.getEnv "RUST_LOG").bind Level.ofName?
  let time := toString (← IO.monoMsNow)
  IO.print run.output
  for line in run.errorOutput time (Run.level i named) do
    IO.eprintln line
  return UInt32.ofNat run.status

/-- The program, given the reader of its documents. -/
def program (read : Json.Reader) (arguments : List String) : IO UInt32 := do
  match Request.ofArguments arguments with
  | .run i => serve read i
  | .help =>
    IO.print helpText
    return 0
  | .malformed =>
    IO.eprintln usage
    return 2

end DocPath
