/-!
The arguments of the command line. Options may stand anywhere in front of `--`; all else is a path.
-/

namespace DocPath

/-- What the command line asks for: paths to look up in a document from a file or from the standard
input. -/
structure Invocation where
  input : Option String
  pretty : Bool
  verbose : Bool
  paths : List String
deriving DecidableEq, Repr

inductive Request where
  | run (invocation : Invocation)
  | help
  | malformed
deriving DecidableEq, Repr

namespace Invocation

def none : Invocation := ⟨.none, false, false, []⟩

def addPaths (i : Invocation) (paths : List String) : Invocation :=
  { i with paths := i.paths ++ paths }

/-- At least one path has to be given. -/
def finish (i : Invocation) : Request := if i.paths.isEmpty then .malformed else .run i

end Invocation

/-- What one argument amounts to, given those before it. -/
inductive Reading where
  | taken (i : Invocation)
  /-- The next argument is the name of the input. -/
  | wantsInput (i : Invocation)
  /-- All further arguments are paths. -/
  | ended (i : Invocation)
  | help
  | malformed

namespace Reading

/-- The name of the input is given once, and it is not empty. -/
def input (i : Invocation) (name : String) : Reading :=
  if i.input.isSome || name.isEmpty then malformed else taken { i with input := some name }

def pretty (i : Invocation) : Reading :=
  if i.pretty then malformed else taken { i with pretty := true }

def verbose (i : Invocation) : Reading :=
  if i.verbose then malformed else taken { i with verbose := true }

/-- Short options share one dash; the one that takes a value takes all that follows it. -/
def short (i : Invocation) : List Char → Reading
  | [] => taken i
  | 'h' :: _ => help
  | 'v' :: rest =>
    match verbose i with
    | taken i => short i rest
    | other => other
  | ['i'] => wantsInput i
  | 'i' :: '=' :: name => input i (String.ofList name)
  | 'i' :: name => input i (String.ofList name)
  | _ => malformed

/-- A long option, with the text after an equals sign if there is one. -/
def long (i : Invocation) (name : List Char) (value? : Option (List Char)) : Reading :=
  match String.ofList name, value? with
  | "help", none => help
  | "pretty", none => pretty i
  | "verbose", none => verbose i
  | "input", none => wantsInput i
  | "input", some value => input i (String.ofList value)
  | _, _ => malformed

def valueIn? (option : List Char) : Option (List Char) :=
  match option.dropWhile (· != '=') with
  | [] => none
  | _ :: value => some value

def ofArgument (i : Invocation) (argument : String) : Reading :=
  match argument.toList with
  | ['-'] => taken (i.addPaths [argument])
  | ['-', '-'] => ended i
  | '-' :: '-' :: option => long i (option.takeWhile (· != '=')) (valueIn? option)
  | '-' :: flags => short i flags
  | _ => taken (i.addPaths [argument])

/-- Whether an argument can be the value of an option that stands before it. -/
def isValue (argument : String) : Bool := argument == "-" || !argument.startsWith "-"

end Reading

namespace Request

def readFrom (i : Invocation) : List String → Request
  | [] => i.finish
  | argument :: rest =>
    match Reading.ofArgument i argument with
    | .taken i => readFrom i rest
    | .ended i => (i.addPaths rest).finish
    | .help => help
    | .malformed => malformed
    | .wantsInput i =>
      match rest with
      | [] => malformed
      | name :: rest =>
        if Reading.isValue name then
          match Reading.input i name with
          | .taken i => readFrom i rest
          | _ => malformed
        else malformed

def ofArguments (arguments : List String) : Request := readFrom .none arguments

end Request

end DocPath
