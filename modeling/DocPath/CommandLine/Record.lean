import DocPath.Lookup.Event

/-!
Log records and the levels at which they are shown.
-/

namespace DocPath

/-- Levels from the one that shows nothing to the one that shows all. -/
inductive Level where
  | off
  | error
  | warn
  | info
  | debug
  | trace
deriving DecidableEq, Repr

namespace Level

def ofName? : String → Option Level
  | "off" => some off
  | "error" => some error
  | "warn" => some warn
  | "info" => some info
  | "debug" => some debug
  | "trace" => some trace
  | _ => none

def rank : Level → Nat
  | off => 0
  | error => 1
  | warn => 2
  | info => 3
  | debug => 4
  | trace => 5

def label : Level → String
  | off => "OFF"
  | error => "ERROR"
  | warn => "WARN"
  | info => "INFO"
  | debug => "DEBUG"
  | trace => "TRACE"

end Level

structure Record where
  level : Level
  target : String
  message : String
deriving DecidableEq, Repr

namespace Record

def shownAt (level : Level) (r : Record) : Bool := r.level.rank ≤ level.rank

def line (time : String) (r : Record) : String :=
  "[" ++ time ++ " " ++ r.level.label ++ " " ++ r.target ++ "] " ++ r.message

def ofEvent (e : Event) : Record :=
  ⟨if e.isFailure then .debug else .trace, "context_path::eval", e.message⟩

def inputRead (size : Nat) : Record :=
  ⟨.debug, "context_path", "read " ++ toString size ++ " bytes of JSON input"⟩

end Record

end DocPath
