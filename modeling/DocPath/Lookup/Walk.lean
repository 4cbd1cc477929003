import DocPath.Lookup.Event
import DocPath.Lookup.Member
import DocPath.Path.Parse

/-!
Following a path into a document. Each segment moves to a member of the value reached so far; a path
in brackets starts again at the root, and the value that it finds picks a member in turn.
-/

namespace DocPath

namespace Json

mutual

/-- Moves from `current` along one segment of the path `inside`. -/
def walkSegment (root : Json) (inside : Path) (current : Json) : Segment → Logged Json
  | .bare name => do
    Logged.note (.entered (.bare name))
    match current.member? name with
    | some found => pure found
    | none => Logged.fail (.nameMissing name inside) (.missing name)
  | .indexed name index => do
    Logged.note (.entered (.indexed name index))
    match current.member? name with
    | some found =>
      let value ← walkFrom root index root index
      match select? value found with
      | some picked => pure picked
      | none =>
        Logged.fail (.indexMissing name index) (.missing (Segment.indexed name index).render)
    | none => Logged.fail (.nameMissing name inside) (.missing name)

/-- Moves from `current` along the given segments of the path `inside`. -/
def walkFrom (root : Json) (inside : Path) (current : Json) : Path → Logged Json
  | [] => pure current
  | segment :: rest => do
    let next ← walkSegment root inside current segment
    walkFrom root inside next rest

end

variable (root : Json) (inside : Path) (current : Json)

@[simp] theorem walkFrom_nil : walkFrom root inside current [] = pure current := rfl

theorem walkFrom_cons (segment : Segment) (rest : Path) :
    walkFrom root inside current (segment :: rest) =
      walkSegment root inside current segment >>= fun next => walkFrom root inside next rest := rfl

theorem outcome_walkFrom_cons (segment : Segment) (rest : Path) :
    (walkFrom root inside current (segment :: rest)).outcome =
      (walkSegment root inside current segment).outcome >>= fun next =>
        (walkFrom root inside next rest).outcome := by
  rw [walkFrom_cons, Logged.outcome_bind]

theorem outcome_walkSegment_bare (name : String) :
    (walkSegment root inside current (.bare name)).outcome =
      match current.member? name with
      | some found => .ok found
      | none => .error (.missing name) := by
  cases h : current.member? name <;> simp [walkSegment, h]

theorem outcome_walkSegment_indexed (name : String) (index : Path) :
    (walkSegment root inside current (.indexed name index)).outcome =
      match current.member? name with
      | some found => do
        let value ← (walkFrom root index root index).outcome
        match select? value found with
        | some picked => .ok picked
        | none => .error (.missing (Segment.indexed name index).render)
      | none => .error (.missing name) := by
  cases h : current.member? name with
  | none => simp [walkSegment, h]
  | some found =>
    simp only [walkSegment, h, Logged.outcome_bind, Logged.outcome_note, Logged.ok_bind]
    cases (walkFrom root index root index).outcome with
    | error e => rfl
    | ok value =>
      simp only [Logged.ok_bind]
      cases select? value found <;> rfl

def walk (root : Json) (path : Path) : Logged Json := root.walkFrom path root path

/-- The value that a path leads to. The empty path leads to the root. -/
def resolve (root : Json) (path : Path) : Except PathFailure Json := (root.walk path).outcome

def trace (root : Json) (text : String) : Logged Json := do
  let path ← Logged.ofExcept (Path.parse text)
  root.walk path

def query (root : Json) (text : String) : Except PathFailure Json := do
  let path ← Path.parse text
  root.resolve path

theorem outcome_trace (root : Json) (text : String) :
    (root.trace text).outcome = root.query text := by
  rw [trace, Logged.outcome_bind, Logged.outcome_ofExcept]
  rfl

end Json

/-- The segment that a value names: only strings name one. -/
def Segment.ofJson : Json → Except PathFailure Segment
  | .string text => Segment.parse text
  | _ => .error .emptySegment

/-- The path that a value names: only strings name one. -/
def Path.ofJson : Json → Except PathFailure Path
  | .string text => Path.parse text
  | _ => .error .emptyPath

/-- Looks a path up in a document, which must not be null. -/
def lookup (document : Json) (text : String) : Except PathFailure Json :=
  if document.isNull then .error .nullDocument else document.query text

def lookupValue (document path : Json) : Except PathFailure Json :=
  if document.isNull then .error .nullDocument
  else do
    let path ← Path.ofJson path
    document.resolve path

end DocPath
