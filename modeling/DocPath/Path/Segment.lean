/-!
Paths into a document. A path is a list of segments; a segment is a member name that may carry a
path of its own in brackets, whose value then picks the member.
-/

namespace DocPath

/-- One step of a path: `name`, or `name[index]` with an index path that starts at the root. -/
inductive Segment where
  | bare (name : String)
  | indexed (name : String) (index : List Segment)

abbrev Path := List Segment

namespace Segment

def name : Segment → String
  | bare n => n
  | indexed n _ => n

def index? : Segment → Option Path
  | bare _ => none
  | indexed _ p => some p

def isIndexed (s : Segment) : Bool := s.index?.isSome

@[simp] theorem name_bare (n : String) : (bare n).name = n := rfl

@[simp] theorem name_indexed (n : String) (p : Path) : (indexed n p).name = n := rfl

@[simp] theorem index?_bare (n : String) : (bare n).index? = none := rfl

@[simp] theorem index?_indexed (n : String) (p : Path) : (indexed n p).index? = some p := rfl

@[simp] theorem isIndexed_bare (n : String) : (bare n).isIndexed = false := rfl

@[simp] theorem isIndexed_indexed (n : String) (p : Path) : (indexed n p).isIndexed = true := rfl

end Segment

mutual

def Segment.render : Segment → String
  | .bare n => n
  | .indexed n p => n ++ "[" ++ Path.render p ++ "]"

def Path.render : Path → String
  | [] => ""
  | [s] => s.render
  | s :: t :: rest => s.render ++ "." ++ Path.render (t :: rest)

end

mutual

/-- A segment and the segments of its index path, each before those inside it. -/
def Segment.flatten : Segment → List Segment
  | .bare n => [.bare n]
  | .indexed n p => .indexed n p :: Path.flatten p

/-- All segments of a path in reading order, those in brackets included. -/
def Path.flatten : Path → List Segment
  | [] => []
  | s :: rest => s.flatten ++ Path.flatten rest

end

mutual

/-- The names in a segment, its own before those in its brackets. -/
def Segment.names : Segment → List String
  | .bare n => [n]
  | .indexed n p => n :: Path.names p

/-- Every name that a path reads, in reading order. -/
def Path.names : Path → List String
  | [] => []
  | s :: rest => s.names ++ Path.names rest

end

mutual

def Segment.decEq : (s t : Segment) → Decidable (s = t)
  | .bare m, .bare n => decidable_of_iff (m = n) (by simp)
  | .bare _, .indexed _ _ => isFalse (by simp)
  | .indexed _ _, .bare _ => isFalse (by simp)
  | .indexed m p, .indexed n q =>
    match decEq m n, Path.decEq p q with
    | isTrue hn, isTrue hp => isTrue (by rw [hn, hp])
    | isFalse hn, _ => isFalse (by simp [hn])
    | _, isFalse hp => isFalse (by simp [hp])

def Path.decEq : (p q : Path) → Decidable (p = q)
  | [], [] => isTrue rfl
  | [], _ :: _ => isFalse (by simp)
  | _ :: _, [] => isFalse (by simp)
  | s :: p, t :: q =>
    match Segment.decEq s t, Path.decEq p q with
    | isTrue hs, isTrue hp => isTrue (by rw [hs, hp])
    | isFalse hs, _ => isFalse (by simp [hs])
    | _, isFalse hp => isFalse (by simp [hp])

end

instance : DecidableEq Segment := Segment.decEq

namespace Path

/-- The names of the steps themselves, those in brackets left out. -/
def topNames (p : Path) : List String := p.map Segment.name

@[simp] theorem render_nil : render [] = "" := rfl

@[simp] theorem render_singleton (s : Segment) : render [s] = s.render := rfl

@[simp] theorem render_cons_cons (s t : Segment) (rest : Path) :
    render (s :: t :: rest) = s.render ++ "." ++ render (t :: rest) := rfl

@[simp] theorem flatten_nil : flatten [] = [] := rfl

@[simp] theorem flatten_cons (s : Segment) (rest : Path) :
    flatten (s :: rest) = s.flatten ++ flatten rest := rfl

@[simp] theorem names_nil : names [] = [] := rfl

@[simp] theorem names_cons (s : Segment) (rest : Path) :
    names (s :: rest) = s.names ++ names rest := rfl

end Path

end DocPath
