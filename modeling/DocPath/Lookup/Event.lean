import DocPath.Path.Segment
import DocPath.Path.Failure

/-!
What is noted while a path is followed: each segment that is entered, and the lookup that fails.
-/

namespace DocPath

inductive Event where
  | entered (segment : Segment)
  /-- A name is no member of the value reached; `inside` is the path in which it stands. -/
  | nameMissing (name : String) (inside : Path)
  /-- The value of an index path picks no member of the value under a name. -/
  | indexMissing (name : String) (index : Path)
deriving DecidableEq

namespace Event

def isFailure : Event → Bool
  | entered _ => false
  | nameMissing _ _ => true
  | indexMissing _ _ => true

def message : Event → String
  | entered segment => "resolving element `" ++ segment.render ++ "`"
  | nameMissing name inside =>
    "property `" ++ name ++ "` not found while resolving `" ++ inside.render ++ "`"
  | indexMissing name index =>
    "index from `" ++ index.render ++ "` not found under `" ++ name ++ "`"

end Event

structure Logged (α : Type) where
  events : List Event
  outcome : Except PathFailure α

namespace Logged

variable {α β : Type}

instance : Monad Logged where
  pure a := ⟨[], .ok a⟩
  bind x f :=
    match x.outcome with
    | .ok a => ⟨x.events ++ (f a).events, (f a).outcome⟩
    | .error e => ⟨x.events, .error e⟩

def note (event : Event) : Logged Unit := ⟨[event], .ok ()⟩

def fail (event : Event) (e : PathFailure) : Logged α := ⟨[event], .error e⟩

def ofExcept (r : Except PathFailure α) : Logged α := ⟨[], r⟩

@[simp] theorem ok_bind (a : α) (f : α → Except PathFailure β) : Except.ok a >>= f = f a := rfl

@[simp] theorem error_bind (e : PathFailure) (f : α → Except PathFailure β) :
    Except.error e >>= f = Except.error e := rfl

@[simp] theorem outcome_pure (a : α) : (pure a : Logged α).outcome = .ok a := rfl

@[simp] theorem events_pure (a : α) : (pure a : Logged α).events = [] := rfl

@[simp] theorem outcome_note (event : Event) : (note event).outcome = .ok () := rfl

@[simp] theorem events_note (event : Event) : (note event).events = [event] := rfl

@[simp] theorem outcome_fail (event : Event) (e : PathFailure) :
    (fail event e : Logged α).outcome = .error e := rfl

@[simp] theorem events_fail (event : Event) (e : PathFailure) :
    (fail event e : Logged α).events = [event] := rfl

@[simp] theorem outcome_ofExcept (r : Except PathFailure α) : (ofExcept r).outcome = r := rfl

@[simp] theorem outcome_bind (x : Logged α) (f : α → Logged β) :
    (x >>= f).outcome = x.outcome >>= fun a => (f a).outcome := by
  obtain ⟨events, outcome⟩ := x
  cases outcome <;> rfl

end Logged

end DocPath
