/-!
The ways in which reading or following a path fails, with the identifiers and messages that are
shown for them.
-/

namespace DocPath

inductive PathFailure where
  /-- A member that the path asks for is not there. -/
  | missing (member : String)
  /-- There is no document to look into. -/
  | nullDocument
  | emptyPath
  | emptySegment
  /-- A segment text that is neither a word nor a word with a path in brackets. -/
  | malformed (segment : String)
deriving DecidableEq, Repr

namespace PathFailure

def kind : PathFailure → String
  | missing _ => "PropertyNotFound"
  | nullDocument => "EmptyContext"
  | emptyPath => "EmptyExpression"
  | emptySegment => "EmptyElement"
  | malformed _ => "InvalidElement"

/-- The number under which the kind of failure went before it had an identifier. -/
def numbered : PathFailure → String
  | missing _ => "ERR_CODE_100"
  | nullDocument => "ERR_CODE_101"
  | emptyPath => "ERR_CODE_200"
  | emptySegment => "ERR_CODE_300"
  | malformed _ => "ERR_CODE_301"

def message : PathFailure → String
  | missing member => "Property " ++ member ++ " not found"
  | nullDocument => "Context is empty"
  | emptyPath => "Query String is empty"
  | emptySegment => "Query Element is empty"
  | malformed segment => "Query Element with value '" ++ segment ++ "' is not valid"

end PathFailure

end DocPath
