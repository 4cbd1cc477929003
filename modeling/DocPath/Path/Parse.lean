import DocPath.Path.Segment
import DocPath.Path.Token
import DocPath.Path.Failure

/-!
Reading paths. Every token of the text is a segment; a bracket group must hold word characters and
points, and not digits alone, and its content is read as a path of its own.
-/

namespace DocPath

/-- Brackets hold a path, so they hold words and points, and a position given in digits is not a
path. -/
def isIndexText (content : List Char) : Bool :=
  !content.isEmpty && content.all (fun c => isWord c || c == '.') && !content.all Char.isDigit

mutual

def Segment.ofToken : Token → Except PathFailure Segment
  | .word w => .ok (.bare (String.ofList w))
  | .bracketed w content =>
    if isIndexText content then do
      let index ← Path.ofChars content
      return .indexed (String.ofList w) index
    else .error (.malformed (String.ofList (Token.bracketed w content).text))
termination_by t => (t.text.length, 0)
decreasing_by
  apply Prod.Lex.left
  simp
  omega

def Path.ofChars (cs : List Char) : Except PathFailure Path :=
  if cs.isEmpty then .error .emptyPath
  else (Token.scan cs).attach.mapM fun ⟨t, _⟩ => Segment.ofToken t
termination_by (cs.length, 1)
decreasing_by
  rename_i ht
  rcases Nat.lt_or_eq_of_le (Token.length_text_le_of_mem_scan ht) with h | h
  · exact Prod.Lex.left _ _ h
  · rw [h]
    exact Prod.Lex.right _ (by omega)

end

namespace Segment

def ofChars (cs : List Char) : Except PathFailure Segment :=
  if cs.isEmpty then .error .emptySegment
  else
    match Token.scan cs with
    | [t] => if t.text = cs then ofToken t else .error (.malformed (String.ofList cs))
    | _ => .error (.malformed (String.ofList cs))

/-- The segment that is written as `text`: the text is one token and nothing else. -/
def parse (text : String) : Except PathFailure Segment := ofChars text.toList

@[simp] theorem ofToken_word (w : List Char) :
    ofToken (.word w) = .ok (.bare (String.ofList w)) := by
  rw [ofToken]

end Segment

namespace Path

/-- The path that is written as `text`. The first token that is no segment is reported. -/
def parse (text : String) : Except PathFailure Path := ofChars text.toList

@[simp] theorem ofChars_nil : ofChars [] = .error .emptyPath := by
  rw [ofChars]
  rfl

theorem ofChars_of_ne_nil {cs : List Char} (h : cs ≠ []) :
    ofChars cs = (Token.scan cs).mapM Segment.ofToken := by
  rw [ofChars]
  simp [h]

end Path

end DocPath
