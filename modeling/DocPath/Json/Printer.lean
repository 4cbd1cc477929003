import DocPath.Json.Basic
import DocPath.Json.Quoted

/-!
Documents as text, in one line or indented. Only the indented form breaks lines.
-/

namespace DocPath

/-- A way of laying out a document: what stands before each item at a depth, and between a key and
its value. -/
structure Style where
  gap : Nat → String
  colon : String

namespace Style

def compact : Style := ⟨fun _ => "", ":"⟩

/-- A line for each item, two blanks deeper than what it belongs to. -/
def indented : Style :=
  ⟨fun depth => "\n" ++ String.ofList (List.replicate (2 * depth) ' '), ": "⟩

end Style

namespace Json

/-- Items between two brackets, each behind a gap. -/
def enclose (style : Style) (depth : Nat) (left right : String) : List String → String
  | [] => left ++ right
  | texts =>
    left ++ ",".intercalate (texts.map (style.gap (depth + 1) ++ ·)) ++ style.gap depth ++ right

mutual

def render (style : Style) (depth : Nat) : Json → String
  | null => "null"
  | bool true => "true"
  | bool false => "false"
  | number n => n.text
  | string s => Quoted.quote s
  | array items => enclose style depth "[" "]" (itemTexts style (depth + 1) items)
  | object members => enclose style depth "\x7b" "\x7d" (memberTexts style (depth + 1) members)

def itemTexts (style : Style) (depth : Nat) : List Json → List String
  | [] => []
  | v :: rest => render style depth v :: itemTexts style depth rest

def memberTexts (style : Style) (depth : Nat) : List (String × Json) → List String
  | [] => []
  | (key, v) :: rest =>
    (Quoted.quote key ++ style.colon ++ render style depth v) :: memberTexts style depth rest

end

/-- The document in one line, without blanks. -/
def compact (v : Json) : String := v.render .compact 0

def pretty (v : Json) : String := v.render .indented 0

end Json

end DocPath
