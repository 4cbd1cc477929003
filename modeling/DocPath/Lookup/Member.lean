import DocPath.Json.Basic
import DocPath.Lookup.Key
import DocPath.Lookup.Position

/-!
Members of a value: by name, and by a value that serves as index. Objects have members by key and
arrays by position; other values have none.
-/

namespace DocPath.Json

/-- The key that a value denotes. Arrays and objects denote none. -/
def key? : Json → Option String
  | string s => some s
  | number n => some n.keyText
  | bool true => some "true"
  | bool false => some "false"
  | null => some "null"
  | array _ => none
  | object _ => none

def position? : Json → Option Position
  | number n => n.position?
  | string s => Position.ofText? s
  | _ => none

def item? (items : List Json) (p : Position) : Option Json := items[p.toNat]?

/-- The member with the given name: a key of an object, or a position of an array in decimal. -/
def member? (name : String) : Json → Option Json
  | object members => find? name members
  | array items => (Position.ofText? name).bind (item? items)
  | _ => none

def select? (index : Json) : Json → Option Json
  | object members => index.key?.bind fun key => find? key members
  | array items => index.position?.bind (item? items)
  | _ => none

end DocPath.Json
