import DocPath.Number.Basic

/-!
Documents: JSON values, with the members of an object in the order in which they were written.
-/

namespace DocPath

inductive Json where
  | null
  | bool (b : Bool)
  | number (n : Number)
  | string (s : String)
  | array (items : List Json)
  | object (members : List (String × Json))

namespace Json

/-- A reader of documents: it gives the document that a text holds, or says what is wrong with the
text. -/
abbrev Reader := String → Except String Json

instance : Inhabited Json := ⟨null⟩

def isNull : Json → Bool
  | null => true
  | _ => false

def find? (name : String) : List (String × Json) → Option Json
  | [] => none
  | (key, value) :: rest => if key = name then some value else find? name rest

/-- Puts a member into an object. A key that is there already keeps its place and changes its
value. -/
def insert (name : String) (new : Json) : List (String × Json) → List (String × Json)
  | [] => [(name, new)]
  | (key, value) :: rest =>
    if key = name then (key, new) :: rest else (key, value) :: insert name new rest

/-- Puts members into an object one after the other. -/
def merge (members : List (String × Json)) : List (String × Json) :=
  members.foldl (fun found m => insert m.1 m.2 found) []

theorem find?_insert (name asked : String) (new : Json) (members : List (String × Json)) :
    find? asked (insert name new members) =
      if name = asked then some new else find? asked members := by
  induction members with
  | nil => simp [insert, find?]
  | cons m rest ih =>
    obtain ⟨key, value⟩ := m
    by_cases hk : key = name
    · by_cases ha : name = asked <;> simp [insert, find?, hk, ha]
    · by_cases ha : name = asked
      · subst ha
        simp [insert, find?, hk, ih]
      · simp [insert, find?, hk, ih, ha]

end Json

end DocPath
