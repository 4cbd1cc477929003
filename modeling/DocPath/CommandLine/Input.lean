/-!
Inputs as bytes, the ways in which reading one fails, and a folder of files in memory.
-/

namespace DocPath

inductive ReadFailure where
  /-- The system refuses to give the bytes. -/
  | refused (reason : String) (number : Nat)
  /-- The bytes are no text. -/
  | notText
deriving DecidableEq, Repr

namespace ReadFailure

def notFound : ReadFailure := refused "No such file or directory" 2

def notADirectory : ReadFailure := refused "Not a directory" 20

def isADirectory : ReadFailure := refused "Is a directory" 21

def message : ReadFailure → String
  | refused reason number => reason ++ " (os error " ++ toString number ++ ")"
  | notText => "stream did not contain valid UTF-8"

end ReadFailure

def decode (bytes : ByteArray) : Except ReadFailure String :=
  match String.fromUTF8? bytes with
  | some text => .ok text
  | none => .error .notText

structure Folder where
  files : List (String × ByteArray)

namespace Folder

/-- Where the beginning of a file name leads. -/
inductive Place where
  | here
  | outside
  | file (content : ByteArray)

/-- Goes on from a place by one part of a file name. -/
def enter (folder : Folder) (place : Place) (part : String) : Except ReadFailure Place :=
  match place with
  | .file _ => .error .notADirectory
  | .here =>
    if part = "" ∨ part = "." then .ok .here
    else if part = ".." then .ok .outside
    else
      match folder.files.find? fun entry => entry.1 == part with
      | some entry => .ok (.file entry.2)
      | none => .error .notFound
  | .outside =>
    if part = "" ∨ part = "." ∨ part = ".." then .ok .outside else .error .notFound

def read (folder : Folder) (name : String) : Except ReadFailure ByteArray :=
  let start := if name.startsWith "/" then Place.outside else Place.here
  match (name.splitOn "/").foldlM folder.enter start with
  | .ok (.file content) => .ok content
  | .ok _ => .error .isADirectory
  | .error e => .error e

end Folder

end DocPath
