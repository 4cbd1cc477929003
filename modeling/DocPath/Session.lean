import DocPath.Lookup.Walk

/-!
Sessions: a document that is looked into again and again, and paths kept in named slots. A command
that fails leaves the session as it was.
-/

namespace DocPath

structure Session where
  document : Json
  slots : List (String × Path)

/-- What a session is asked to do. A document is given as its text; without one the document is the
empty object. -/
inductive Command where
  | query (text : String)
  | document
  | store (slot text : String)
  | storeEmpty (slot : String)
  | resolve (slot : String)
  | reread (slot into : String)
  | compare (slot other : String)
  | show (slot : String)
  | rebind (text? : Option String)
  | descend (text : String)

inductive Reply where
  | value (v : Json)
  | stored (path : Path)
  | same (answer : Bool)
  | path (path : Path)
  | failed (e : PathFailure)
  | noSlot
  | notJson (cause : String)

/-- Whether the reply says that a command could not be followed. -/
def Reply.isFailure : Reply → Bool
  | failed _ => true
  | noSlot => true
  | notJson _ => true
  | _ => false

namespace Session

def documentOf (read : Json.Reader) : Option String → Except String Json
  | none => .ok (.object [])
  | some text => read text

/-- A session over a document, with no slots. -/
def start (read : Json.Reader) (text? : Option String) : Except String Session :=
  (documentOf read text?).map fun document => ⟨document, []⟩

def slot? (s : Session) (name : String) : Option Path :=
  (s.slots.find? fun entry => entry.1 == name).map Prod.snd

/-- Keeps a path in a slot, in place of what was there. -/
def keep (s : Session) (name : String) (path : Path) : Session :=
  { s with slots := (name, path) :: s.slots.filter fun entry => entry.1 != name }

def keepRead (s : Session) (name : String) : Except PathFailure Path → Session × Reply
  | .ok path => (s.keep name path, .stored path)
  | .error e => (s, .failed e)

def replyOf : Except PathFailure Json → Reply
  | .ok v => .value v
  | .error e => .failed e

def withSlot (s : Session) (name : String) (act : Path → Session × Reply) : Session × Reply :=
  match s.slot? name with
  | some path => act path
  | none => (s, .noSlot)

def step (read : Json.Reader) (s : Session) : Command → Session × Reply
  | .query text => (s, replyOf (s.document.query text))
  | .document => (s, .value s.document)
  | .store slot text => s.keepRead slot (Path.parse text)
  | .storeEmpty slot => (s.keep slot [], .stored [])
  | .resolve slot => s.withSlot slot fun path => (s, replyOf (s.document.resolve path))
  | .reread slot into => s.withSlot slot fun path => s.keepRead into (Path.parse path.render)
  | .compare slot other =>
    s.withSlot slot fun path => s.withSlot other fun path' => (s, .same (path = path'))
  | .show slot => s.withSlot slot fun path => (s, .path path)
  | .rebind text? =>
    match documentOf read text? with
    | .ok document => ({ s with document := document }, .value document)
    | .error cause => (s, .notJson cause)
  | .descend text =>
    match s.document.query text with
    | .ok v => ({ s with document := v }, .value v)
    | .error e => (s, .failed e)

/-- The session that is left by commands. -/
def after (read : Json.Reader) (s : Session) (commands : List Command) : Session :=
  commands.foldl (fun s command => (s.step read command).1) s

def run (read : Json.Reader) (s : Session) : List Command → List Reply
  | [] => []
  | command :: rest =>
    let (next, reply) := s.step read command
    reply :: next.run read rest

end Session

end DocPath
