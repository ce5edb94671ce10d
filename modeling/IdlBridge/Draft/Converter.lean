import IdlBridge.Draft.FromDocument

/-! # Converters

    A converter keeps one draft over any number of calls: schemas are converted one at a time, each
    on its own or into a parent message, and whole documents are converted into the same draft. The
    parents are messages outside of the draft, known by handles; each is empty at first and keeps
    what calls have added to it. A call that fails keeps what it has done to the draft.
-/

namespace IdlBridge.Draft

/-- A draft under conversion, and the parents that schemas are converted into. -/
structure Converter where
  progress : Progress
  parents : Text → Message

/-- A call of a converter. -/
inductive Call where
  /-- Converts a schema, into the parent of a handle if one is given. -/
  | schema (schema : Value) (name : Name) (parent : Option Text)
  /-- Converts a document. -/
  | document (choice : OptionChoice) (doc : Value)

namespace Converter

/-- A converter before its first call, `names` being the names of the parents. -/
def start (package : Text) (names : Text → Name) : Converter where
  progress := ⟨{ package }, []⟩
  parents handle := { name := names handle }

/-- Puts a message in the place of the parent of a handle. -/
def setParent (c : Converter) (handle : Text) (m : Message) : Converter :=
  { c with parents := fun h => if h = handle then m else c.parents h }

/-- Makes a call. -/
def call (c : Converter) : Call → Converter
  | .schema schema name handle =>
    let parent := handle.map c.parents
    let (r, progress) := (Piece.ofSchema (.ofValue schema) name parent).run.run c.progress
    match handle, r with
    | some h, .ok (_, some m) => setParent { c with progress } h m
    | _, _ => { c with progress }
  | .document choice doc =>
    { c with progress := ((Conversion.addDocument choice doc).run.run c.progress).2 }

/-- Makes calls one after the other. -/
def calls (c : Converter) (cs : List Call) : Converter :=
  cs.foldl call c

end Converter

end IdlBridge.Draft
