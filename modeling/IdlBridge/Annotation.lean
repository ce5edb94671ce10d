import IdlBridge.Text.Table
import IdlBridge.Value.Json

/-! # Annotations of declarations

    Options and annotations of both interface languages become one kind of table. A key that is
    given once has a scalar, one that is given again a list of scalars, and the `openapi.*` keys
    have the text of a structured payload, of which only the first counts. A payload that the
    source wrote as an aggregate is kept as its JSON text.
-/

namespace IdlBridge

/-- What an annotation key carries. -/
inductive Annotation where
  | scalar (text : Text)
  | scalars (texts : List Text)
  /-- The text of a structured payload. -/
  | payload (text : Text)
deriving DecidableEq

namespace Annotation

/-- The verbs that a method can be bound to, in the order in which their keys are looked for. The
    last one stands for every verb. -/
def verbs : Table Text :=
  [("api.get", "GET"), ("api.post", "POST"), ("api.put", "PUT"), ("api.patch", "PATCH"),
   ("api.delete", "DELETE"), ("api.options", "OPTIONS"), ("api.head", "HEAD"), ("api.any", "ANY")]

/-- Overrides an operation. -/
def operationKey : Text := "openapi.operation"

/-- Overrides the schema of a field. -/
def propertyKey : Text := "openapi.property"

/-- Overrides the schema of a struct. -/
def schemaKey : Text := "openapi.schema"

/-- Overrides a parameter. -/
def parameterKey : Text := "openapi.parameter"

/-- Overrides the document. -/
def documentKey : Text := "openapi.document"

/-- The keys that carry structured payloads. -/
def payloadKeys : List Text :=
  [operationKey, propertyKey, schemaKey, parameterKey, documentKey]

/-- The texts that an annotation carries, in order. -/
def texts : Annotation → List Text
  | .scalar t => [t]
  | .scalars ts => ts
  | .payload t => [t]

/-- The text of a constant. -/
def textOf? : Value → Option Text
  | .text t => some t
  | .bool b => some (if b then "true" else "false")
  | .list xs => (Value.list xs).json?
  | .map es => (Value.map es).json?
  | v => v.display?

/-- The text of the constants of one key, all of them. -/
def textsOf? : List Value → Option (List Text)
  | [] => some []
  | v :: rest =>
    match textOf? v, textsOf? rest with
    | some t, some ts => some (t :: ts)
    | _, _ => none

/-- The annotation that the constants of one key make up. -/
def ofConstants? (key : Text) (constants : List Value) : Option Annotation :=
  if key ∈ payloadKeys then
    match constants with
    | .text t :: _ => some (.payload t)
    | v :: _ => v.json?.map .payload
    | [] => some (.payload [])
  else
    match constants with
    | [v] => (textOf? v).map .scalar
    | vs => (textsOf? vs).map .scalars

end Annotation

/-- The annotations of a declaration. -/
abbrev Annotations := Table Annotation

namespace Annotations

/-- Collects the constants of each key, the keys in the order of their first use. -/
def collect (pairs : List (Text × Value)) : Table (List Value) :=
  pairs.foldl (fun t p => Table.insert t p.1 (((Table.get? t p.1).getD []) ++ [p.2])) []

/-- The annotations of collected constants. -/
def ofCollected? : Table (List Value) → Option Annotations
  | [] => some []
  | (key, constants) :: rest =>
    match Annotation.ofConstants? key constants, ofCollected? rest with
    | some a, some as => some ((key, a) :: as)
    | _, _ => none

/-- The annotations of keys and constants in source order. There are none if a constant has no
    text. -/
def ofPairs? (pairs : List (Text × Value)) : Option Annotations :=
  ofCollected? (collect pairs)

/-- The first text of a key. -/
def first? (as : Annotations) (key : Text) : Option Text :=
  (as.get? key).bind fun a => a.texts.head?

end Annotations

end IdlBridge
