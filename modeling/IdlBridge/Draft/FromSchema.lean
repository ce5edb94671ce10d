import IdlBridge.Draft.Basic
import IdlBridge.Notice
import IdlBridge.Spec.Schema

/-! # Declarations from schemas

    A schema becomes a field, a message or an enumeration. What it needs besides is declared on the
    way: messages of array items and of map values and enumerations of properties go into the
    enclosing message, the `parent`, and without one into the file.

    `Conversion` keeps the draft and the notices when it fails: the declarations of a conversion
    that fails half-way stay in the draft. The parent is handed on with the result, so a failure
    leaves it as it was. Schemas may nest without limit; that of a stack is left out.
-/

namespace IdlBridge.Draft

/-! ## Errors -/

/-- The part of a document in which an error is found. -/
inductive Place where
  | property (name : Text)
  | component (name : Text)
  | parameter (name : Text)
  | request (method : Text)
  | response (method : Text)
deriving DecidableEq

/-- Why a document cannot be converted. -/
inductive ConvertError where
  | typeMissing
  | itemsMissing (array : Text)
  | unknownType (shown : Text)
  | inside (place : Place) (e : ConvertError)
  /-- Some part is data of the wrong shape. -/
  | misshapen
  /-- Data of this kind is no option literal. -/
  | noLiteral (kind : Text)
deriving DecidableEq

namespace Place

/-- The part in words. -/
def message : Place → Text
  | .property name => "property " ++ name ++ ": "
  | .component name => "error converting schema " ++ name ++ ": "
  | .parameter name => "parameter " ++ name ++ ": "
  | .request method => "error generating request message for " ++ method ++ ": "
  | .response method => "error generating response message for " ++ method ++ ": "

end Place

namespace ConvertError

/-- The error in words. -/
def message : ConvertError → Text
  | .typeMissing => "schema type is required"
  | .itemsMissing array => "array " ++ array ++ ": items are required"
  | .unknownType shown => "unsupported schema type " ++ shown
  | .inside place e => place.message ++ e.message
  | .misshapen => "misshapen data"
  | .noLiteral kind => "unsupported option value type: " ++ kind

/-- The error is about a schema, so it is reported with the place of the schema. -/
def isAboutSchema : ConvertError → Bool
  | .misshapen => false
  | .noLiteral _ => false
  | _ => true

end ConvertError

/-! ## Conversions -/

/-- A draft and what has been said about it. -/
structure Progress where
  file : File
  notices : List Notice

/-- A step of a conversion. -/
abbrev Conversion := ExceptT ConvertError (StateM Progress)

namespace Conversion

/-- Changes the draft. -/
def update (f : File → File) : Conversion Unit :=
  modify fun p => { p with file := f p.file }

/-- Leaves a notice. -/
def note (n : Notice) : Conversion Unit :=
  modify fun p => { p with notices := p.notices ++ [n] }

/-- Gives up because data has the wrong shape. -/
def refuse {α : Type} : Conversion α :=
  throw .misshapen

/-- A name as it reads. -/
def shown (name : Name) : Conversion Text :=
  match name.display? with
  | some t => return t
  | none => refuse

/-- A name that has to be a text. -/
def textual (name : Name) : Conversion Text :=
  match name with
  | .text t => return t
  | _ => refuse

/-- Reports errors about schemas with their place. -/
def within {α : Type} (place : Text → Place) (name : Name) (step : Conversion α) : Conversion α :=
  tryCatch step fun e =>
    if e.isAboutSchema then do throw (.inside (place (← shown name)) e) else throw e

end Conversion

/-! ## Schemas -/

/-- What a schema becomes. -/
inductive Piece where
  | field (f : Field)
  | message (m : Message)
  | enum (e : Enum)

namespace Piece

/-- The name of the value that an enumeration has besides its own. -/
def unspecified : Text := "_UNSPECIFIED"

/-- The enumeration of a name: its values carry the name in capitals. -/
def enumeration (name : Text) (values : List Text) : Enum :=
  let enumName := Naming.camel name
  let lead := Naming.upperSnake enumName
  let own := (values.zipIdx 1).map fun (v, i) =>
    EnumValue.mk (lead ++ "_" ++ Naming.upperSnake v) i
  ⟨enumName, ⟨lead ++ unspecified, 0⟩ :: own⟩

/-- Adds what a property has become to the message that holds the property. The field of a nested
    message gets a name of its own. -/
def attach (m : Message) (name : Name) : Piece → Conversion Message
  | .field f => return m.addField f
  | .message nested => do
    let m := m.addMessage nested
    let t ← Conversion.textual name
    return m.addField { name := .text (t ++ "Field"), type := t }
  | .enum e => return m.addEnum e

/-- Adds what a parameter, a header or a body has become to the message of an operation. -/
def addTo (m : Message) : Piece → Message
  | .field f => m.addField f
  | .message nested => m.addMessage nested
  | .enum e => m.addEnum e

/-- The name of the field for the properties beyond the declared ones. -/
def additionalField : Text := "additionalProperties"

/-- The field for the properties beyond the declared ones. -/
def mapField (valueType : Text) : Field :=
  { name := .text additionalField, type := "map<string, " ++ valueType ++ ">" }

/-- Declares the message of array items where it belongs. -/
def placeItems (m : Message) : Option Message → Conversion (Option Message)
  | some parent => return some (parent.addMessage m)
  | none => do
    Conversion.update fun f => f.addMessage m
    return none

/-- Imports the file that declares a scalar, where one is needed. -/
def importFor (type : Text) : Conversion Unit :=
  if type = ScalarType.timestamp then
    Conversion.update fun f => f.addImport ScalarType.timestampImport
  else return ()

/-- Converts a schema. -/
def ofSchema (s : Spec.Schema) (name : Name) (parent : Option Message) :
    Conversion (Piece × Option Message) :=
  match s with
  | .reference type => return (.field { name, type }, parent)
  | .array none => do throw (.itemsMissing (← Conversion.shown name))
  | .array (some items) => do
    let itemName := (← Conversion.textual name) ++ "Item"
    let (item, parent) ← ofSchema items (.text itemName) parent
    match item with
    | .field f => return (.field { name, type := f.type, repeated := true }, parent)
    | .enum e =>
      -- An enumeration that has not gone into a message is declared in the file.
      Conversion.update fun f => f.addEnum e
      return (.field { name, type := e.name, repeated := true }, parent)
    | .message m =>
      let parent ← placeItems m parent
      return (.field { name, type := itemName, repeated := true }, parent)
  | .object properties additional => do
    let m ← ofProperties properties { name }
    match additional with
    | .closed => return (.message m, parent)
    | .untyped => return (.message (m.addField (mapField "string")), parent)
    | .typed s =>
      let valueName := (← Conversion.textual name) ++ "AdditionalProperties"
      let (value, holder) ← ofSchema s (.text valueName) (some m)
      let m := holder.getD m
      -- Only messages become the values of a map; all else is `string` there.
      match value with
      | .message v => return (.message ((m.addMessage v).addField (mapField valueName)), parent)
      | _ => return (.message (m.addField (mapField "string")), parent)
  | .enumeration values => do
    let e := enumeration (← Conversion.textual name) values
    match parent with
    -- Without a message around it the enumeration is handed on as it is.
    | none => return (.enum e, none)
    | some m => return (.field { name, type := e.name }, some (m.addEnum e))
  | .scalar type => do
    importFor type
    return (.field { name, type }, parent)
  | .untyped => throw .typeMissing
  | .unknownType shown => throw (.unknownType shown)
  | .misshapen => Conversion.refuse
where
  /-- Converts the properties of an object into the declarations of its message. -/
  ofProperties : List (Value × Spec.Schema) → Message → Conversion Message
    | [], m => return m
    | (name, s) :: rest, m => do
      let (piece, holder) ← Conversion.within .property name (ofSchema s name (some m))
      let m ← attach (holder.getD m) name piece
      ofProperties rest m

end Piece

end IdlBridge.Draft
