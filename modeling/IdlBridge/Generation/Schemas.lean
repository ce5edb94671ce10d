import IdlBridge.Descriptor
import IdlBridge.Generation.Config
import IdlBridge.Notice
import IdlBridge.OpenApi.Overlay
import IdlBridge.OpenApi.Registry
import IdlBridge.OpenApi.Validation
import IdlBridge.Payload
import IdlBridge.Remark
import IdlBridge.ScalarType

/-! # Schemas of structs

    The schema of a type, of the fields of a struct that carry a placement, and of a whole struct.
    A struct inside a type is referred to by name, and the name is required from the registry.

    Payloads of annotations are laid over what has been built. A payload that is no object of the
    wanted kind is left out with a notice.
-/

namespace IdlBridge.Generation

open OpenApi

/-- Why no document can be generated: a payload holds a scalar that stands for nothing. -/
inductive GenerationError where
  | impossiblePayload
deriving DecidableEq

/-- What is known while a document is generated. -/
structure Session where
  registry : Registry Object
  notices : List Notice

/-- A step of a generation. -/
abbrev Building := ExceptT GenerationError (StateM Session)

namespace Building

/-- Leaves a notice. -/
def note (n : Notice) : Building Unit :=
  modify fun s => { s with notices := s.notices ++ [n] }

/-- Changes the registry. -/
def update (f : Registry Object → Registry Object) : Building Unit :=
  modify fun s => { s with registry := f s.registry }

/-- Registers a schema unless its name has one. -/
def register (name : Text) (schema : Object) : Building Unit :=
  update fun r => (r.add name schema).2

/-- The object that the payload of a key holds. -/
def payload? (as : Annotations) (key : Text) (kind : Kind) (owner : Text) :
    Building (Option Object) := do
  match as.data? key with
  | none => return none
  | some (.error .impossible) => throw .impossiblePayload
  | some (.error _) =>
    note (.payloadIgnored key owner)
    return none
  | some (.ok x) =>
    match Object.ofValue? kind x with
    | some o => return some o
    | none =>
      note (.payloadIgnored key owner)
      return none

end Building

/-! ## Types -/

/-- A description, left out where the comment says nothing. -/
def description (comment : Text) : Slot :=
  .ofText (Remark.description comment)

/-- A schema of a type and a format. -/
def typed (t : TypeFormat) : Object :=
  .build .schema [(.type, .text t.type), (.format, .ofText? t.format)]

/-- A schema of which nothing is known. -/
def untyped : Object :=
  .build .schema [(.type, .null), (.format, .null)]

/-- The schema of arrays. -/
def arrayOf (items : Object) (unique : Bool) : Object :=
  .build .schema [(.type, .text "array"), (.items, .object items),
    (.uniqueItems, if unique then .flag true else .null)]

/-- The schema of maps. -/
def mapOf (values : Object) : Object :=
  .build .schema [(.type, .text "object"), (.additionalProperties, .object values)]

/-- The schema of a type. -/
def schemaOfType : TypeDesc → Building Object
  | .struct name => do
    -- The struct is referred to here and described when its turn comes.
    Building.update fun r => r.require name
    return .referenceTo name
  | .enum _ => return typed ScalarType.enumeration
  | .list element => do return arrayOf (← schemaOfType element) false
  | .set element => do return arrayOf (← schemaOfType element) true
  | .map _ value => do return mapOf (← schemaOfType value)
  | .scalar name => do
    match ScalarType.schemaOf? name with
    | some t => return typed t
    | none =>
      Building.note (.unknownScalar name)
      return untyped

/-! ## Fields -/

/-- How notices name a field. -/
def fieldOwner (s : StructDesc) (f : FieldDesc) : Text :=
  s.name ++ "." ++ f.name

/-- Lays the payload of a field over its schema; a reference stays as it is. -/
def overlayProperty (schema : Object) (s : StructDesc) (f : FieldDesc) : Building Object := do
  if schema.kind = .schema then
    return schema.overlay?
      (← Building.payload? f.annotations Annotation.propertyKey .schema (fieldOwner s f))
  else return schema

/-- The schema of a field as a property. -/
def propertyOf (s : StructDesc) (f : FieldDesc) : Building Object := do
  let schema ← schemaOfType f.type
  if schema.kind = .schema then
    overlayProperty (schema.set .description (description f.comment)) s f
  else return schema

/-- The name under which a field takes part in a placement; every field takes part where no
    placement is asked for. -/
def placedName? (placement : Option Text) (f : FieldDesc) : Option Text :=
  match placement with
  | none => some f.name
  | some key =>
    if f.annotations.has key then some (Config.firstText (f.annotations.first? key) f.name)
    else none

/-- The properties of the fields that take part in a placement, and the names of the required ones;
    `required` holds names that are required whatever their fields say. -/
def placedProperties (s : StructDesc) (placement : Option Text) (required : List Text) :
    List FieldDesc → Table Object → List Text → Building (Table Object × List Text)
  | [], properties, names => return (properties, names)
  | f :: rest, properties, names => do
    match placedName? placement f with
    | none => placedProperties s placement required rest properties names
    | some name =>
      let names := if name ∈ required ∨ f.required then names ++ [name] else names
      let property ← propertyOf s f
      placedProperties s placement required rest (properties.insert name property) names

/-! ## Structs -/

/-- The schema payload of a struct. -/
def structPayload? (s : StructDesc) : Building (Option Object) :=
  Building.payload? s.annotations Annotation.schemaKey .schema s.name

/-- The schema of the fields of a struct that take part in a placement. -/
def schemaOfFields (s : StructDesc) (placement : Option Text) : Building Object := do
  let payload ← structPayload? s
  let required := (payload.map (·.texts .required)).getD []
  let (properties, names) ← placedProperties s placement required s.fields [] []
  let schema : Object := .build .schema [(.type, .text "object"), (.properties, .table properties)]
  return (schema.overlay? payload).set .required (.texts names)

/-- The schema of a struct as a component. -/
def componentOf (s : StructDesc) : Building Object := do
  let (properties, names) ← placedProperties s none [] s.fields [] []
  let schema : Object := .build .schema [(.type, .text "object"),
    (.description, description s.comment), (.properties, .table properties)]
  let payload ← structPayload? s
  let more := (payload.map (·.texts .required)).getD []
  return (schema.overlay? payload).set .required (.texts (more.foldl Text.insertNew names))

/-- Registers the component of a struct. -/
def expand (s : StructDesc) : Building Unit := do
  Building.note (.expandingStruct s.name)
  Building.register s.name (← componentOf s)

/-- Registers the components of all names that have been required. -/
def expandRequired (file : FileDesc) : (bound : Nat) → Building Unit
  | 0 => return ()
  | bound + 1 => do
    let (name, registry) := (← get).registry.next?
    Building.update fun _ => registry
    match name with
    | none => return ()
    | some name =>
      match file.findStruct name with
      | none => Building.note (.structNotFound name)
      | some s => expand s
      expandRequired file bound

/-- The names of the structs that a type refers to. -/
def structNames : TypeDesc → List Text
  | .struct name => [name]
  | .list e => structNames e
  | .set e => structNames e
  | .map _ v => structNames v
  | .scalar _ | .enum _ => []

/-- The names of the structs that the structs of a file refer to. -/
def referredStructs (file : FileDesc) : List Text :=
  file.structs.flatMap fun e => e.2.fields.flatMap fun f => structNames f.type

/-- Registers the components of all names that have been required, and of those that they
    require. -/
def expandAll (file : FileDesc) : Building Unit := do
  expandRequired file ((← get).registry.queue.length + (referredStructs file).length + 1)

end IdlBridge.Generation
