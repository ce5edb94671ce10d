import IdlBridge.OpenApi.Object

/-! # Registries of component schemas

    The component schemas of a document and the names that still have to be looked at. A name is
    queued when it is first required, and a schema is registered once: later schemas of its name
    are dropped.
-/

namespace IdlBridge.OpenApi

/-- The registered schemas, the names that wait, and all names that have been required. -/
structure Registry (α : Type) where
  schemas : Table α
  queue : List Text
  required : List Text

namespace Registry

variable {α : Type}

/-- The registry without schemas. -/
def empty : Registry α := ⟨[], [], []⟩

/-- Requires a name. -/
def require (r : Registry α) (name : Text) : Registry α :=
  if name ∈ r.required then r
  else { r with queue := r.queue ++ [name], required := r.required ++ [name] }

/-- Registers a schema, and tells whether it has been kept. -/
def add (r : Registry α) (name : Text) (schema : α) : Bool × Registry α :=
  if r.schemas.has name then (false, r)
  else (true, { r with schemas := r.schemas ++ [(name, schema)] })

/-- The first name that waits and has no schema; the names before it wait no longer. -/
def next? (r : Registry α) : Option Text × Registry α :=
  match r.queue.dropWhile fun name => r.schemas.has name with
  | [] => (none, { r with queue := [] })
  | name :: rest => (some name, { r with queue := rest })

end Registry

/-- What references to component schemas start with. -/
def schemaLead : Text := "#/components/schemas/"

namespace Object

/-- A reference to the component schema of a name. -/
def referenceTo (name : Text) : Object :=
  .build .reference [(.ref, .text (schemaLead ++ name))]

end Object

end IdlBridge.OpenApi
