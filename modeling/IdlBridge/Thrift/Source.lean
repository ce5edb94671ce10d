import IdlBridge.Text.Table

/-! # Declarations of a Thrift source

    What a source declares, in the order in which it is written. Types are names that nobody has
    looked up yet, and constants are kept by name only. Annotations are pairs of a key and a text;
    a key may be given more than once.
-/

namespace IdlBridge.Thrift

/-- The annotations of a declaration. -/
abbrev Annotations := List (Text × Text)

/-- A reference to a type: a name, or a container with its element types (key and value for a
    map). -/
structure TypeRef where
  name : Text
  args : List TypeRef
  annotations : Annotations

/-- Whether a field must be given. -/
inductive Requiredness where
  | unmarked
  | required
  | optional
deriving DecidableEq

namespace Requiredness

/-- The word that marks a field. -/
def text : Requiredness → Text
  | .unmarked => ""
  | .required => "required"
  | .optional => "optional"

end Requiredness

/-- A field, an argument or an exception of a function. -/
structure Field where
  name : Text
  type : TypeRef
  id : Option Int
  requiredness : Requiredness
  annotations : Annotations
  comment : Text

/-- The three declarations that hold fields. -/
inductive StructKind where
  | struct
  | union
  | exception
deriving DecidableEq

namespace StructKind

/-- The word that starts the declaration. -/
def text : StructKind → Text
  | .struct => "struct"
  | .union => "union"
  | .exception => "exception"

end StructKind

/-- A struct, a union or an exception. -/
structure Struct where
  name : Text
  kind : StructKind
  fields : List Field
  annotations : Annotations
  comment : Text

/-- A value of an enumeration. -/
structure EnumValue where
  name : Text
  value : Int

/-- An enumeration. -/
structure Enum where
  name : Text
  values : List EnumValue
  annotations : Annotations
  comment : Text

/-- Another name for a type. -/
structure Typedef where
  name : Text
  type : TypeRef
  annotations : Annotations

/-- A function of a service; one without a result type returns nothing. -/
structure Function where
  name : Text
  result : Option TypeRef
  arguments : List Field
  throws : List Field
  oneway : Bool
  annotations : Annotations
  comment : Text

/-- A service. -/
structure Service where
  name : Text
  parent : Option Text
  functions : List Function
  annotations : Annotations
  comment : Text

/-- A source file. `namespaces` holds one entry for each scope. -/
structure Document where
  includes : List Text
  namespaces : Table Text
  typedefs : List Typedef
  constants : List Text
  enums : List Enum
  structs : List Struct
  services : List Service

namespace Document

/-- A document without declarations. -/
def empty : Document := ⟨[], [], [], [], [], [], []⟩

end Document

end IdlBridge.Thrift
