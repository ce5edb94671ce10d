import IdlBridge.Annotation

/-! # Descriptors

    An interface definition after its names have been resolved. The type of a field names the
    struct or the enumeration it refers to; the declaration itself is looked up in the tables of
    the file, which hold everything reachable through includes and imports.
-/

namespace IdlBridge

/-- A resolved type. -/
inductive TypeDesc where
  | scalar (name : Text)
  | struct (name : Text)
  | enum (name : Text)
  | list (element : TypeDesc)
  | set (element : TypeDesc)
  | map (key value : TypeDesc)
deriving DecidableEq

/-- A field of a struct. -/
structure FieldDesc where
  name : Text
  type : TypeDesc
  annotations : Annotations
  comment : Text
  required : Bool
deriving DecidableEq

/-- A struct or a message. -/
structure StructDesc where
  name : Text
  fields : List FieldDesc
  annotations : Annotations
  comment : Text
deriving DecidableEq

/-- An enumeration; a value name that is declared again takes the later number. -/
structure EnumDesc where
  name : Text
  values : Table Int
  comment : Text
deriving DecidableEq

/-- A method of a service, with the structs it takes and returns. -/
structure MethodDesc where
  name : Text
  request : Option StructDesc
  response : Option StructDesc
  annotations : Annotations
  comment : Text
deriving DecidableEq

/-- A service. -/
structure ServiceDesc where
  name : Text
  methods : List MethodDesc
  annotations : Annotations
  comment : Text
deriving DecidableEq

/-- A resolved file. `structs` and `enums` also hold what is reachable through includes and
    imports; `localStructs` names the structs that the file itself declares. -/
structure FileDesc where
  path : Text
  package : Text
  services : List ServiceDesc
  structs : Table StructDesc
  enums : Table EnumDesc
  localStructs : List Text
deriving DecidableEq

namespace FileDesc

/-- The struct of a name. -/
def findStruct (f : FileDesc) (name : Text) : Option StructDesc :=
  f.structs.get? name

/-- The first service of a name. -/
def findService (f : FileDesc) (name : Text) : Option ServiceDesc :=
  f.services.find? (·.name = name)

end FileDesc

end IdlBridge
