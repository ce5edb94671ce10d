import IdlBridge.Value.Basic

/-! # Declarations of a Protocol Buffers source

    What a source declares, in the order in which it is written. Types are names that nobody has
    looked up yet. Custom options are kept under their name without parentheses; an aggregate is
    a mapping.
-/

namespace IdlBridge.Proto

/-- An option of a declaration: its name and its constant. -/
structure Setting where
  name : Text
  value : Value

/-- A field. For a map field `typeName` is the type of its values and `mapKey` that of its keys. -/
structure Field where
  typeName : Text
  name : Text
  number : Int
  repeated : Bool
  mapKey : Option Text
  oneof : Option Text
  options : List Setting
  comment : Text

/-- A value of an enumeration. -/
structure EnumValue where
  name : Text
  number : Int
  options : List Setting

/-- An enumeration. -/
structure Enum where
  name : Text
  values : List EnumValue
  options : List Setting
  comment : Text

/-- A message with the messages and enumerations declared inside it. -/
structure Message where
  name : Text
  fields : List Field
  messages : List Message
  enums : List Enum
  options : List Setting
  comment : Text

/-- A remote procedure. -/
structure Rpc where
  name : Text
  input : Text
  output : Text
  clientStreaming : Bool
  serverStreaming : Bool
  options : List Setting
  comment : Text

/-- A service. -/
structure Service where
  name : Text
  rpcs : List Rpc
  options : List Setting
  comment : Text

/-- A source file. -/
structure File where
  syntaxName : Text
  package : Text
  imports : List Text
  options : List Setting
  messages : List Message
  enums : List Enum
  services : List Service

namespace File

/-- A file without declarations. -/
def empty : File := ⟨"proto3", [], [], [], [], [], []⟩

end File

end IdlBridge.Proto
