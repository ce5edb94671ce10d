import IdlBridge.Draft.Literal
import IdlBridge.Value.Order

/-! # Drafts

    A Protocol Buffers file that is being put together. Declarations are kept in the order in which
    they are added, and of declarations with one name the first is kept; only messages at the top
    level are united, declaration by declaration.

    Names are data: a document may give a number where a name is expected, and it stays a number.
    Declarations inside messages are found by their names as keys, those at the top level and the
    methods of a service by comparing names, which never finds a name that is not a number.
-/

namespace IdlBridge.Draft

/-- The name of a declaration. -/
abbrev Name := Value

/-- A field of a message. -/
structure Field where
  name : Name
  type : Text
  repeated : Bool := false
  settings : List Setting := []

/-- A value of an enumeration. -/
structure EnumValue where
  name : Text
  number : Int

/-- An enumeration. -/
structure Enum where
  name : Text
  values : List EnumValue

/-- A message. -/
structure Message where
  name : Name
  fields : List Field := []
  messages : List Message := []
  enums : List Enum := []
  settings : List Setting := []

/-- A method of a service. -/
structure Method where
  name : Name
  input : Text
  output : Name
  settings : List Setting := []

/-- A service. -/
structure Service where
  name : Name
  methods : List Method := []

/-- A file. -/
structure File where
  package : Text
  imports : List Text := []
  settings : Table Value := []
  messages : List Message := []
  enums : List Enum := []
  services : List Service := []

/-! ## Adding without repetition -/

/-- Adds an item unless there is one with the same key. -/
def addNew {α : Type} (key : α → Name) (xs : List α) (x : α) : List α :=
  if xs.any fun y => (key y).same (key x) then xs else xs ++ [x]

/-- Adds items one after the other. -/
def addAllNew {α : Type} (key : α → Name) (xs new : List α) : List α :=
  new.foldl (addNew key) xs

/-- The name of an enumeration as data. -/
def Enum.key (e : Enum) : Name := .text e.name

/-- The name of an option as data. -/
def Setting.key (s : Setting) : Name := .text s.name

namespace Message

/-- Adds a field. -/
def addField (m : Message) (f : Field) : Message :=
  { m with fields := addNew Field.name m.fields f }

/-- Adds a nested message. -/
def addMessage (m : Message) (nested : Message) : Message :=
  { m with messages := addNew Message.name m.messages nested }

/-- Adds a nested enumeration. -/
def addEnum (m : Message) (e : Enum) : Message :=
  { m with enums := addNew Enum.key m.enums e }

/-- Unites two messages. -/
def merge (m other : Message) : Message :=
  { name := m.name
    fields := addAllNew Field.name m.fields other.fields
    messages := addAllNew Message.name m.messages other.messages
    enums := addAllNew Enum.key m.enums other.enums
    settings := addAllNew Setting.key m.settings other.settings }

/-- The message declares neither fields nor messages. -/
def isEmpty (m : Message) : Bool :=
  m.fields.isEmpty && m.messages.isEmpty

end Message

namespace Service

/-- The service has a method of a name. -/
def hasMethod (s : Service) (name : Name) : Bool :=
  s.methods.any fun m => m.name.equals name

end Service

namespace File

/-- Adds an import. -/
def addImport (f : File) (path : Text) : File :=
  { f with imports := Text.insertNew f.imports path }

/-- Adds a message to messages; one of its name is united with it. -/
def uniteInto : List Message → Message → List Message
  | [], m => [m]
  | m' :: rest, m => if m'.name.equals m.name then m'.merge m :: rest else m' :: uniteInto rest m

/-- Adds a message. -/
def addMessage (f : File) (m : Message) : File :=
  { f with messages := uniteInto f.messages m }

/-- Adds an enumeration. -/
def addEnum (f : File) (e : Enum) : File :=
  { f with enums := addNew Enum.key f.enums e }

/-- The message of a name. -/
def findMessage (f : File) (name : Name) : Option Message :=
  f.messages.find? fun m => m.name.equals name

/-- The service of a name. -/
def findService (f : File) (name : Name) : Option Service :=
  f.services.find? fun s => s.name.equals name

/-- Makes sure that there is a service of a name. -/
def addService (f : File) (name : Name) : File :=
  if (f.findService name).isSome then f else { f with services := f.services ++ [⟨name, []⟩] }

/-- The place of the service of a name, the end if there is none. -/
def placeOf (f : File) (name : Name) : Nat :=
  f.services.findIdx fun s => s.name.equals name

/-- Adds a method to the service at a place. -/
def appendMethod (f : File) (place : Nat) (m : Method) : File :=
  { f with services := f.services.modify place fun s => { s with methods := s.methods ++ [m] } }

/-- Adds a method to the service of a name, which is created if it is missing. -/
def addMethod (f : File) (service : Name) (m : Method) : File :=
  (f.addService service).appendMethod (f.placeOf service) m

end File

end IdlBridge.Draft
