import IdlBridge.Draft.FromSchema
import IdlBridge.Route

/-! # Drafts from documents

    The component schemas of a document become declarations of the file, its operations become
    methods. The first tag of an operation names its service. The parameters and the body of an
    operation make up a request message, the headers and the content of each response a response
    message; where several responses have content, a further message holds one field for each.
    An operation without a message uses `emptyType`.
-/

namespace IdlBridge.Draft

/-- The message without fields. -/
def emptyType : Text := "google.protobuf.Empty"

/-- The file that declares `emptyType`. -/
def emptyImport : Text := "google/protobuf/empty.proto"

/-- The file that declares the options of routes. -/
def routeOptionsImport : Text := "api.proto"

/-- The file that declares the options of operations. -/
def operationOptionsImport : Text := "openapi.proto"

/-- The option that carries the description of an operation. -/
def operationOption : Text := "openapi.operation"

/-- The verbs of operations in the order in which a path is read. -/
def verbs : List Text :=
  ["get", "put", "post", "delete", "options", "head", "patch", "trace"]

/-- The options that bind a method to a verb and a path. -/
def routeOptions : Table Text :=
  [("get", "api.get"), ("post", "api.post"), ("put", "api.put"), ("patch", "api.patch"),
   ("delete", "api.delete")]

/-- The keys of an operation that its option carries. -/
def describedKeys : List Text :=
  ["operationId", "summary", "description", "tags", "deprecated"]

/-- Which options are attached to methods. -/
structure OptionChoice where
  operations : Bool := false
  routes : Bool := true

namespace Conversion

/-! ## Looking into data -/

/-- The value of a key; null where the key is missing. -/
def part (es : Value.Entries) (key : Text) : Value :=
  (es.get? (.text key)).getD .null

/-- The entries of a mapping; data that counts as missing has none. -/
def entries (v : Value) : Conversion Value.Entries :=
  match v with
  | .map es => return es
  | v => if v.isTruthy then refuse else return []

/-- The entries of data that has to be a mapping. -/
def mapping (v : Value) : Conversion Value.Entries :=
  match v with
  | .map es => return es
  | _ => refuse

/-- The schema of a media type, a header or a parameter, if it has one. -/
def schemaOf (holder : Value.Entries) : Option Spec.Schema :=
  let v := part holder "schema"
  if v.isTruthy then some (.ofValue v) else none

/-! ## Names -/

/-- The first of the tags. -/
def firstTag (tags : Value) : Conversion Name :=
  if !tags.isTruthy then return .text Naming.defaultService
  else
    match tags with
    | .list (t :: _) => return t
    | .text (c :: _) => return .text [c]
    | .bytes (b :: _) => return .int b
    | .map es =>
      match Value.Entries.get? es (.int 0) with
      | some t => return t
      | none => refuse
    | _ => refuse

/-- The name of the method of an operation. -/
def methodName (id : Value) (verb : Text) : Name :=
  if id.isTruthy then id else .text (Naming.methodForVerb verb)

/-! ## Messages -/

/-- Converts a schema and adds what it becomes to a message. -/
def include_ (m : Message) (name : Name) (s : Spec.Schema) : Conversion Message := do
  let (piece, holder) ← Piece.ofSchema s name (some m)
  return piece.addTo (holder.getD m)

/-- Uses the message without fields. -/
def useEmpty : Conversion Text := do
  update fun f => f.addImport emptyImport
  return emptyType

/-- Adds the schemas of holders, entry by entry; `name` names each of them by its key. -/
def addHolders (name : Text → Text) : List (Value × Value) → Message → Conversion Message
  | [], m => return m
  | (key, holder) :: rest, m => do
    match schemaOf (← entries holder) with
    | none => addHolders name rest m
    | some s =>
      let key ← textual key
      let m ← include_ m (.text (name key)) s
      addHolders name rest m

/-- Adds the schemas of parameters. -/
def addParameters : List Value → Message → Conversion Message
  | [], m => return m
  | p :: rest, m => do
    let es ← mapping p
    match schemaOf es with
    | none => addParameters rest m
    | some s =>
      let name ← textual (part es "name")
      let m ← within .parameter (.text name) (include_ m (.text (Naming.fieldName name)) s)
      addParameters rest m

/-- Adds the schemas of the parameters of an operation. -/
def addParametersOf (parameters : Value) (m : Message) : Conversion Message :=
  match parameters with
  | .list ps => addParameters ps m
  | v => if v.isTruthy then refuse else return m

/-- Declares a message unless it is empty; `none` if it is. -/
def declare (m : Message) : Conversion (Option Name) := do
  if m.isEmpty then return none
  update fun f => f.addMessage m
  return some m.name

/-- The type of the request of an operation. -/
def request (operation : Value.Entries) (method : Name) : Conversion (Option Text) := do
  let body := part operation "requestBody"
  let parameters := part operation "parameters"
  if !body.isTruthy ∧ !parameters.isTruthy then return some (← useEmpty)
  let name := (← textual method) ++ "Request"
  let content ← entries (part (← entries body) "content")
  let m ← addHolders (fun mediaType => Naming.camel (name ++ mediaType)) content
    { name := .text name }
  let m ← addParametersOf parameters m
  return (← declare m).map fun _ => name

/-- The message of one response. -/
def responseMessage (status : Text) (response : Value.Entries) (method : Text) :
    Conversion (Option Text) := do
  let name := method ++ "Response_" ++ status
  let m ← addHolders Naming.fieldName (← entries (part response "headers")) { name := .text name }
  let m ← addHolders Naming.camel (← entries (part response "content")) m
  return (← declare m).map fun _ => name

/-- Adds a field for each response that has content. -/
def addResponses (method : Text) : List (Value × Value) → Message → Conversion Message
  | [], m => return m
  | (status, response) :: rest, m => do
    let es ← entries response
    if !(part es "content").isTruthy then addResponses method rest m
    else
      let status ← shown status
      let m :=
        match ← responseMessage status es method with
        | none => m
        | some type => m.addField { name := .text ("response_" ++ status), type }
      addResponses method rest m

/-- The type of the response of an operation. -/
def response (operation : Value.Entries) (method : Name) : Conversion (Option Name) := do
  match ← entries (part operation "responses") with
  | [] => return none
  | [(status, r)] =>
    let es ← entries r
    if !(part es "content").isTruthy then return some (.text (← useEmpty))
    else
      -- The message of a single response is the type itself.
      let name ← responseMessage (← shown status) es (← shown method)
      return name.map .text
  | responses =>
    -- Of several responses each that has content becomes a field.
    let m ← addResponses (← shown method) responses { name := method }
    if m.fields.isEmpty then return some (.text (← useEmpty))
    update fun f => f.addMessage m
    return some method

/-! ## Options -/

/-- The option that binds a method to its path. -/
def routeSettings (choice : OptionChoice) (path : Value) (verb : Text) :
    Conversion (List Setting) := do
  match routeOptions.get? verb with
  | some name =>
    if choice.routes then return [⟨name, .text (Route.bracesToColons (← textual path))⟩]
    else return []
  | none => return []

/-- The option that describes an operation. -/
def operationSettings (choice : OptionChoice) (operation : Value.Entries) :
    Conversion (List Setting) := do
  if !choice.operations then return []
  let details := describedKeys.filterMap fun key =>
    let v := part operation key
    if v.isTruthy then some (.text key, v) else none
  if details.isEmpty then return []
  match Literal.ofValue (.map details) with
  | .ok l => return [⟨operationOption, l⟩]
  | .error (.kind name) => throw (.noLiteral name)
  | .error .key => refuse

/-! ## Documents -/

/-- The type of a message, if there is one, else that of the message without fields. -/
def orEmpty (type : Option Name) : Conversion Name :=
  match type with
  | some type => return type
  | none => Value.text <$> useEmpty

/-- The type of a request, if there is one, else that of the message without fields. -/
def orEmptyText (type : Option Text) : Conversion Text :=
  match type with
  | some type => return type
  | none => useEmpty

/-- Makes sure that there is a service of a name, and gives its place. -/
def openService (name : Name) : Conversion Nat := do
  let place := (← get).file.placeOf name
  update fun f => f.addService name
  return place

/-- Adds the method of an operation to the service at a place. -/
def declareMethod (choice : OptionChoice) (path : Value) (verb : Text) (operation : Value.Entries)
    (place : Nat) (method : Name) (input : Option Text) (output : Option Name) :
    Conversion Unit := do
  let input ← orEmptyText input
  let output ← orEmpty output
  let route ← routeSettings choice path verb
  let details ← operationSettings choice operation
  update fun f =>
    f.appendMethod place { name := method, input, output, settings := route ++ details }

/-- Converts an operation. -/
def addOperation (choice : OptionChoice) (path : Value) (verb : Text) (operation : Value.Entries) :
    Conversion Unit := do
  let service ← firstTag (part operation "tags")
  let place ← openService service
  let method := methodName (part operation "operationId") verb
  note (.convertingOperation (Text.upperAscii verb) ((path.display?).getD [])
    ((service.display?).getD []) ((method.display?).getD []))
  let input ← within .request method (request operation method)
  let output ← within .response method (response operation method)
  let draft := (← get).file
  if draft.services[place]?.any (·.hasMethod method) then return ()
  else declareMethod choice path verb operation place method input output

/-- Converts the operations of a path. -/
def addPathItem (choice : OptionChoice) (path : Value) (item : Value.Entries) :
    List Text → Conversion Unit
  | [] => return ()
  | verb :: rest => do
    match part item verb with
    | .null => addPathItem choice path item rest
    | operation =>
      addOperation choice path verb (← mapping operation)
      addPathItem choice path item rest

/-- Converts the paths of a document. -/
def addPaths (choice : OptionChoice) : List (Value × Value) → Conversion Unit
  | [] => return ()
  | (path, item) :: rest => do
    addPathItem choice path (← mapping item) verbs
    addPaths choice rest

/-- Declares what a component schema has become. -/
def declareComponent (name : Name) : Piece → File → File
  | .enum e, f => f.addEnum e
  | .field fd, f => f.addMessage { name, fields := [fd] }
  | .message m, f => f.addMessage m

/-- Converts component schemas. -/
def addComponents : List (Value × Value) → Conversion Unit
  | [] => return ()
  | (name, schema) :: rest => do
    note (.convertingSchema ((name.display?).getD []))
    let (piece, _) ← within .component name (Piece.ofSchema (.ofValue schema) name none)
    update (declareComponent name piece)
    addComponents rest

/-- Imports a file if it is wanted. -/
def importIf (wanted : Bool) (path : Text) : Conversion Unit :=
  if wanted then update fun f => f.addImport path else return ()

/-- Converts a document. -/
def addDocument (choice : OptionChoice) (doc : Value) : Conversion Unit := do
  let doc ← mapping doc
  let components ← entries (part doc "components")
  addComponents (← entries (part components "schemas"))
  addPaths choice (← entries (part doc "paths"))
  importIf choice.operations operationOptionsImport
  importIf choice.routes routeOptionsImport

/-- The package that a document asks for: its title, with underscores for spaces. -/
def packageOf (doc : Value) : Conversion Text := do
  let info ← entries (part (← mapping doc) "info")
  let title := part info "title"
  if title.isTruthy then return Text.replaceChar ' ' "_" (← textual title) else return []

end Conversion

/-- The draft of a document; its package is the document's own where none is given. -/
def ofDocument (choice : OptionChoice) (package : Option Text) (doc : Value) :
    Except ConvertError File × List Notice :=
  let convert : Conversion Unit := do
    let package ← match package with | some p => pure p | none => Conversion.packageOf doc
    Conversion.update fun f => { f with package }
    Conversion.addDocument choice doc
  let (r, progress) := convert.run.run ⟨{ package := [] }, []⟩
  (r.map fun _ => progress.file, progress.notices)

end IdlBridge.Draft
