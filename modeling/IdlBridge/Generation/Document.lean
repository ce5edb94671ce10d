import IdlBridge.Generation.Operations
import IdlBridge.OpenApi.PathItem
import IdlBridge.Route
import IdlBridge.Yaml.Printer

/-! # Documents of files

    The document of a reflected file: what its annotation says of it, an operation for each binding
    of its methods, a tag for each service with operations, and the components that the operations
    refer to. Then servers are moved up, what the document still lacks is filled in, and tags,
    paths and components are sorted.
-/

namespace IdlBridge.Generation

open OpenApi

/-! ## The document itself -/

/-- The information of a document. -/
def infoOf (doc : Object) : Object :=
  (doc.object? .info).getD (.empty .info)

/-- The document before anything is known but the settings. -/
def blankDocument (c : Config) : Object :=
  .build .document [(.openapi, .text c.openapiVersion),
    (.info, .object (.build .info [(.title, .text (c.title.getD [])),
      (.description, .ofText? c.description), (.version, .text (c.version.getD []))]))]

/-- The name and the annotations of what carries the annotation of the document: the first service
    with one, else the first struct of the file itself. -/
def documentOwner? (file : FileDesc) : Option (Text × Annotations) :=
  let services := file.services.map fun s => (s.name, s.annotations)
  let structs := (file.localStructs.filterMap file.findStruct).map fun s => (s.name, s.annotations)
  (services ++ structs).find? fun o => o.2.has Annotation.documentKey

/-- Gives a member the text of a setting unless that is missing or empty. -/
def prefer (t : Option Text) (m : Member) (o : Object) : Object :=
  match t.filter (· ≠ []) with
  | some t => o.set m (.text t)
  | none => o

/-- The document with what its settings say. -/
def applySettings (c : Config) (doc : Object) : Object :=
  let info := infoOf doc
    |> prefer c.title .title
    |> prefer c.description .description
    |> prefer c.version .version
  (doc.set .info (.object info)).set .openapi (.text c.openapiVersion)

/-- The document before operations are added: the settings over the annotation. -/
def openingDocument (c : Config) (file : FileDesc) : Building Object := do
  let doc := blankDocument c
  match documentOwner? file with
  | none => return doc
  | some (name, annotations) =>
    match ← Building.payload? annotations Annotation.documentKey .document name with
    | none => return doc
    | some payload => return applySettings c (doc.overlay payload)

/-! ## Bindings -/

/-- A verb and a path that a method is bound to. -/
structure Binding where
  verb : Text
  path : Text
deriving DecidableEq

/-- The binding to every verb, which no operation can express. -/
def everyVerb : Text := "ANY"

/-- The key of the binding to every verb. -/
def everyVerbKey : Text := "api.any"

/-- The bindings of a method. -/
def bindingsOf (mode : Mode) (m : MethodDesc) : List Binding :=
  match mode with
  | .rpc => [⟨"POST", "/" ++ m.name⟩]
  | .http => Annotation.verbs.filterMap fun e =>
      (m.annotations.first? e.1).map fun path => ⟨e.2, path⟩

/-- Puts an operation under a path. -/
def putOperation (path verb : Text) (op : Object) (doc : Object) : Object :=
  let paths := doc.table .paths
  let item := (paths.get? path).getD (.empty .pathItem)
  doc.set .paths (.table (paths.insert path ((item.setOperation? verb op).getD item)))

/-- Adds the operation of a binding to a document. -/
def addBinding (mode : Mode) (s : ServiceDesc) (m : MethodDesc) (b : Binding) (doc : Object) :
    Building Object := do
  let owner := methodOwner s m
  if b.verb = everyVerb then
    Building.note (.noSingleVerb everyVerbKey owner)
    return doc
  else
    Building.note (.buildingOperation b.verb b.path owner)
    let op ← operationOf mode s m b.verb
    let op := op.overlay?
      (← Building.payload? m.annotations Annotation.operationKey .operation owner)
    return putOperation (Route.colonsToBraces b.path) b.verb op doc

/-- The methods of a service with their bindings, as they are written. -/
def boundMethods (mode : Mode) (s : ServiceDesc) : List (MethodDesc × Binding) :=
  s.methods.flatMap fun m => (bindingsOf mode m).map fun b => (m, b)

/-- Gives a document a tag for a service with operations. -/
def addTag (mode : Mode) (s : ServiceDesc) (doc : Object) : Object :=
  if (boundMethods mode s).any (·.2.verb ≠ everyVerb) then
    doc.set .tags (.objects (doc.objects .tags ++
      [.build .tag [(.name, .text s.name), (.description, description s.comment)]]))
  else doc

/-- Adds the operations of a service and its tag to a document. -/
def addService (mode : Mode) (doc : Object) (s : ServiceDesc) : Building Object := do
  let doc ← (boundMethods mode s).foldlM (fun doc (m, b) => addBinding mode s m b doc) doc
  return addTag mode s doc

/-! ## Finishing -/

/-- Gives a member a text unless it has one that is not empty. -/
def fillIn (m : Member) (c : Slot) (o : Object) : Object :=
  if (o.text m).isEmpty then o.set m c else o

/-- Lets the only tag of a document speak for the document. -/
def promoteTag (doc : Object) : Object :=
  match doc.objects .tags with
  | [tag] =>
    let name := tag.text .name
    let info := infoOf doc
    let info := if name.isEmpty then info else fillIn .title (.text (name ++ " API")) info
    let info := fillIn .description (tag.get .description) info
    (doc.set .info (.object info)).set .tags (.objects [tag.set .description .null])
  | _ => doc

/-- Fills in what a document does not say of itself. -/
def fillInfo (doc : Object) : Object :=
  let info := infoOf doc
    |> fillIn .title (.text Config.defaultTitle)
    |> fillIn .description (.text Config.defaultDescription)
    |> fillIn .version (.text Config.defaultVersion)
  doc.set .info (.object info)

/-- Gives a document registered components, behind which its own ones of the same names stay. -/
def addComponents (schemas : Table Object) (doc : Object) : Object :=
  let components := (doc.object? .components).getD (.empty .components)
  let all := schemas.insertAll (components.table .schemas)
  doc.set .components (.object (components.set .schemas (.table all.sort)))

/-- Sorts the tags and the paths of a document. -/
def sortDocument (doc : Object) : Object :=
  let tags := (doc.objects .tags).mergeSort fun a b => Text.le (a.text .name) (b.text .name)
  (doc.set .tags (.objects tags)).set .paths (.table (doc.table .paths).sort)

/-- The document of a file. -/
def buildDocument (c : Config) (file : FileDesc) : Building Object := do
  let doc ← openingDocument c file
  let doc ← file.services.foldlM (addService c.mode) doc
  expandAll file
  let doc := (fillInfo (promoteTag doc)).hoistServers c.fallbackServer
  return addComponents (← get).registry.schemas (sortDocument doc)

/-- The document of a file, and the notices that it leaves behind those before. -/
def documentOf (c : Config) (file : FileDesc) : Noted GenerationError Object :=
  ExceptT.mk fun notices =>
    let (r, session) := (buildDocument c file).run.run ⟨.empty, notices⟩
    (r, session.notices)

/-- What a generated text starts with. -/
def heading : Text := "Generated with swagger-idl"

/-- A document as text. -/
def render? (doc : Object) : Option Text :=
  Yaml.print? heading doc.toValue

end IdlBridge.Generation
