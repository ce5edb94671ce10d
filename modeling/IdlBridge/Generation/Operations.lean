import IdlBridge.Generation.Placement
import IdlBridge.Generation.Schemas
import IdlBridge.OpenApi.Servers

/-! # Operations of methods

    The operation that a method becomes under a verb. In the `http` mode its fields go where their
    annotations put them; in the `rpc` mode all of them are the body. The schemas of bodies of
    responses are components, those of requests are written in place.
-/

namespace IdlBridge.Generation

open OpenApi

/-! ## Content -/

/-- The media type of structured bodies. -/
def jsonType : Text := "application/json"

/-- The media types of forms. -/
def formTypes : List Text := ["multipart/form-data", "application/x-www-form-urlencoded"]

/-- The media type of plain bodies. -/
def plainType : Text := "text/plain"

/-- The content of a schema under media types; a schema without properties is no content. -/
def contentOf (types : List Text) (schema : Object) : Table Object :=
  if (schema.table .properties).isEmpty then []
  else types.map fun t => (t, .build .mediaType [(.schema, .object schema)])

/-- A table, or null if it is empty. -/
def tableOrNull (es : Table Object) : Slot :=
  if es.isEmpty then .null else .table es

/-! ## Requests -/

/-- The parameter that every call takes. -/
def metaParameter : Object :=
  .build .parameter [(.name, .text "ttheader"), (.location, .text "query"),
    (.description, .text "metainfo for request"),
    (.schema, .object (.build .schema [(.type, .text "object")]))]

/-- The parameter that a field is. -/
def parameterOf (s : StructDesc) (f : FieldDesc) (name location : Text) : Building Object := do
  let schema ← overlayProperty (← schemaOfType f.type) s f
  let parameter : Object := .build .parameter [(.name, .text name), (.location, .text location),
    (.description, description f.comment),
    (.required, if location = pathLocation then .flag true else .null), (.schema, .object schema)]
  return parameter.overlay?
    (← Building.payload? f.annotations Annotation.parameterKey .parameter (fieldOwner s f))

/-- The parameters among the fields of a struct. -/
def parametersOf (s : StructDesc) : List FieldDesc → Building (List Object)
  | [] => return []
  | f :: rest => do
    match parameterPlace? f with
    | none => parametersOf s rest
    | some (name, location) =>
      let p ← parameterOf s f name location
      return p :: (← parametersOf s rest)

/-- The body with some content; there is none without. -/
def bodyWith? (s : StructDesc) (content : Table Object) : Option Object :=
  if content.isEmpty then none
  else some (.build .requestBody
    [(.description, description s.comment), (.content, .table content)])

/-- The body of a request. -/
def requestBodyOf (s : StructDesc) : Building (Option Object) := do
  let body ← schemaOfFields s (some bodyKey)
  let form ← schemaOfFields s (some formKey)
  let raw ← schemaOfFields s (some rawBodyKey)
  return bodyWith? s
    (contentOf [jsonType] body ++ contentOf formTypes form ++ contentOf [plainType] raw)

/-- The verbs whose requests have no body. -/
def bodilessVerbs : List Text :=
  ["GET", "HEAD", "DELETE"]

/-- The parameters and the body of a request. -/
def requestOf (mode : Mode) (request : Option StructDesc) (verb : Text) :
    Building (List Object × Option Object) := do
  match mode, request with
  | .rpc, none => return ([metaParameter], none)
  | .rpc, some s =>
    let body ← schemaOfFields s none
    return ([metaParameter], bodyWith? s (contentOf [jsonType] body))
  | .http, none => return ([], none)
  | .http, some s =>
    let parameters ← parametersOf s s.fields
    if verb ∈ bodilessVerbs then return (parameters, none)
    else return (parameters, ← requestBodyOf s)

/-! ## Responses -/

/-- The status of the response. -/
def okStatus : Text := "200"

/-- What a response says of itself where its struct says nothing. -/
def defaultResponse : Text := "Successful response"

/-- The headers among the fields of a struct. -/
def headersOf : List FieldDesc → Table Object → Building (Table Object)
  | [], headers => return headers
  | f :: rest, headers => do
    match nonEmpty? f.annotations headerKey with
    | none => headersOf rest headers
    | some name =>
      let schema ← schemaOfType f.type
      headersOf rest (headers.insert name
        (.build .header [(.description, description f.comment), (.schema, .object schema)]))

/-- The content that refers to a schema as a component; the schema is registered, unless it has no
    properties. -/
def sharedContent (mediaType name : Text) (schema : Object) : Building (Table Object) := do
  if (schema.table .properties).isEmpty then return []
  else
    Building.register name schema
    return [(mediaType, .build .mediaType [(.schema, .object (.referenceTo name))])]

/-- The headers and the content of a response. -/
def responseParts (mode : Mode) (s : StructDesc) : Building (Table Object × Table Object) := do
  match mode with
  | .rpc =>
    let schema ← schemaOfFields s none
    return ([], ← sharedContent jsonType s.name schema)
  | .http =>
    let headers ← headersOf s.fields []
    let body ← sharedContent jsonType (s.name ++ "Body") (← schemaOfFields s (some bodyKey))
    let raw ← sharedContent plainType (s.name ++ "RawBody") (← schemaOfFields s (some rawBodyKey))
    return (headers, body ++ raw)

/-- The response that a struct becomes. -/
def responseOf (mode : Mode) (response : Option StructDesc) : Building Object := do
  match response with
  | none => return .build .response [(.description, .text defaultResponse)]
  | some s =>
    let (headers, content) ← responseParts mode s
    return .build .response [
      (.description,
        .text (Config.firstText (some (Remark.description s.comment)) defaultResponse)),
      (.headers, tableOrNull headers), (.content, tableOrNull content)]

/-! ## Operations -/

/-- Puts a scheme before a host that has none. -/
def withScheme (host : Text) : Text :=
  if Text.startsWith host "http://" || Text.startsWith host "https://" then host
  else "http://" ++ host

/-- The server that a method is declared to have. -/
def declaredServer? (s : ServiceDesc) (m : MethodDesc) : Option Text :=
  (nonEmpty? m.annotations baseUrlKey).or (nonEmpty? s.annotations baseDomainKey)

/-- How notices name a method. -/
def methodOwner (s : ServiceDesc) (m : MethodDesc) : Text :=
  s.name ++ "." ++ m.name

/-- The operation that a method becomes under a verb. -/
def operationOf (mode : Mode) (s : ServiceDesc) (m : MethodDesc) (verb : Text) :
    Building Object := do
  let (parameters, body) ← requestOf mode m.request verb
  let response ← responseOf mode m.response
  let operation : Object := .build .operation [(.tags, .texts [s.name]),
    (.description, description m.comment), (.operationId, .text (s.name ++ "_" ++ m.name)),
    (.parameters, .objects parameters), (.requestBody, .ofObject? body),
    (.responses, .table [(okStatus, response)])]
  return match declaredServer? s m with
  | some host => operation.withServer (withScheme host)
  | none => operation

end IdlBridge.Generation
