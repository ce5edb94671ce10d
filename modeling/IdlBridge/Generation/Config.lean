import IdlBridge.Text.Quoted

/-! # Settings of a generated document

    How methods become operations, and what the document says of itself. A text that is missing or
    empty is filled in: from the annotation of the document, from the only tag, and at last from
    the defaults below.
-/

namespace IdlBridge.Generation

/-- How methods become operations. -/
inductive Mode where
  /-- Verbs, paths and the places of fields come from annotations. -/
  | http
  /-- Every method is a post of all its fields under its name. -/
  | rpc
deriving DecidableEq

namespace Mode

/-- The mode of a name. -/
def ofName? (name : Text) : Option Mode :=
  if name = "http" then some .http else if name = "rpc" then some .rpc else none

/-- What is said about a name that is no mode. -/
def unknownMessage (name : Text) : Text :=
  "unknown generator mode: " ++ name.quoted

end Mode

/-- The version of OpenAPI that is generated. -/
def openapiVersion : Text := "3.0.3"

/-- The settings of a generated document. -/
structure Config where
  mode : Mode := .http
  title : Option Text := none
  description : Option Text := none
  version : Option Text := none
  openapiVersion : Text := openapiVersion
  serverUrl : Option Text := none

namespace Config

/-- The first text that is not empty. -/
def firstText (t : Option Text) (otherwise : Text) : Text :=
  match t with
  | some t => if t = [] then otherwise else t
  | none => otherwise

/-- The place of the server of a document that declares none. -/
def fallbackServer (c : Config) : Text :=
  firstText c.serverUrl <|
    match c.mode with
    | .http => "http://127.0.0.1:8888"
    | .rpc => "http://127.0.0.1:8080"

/-- The title of a document without one. -/
def defaultTitle : Text := "API generated by swagger-idl"

/-- The description of a document without one. -/
def defaultDescription : Text := "API description"

/-- The version of a document without one. -/
def defaultVersion : Text := "0.0.1"

end Config

end IdlBridge.Generation
