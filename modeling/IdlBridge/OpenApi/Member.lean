import IdlBridge.Text.Basic

/-! # Members of OpenAPI objects

    Which members the objects of an OpenAPI document have: for each kind of object the members in
    the order in which they are written, each with what it may hold. A member is written under its
    `key`; a payload may also give it by `otherKey`.
-/

namespace IdlBridge.OpenApi

/-- The kinds of objects of a document. -/
inductive Kind where
  | reference
  | schema
  | parameter
  | mediaType
  | requestBody
  | header
  | response
  | server
  | tag
  | operation
  | pathItem
  | info
  | components
  | document
deriving DecidableEq

/-- The members that objects are known to have. -/
inductive Member where
  | ref
  | type
  | format
  | title
  | description
  | properties
  | items
  | additionalProperties
  | required
  | enum
  | default
  | example
  | nullable
  | readOnly
  | writeOnly
  | deprecated
  | uniqueItems
  | name
  | location
  | schema
  | content
  | headers
  | url
  | tags
  | summary
  | operationId
  | parameters
  | requestBody
  | responses
  | servers
  | get
  | put
  | post
  | delete
  | options
  | head
  | patch
  | termsOfService
  | contact
  | license
  | version
  | schemas
  | openapi
  | info
  | paths
  | components
deriving DecidableEq

namespace Member

/-- The key that a member is written under. -/
def key : Member → Text
  | .ref => "$ref"
  | .type => "type"
  | .format => "format"
  | .title => "title"
  | .description => "description"
  | .properties => "properties"
  | .items => "items"
  | .additionalProperties => "additionalProperties"
  | .required => "required"
  | .enum => "enum"
  | .default => "default"
  | .example => "example"
  | .nullable => "nullable"
  | .readOnly => "readOnly"
  | .writeOnly => "writeOnly"
  | .deprecated => "deprecated"
  | .uniqueItems => "uniqueItems"
  | .name => "name"
  | .location => "in"
  | .schema => "schema"
  | .content => "content"
  | .headers => "headers"
  | .url => "url"
  | .tags => "tags"
  | .summary => "summary"
  | .operationId => "operationId"
  | .parameters => "parameters"
  | .requestBody => "requestBody"
  | .responses => "responses"
  | .servers => "servers"
  | .get => "get"
  | .put => "put"
  | .post => "post"
  | .delete => "delete"
  | .options => "options"
  | .head => "head"
  | .patch => "patch"
  | .termsOfService => "termsOfService"
  | .contact => "contact"
  | .license => "license"
  | .version => "version"
  | .schemas => "schemas"
  | .openapi => "openapi"
  | .info => "info"
  | .paths => "paths"
  | .components => "components"

/-- The other key that a payload may give a member by. -/
def otherKey : Member → Text
  | .ref => "ref"
  | .additionalProperties => "additional_properties"
  | .readOnly => "read_only"
  | .writeOnly => "write_only"
  | .uniqueItems => "unique_items"
  | .location => "in_"
  | .schema => "schema_"
  | .operationId => "operation_id"
  | .requestBody => "request_body"
  | .termsOfService => "terms_of_service"
  | m => m.key

end Member

/-- What a member may hold. -/
inductive Shape where
  | text
  | flag
  /-- Any data. -/
  | data
  | texts
  /-- A list of any data. -/
  | dataList
  /-- A table of any data. -/
  | dataTable
  /-- A reference or a schema. -/
  | schema
  /-- A reference, a schema or a truth value. -/
  | schemaOrFlag
  /-- A table of references and schemas. -/
  | schemas
  | object (k : Kind)
  | objects (k : Kind)
  | table (k : Kind)
deriving DecidableEq

/-- What holds of a member that is not given. -/
inductive Presence where
  /-- It may be null, and it is if it is not given. -/
  | optional
  /-- It may not be null, and it is empty if it is not given. -/
  | defaulted
  /-- It has to be given. -/
  | required
deriving DecidableEq

/-- A member of a kind of objects. -/
structure MemberSpec where
  member : Member
  shape : Shape
  presence : Presence
deriving DecidableEq

namespace Kind

/-- The members of the objects of a kind, in the order in which they are written. -/
def members : Kind → List MemberSpec
  | .reference => [⟨.ref, .text, .required⟩]
  | .schema =>
    [⟨.type, .text, .optional⟩, ⟨.format, .text, .optional⟩, ⟨.title, .text, .optional⟩,
     ⟨.description, .text, .optional⟩, ⟨.properties, .schemas, .defaulted⟩,
     ⟨.items, .schema, .optional⟩, ⟨.additionalProperties, .schemaOrFlag, .optional⟩,
     ⟨.required, .texts, .defaulted⟩, ⟨.enum, .dataList, .defaulted⟩, ⟨.default, .data, .optional⟩,
     ⟨.example, .data, .optional⟩, ⟨.nullable, .flag, .optional⟩, ⟨.readOnly, .flag, .optional⟩,
     ⟨.writeOnly, .flag, .optional⟩, ⟨.deprecated, .flag, .optional⟩,
     ⟨.uniqueItems, .flag, .optional⟩]
  | .parameter =>
    [⟨.name, .text, .optional⟩, ⟨.location, .text, .optional⟩, ⟨.description, .text, .optional⟩,
     ⟨.required, .flag, .optional⟩, ⟨.deprecated, .flag, .optional⟩, ⟨.schema, .schema, .optional⟩,
     ⟨.example, .data, .optional⟩]
  | .mediaType => [⟨.schema, .schema, .optional⟩, ⟨.example, .data, .optional⟩]
  | .requestBody =>
    [⟨.description, .text, .optional⟩, ⟨.content, .table .mediaType, .defaulted⟩,
     ⟨.required, .flag, .optional⟩]
  | .header =>
    [⟨.description, .text, .optional⟩, ⟨.required, .flag, .optional⟩, ⟨.schema, .schema, .optional⟩]
  | .response =>
    [⟨.description, .text, .defaulted⟩, ⟨.headers, .table .header, .optional⟩,
     ⟨.content, .table .mediaType, .optional⟩]
  | .server => [⟨.url, .text, .defaulted⟩, ⟨.description, .text, .optional⟩]
  | .tag => [⟨.name, .text, .defaulted⟩, ⟨.description, .text, .optional⟩]
  | .operation =>
    [⟨.tags, .texts, .defaulted⟩, ⟨.summary, .text, .optional⟩, ⟨.description, .text, .optional⟩,
     ⟨.operationId, .text, .optional⟩, ⟨.parameters, .objects .parameter, .defaulted⟩,
     ⟨.requestBody, .object .requestBody, .optional⟩, ⟨.responses, .table .response, .defaulted⟩,
     ⟨.deprecated, .flag, .optional⟩, ⟨.servers, .objects .server, .defaulted⟩]
  | .pathItem =>
    [⟨.summary, .text, .optional⟩, ⟨.description, .text, .optional⟩,
     ⟨.get, .object .operation, .optional⟩, ⟨.put, .object .operation, .optional⟩,
     ⟨.post, .object .operation, .optional⟩, ⟨.delete, .object .operation, .optional⟩,
     ⟨.options, .object .operation, .optional⟩, ⟨.head, .object .operation, .optional⟩,
     ⟨.patch, .object .operation, .optional⟩, ⟨.servers, .objects .server, .defaulted⟩]
  | .info =>
    [⟨.title, .text, .defaulted⟩, ⟨.description, .text, .optional⟩,
     ⟨.termsOfService, .text, .optional⟩, ⟨.contact, .dataTable, .defaulted⟩,
     ⟨.license, .dataTable, .defaulted⟩, ⟨.version, .text, .defaulted⟩]
  | .components => [⟨.schemas, .schemas, .defaulted⟩]
  | .document =>
    [⟨.openapi, .text, .defaulted⟩, ⟨.info, .object .info, .defaulted⟩,
     ⟨.servers, .objects .server, .defaulted⟩, ⟨.paths, .table .pathItem, .defaulted⟩,
     ⟨.components, .object .components, .defaulted⟩, ⟨.tags, .objects .tag, .defaulted⟩]

/-- What is known about a member of a kind. -/
def spec? (k : Kind) (m : Member) : Option MemberSpec :=
  k.members.find? (·.member = m)

end Kind

end IdlBridge.OpenApi
