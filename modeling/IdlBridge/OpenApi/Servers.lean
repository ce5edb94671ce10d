import IdlBridge.OpenApi.PathItem

/-! # Servers of a document

    Servers are declared by operations and moved up to where they hold for all: to the path item if
    the operations of a path that declare a single server agree on it, and to the document if all
    such operations agree and the document has no other servers. A document always has a server.
-/

namespace IdlBridge.OpenApi.Object

/-- A server at a place. -/
def serverAt (url : Text) : Object :=
  .build .server [(.url, .text url)]

/-- The places of the servers of an object. -/
def serverUrls (o : Object) : List Text :=
  (o.objects .servers).map (·.text .url)

/-- The object without servers of its own. -/
def withoutServers (o : Object) : Object :=
  o.set .servers (.objects [])

/-- The object with a single server. -/
def withServer (url : Text) (o : Object) : Object :=
  o.set .servers (.objects [serverAt url])

/-- The places that the operations of a path declare as their only server. -/
def soleServers (item : Object) : List Text :=
  item.operations.foldl (fun urls (_, op) =>
    match op.serverUrls with
    | [url] => Text.insertNew urls url
    | _ => urls) []

/-- Moves a server that the operations of a path agree on to the path. -/
def hoistOperations (item : Object) : Object :=
  match item.soleServers with
  | [url] => (item.withServer url).mapOperations withoutServers
  | _ => item

/-- The places that the operations of a document declare as their only server. -/
def soleServersOfPaths (paths : Table Object) : List Text :=
  paths.foldl (fun urls e => e.2.soleServers.foldl Text.insertNew urls) []

/-- Gives a document a server if it has none. -/
def orServer (otherwise : Text) (doc : Object) : Object :=
  if doc.serverUrls.isEmpty then doc.withServer otherwise else doc

/-- Moves servers up in a document; `otherwise` is the place of the server of a document that would
    have none. -/
def hoistServers (otherwise : Text) (doc : Object) : Object :=
  let paths := doc.table .paths
  let hoisted := doc.set .paths (.table (paths.map fun e => (e.1, e.2.hoistOperations)))
  match soleServersOfPaths paths with
  | [url] =>
    if doc.serverUrls.isEmpty || doc.serverUrls == [url] then
      let bare := (hoisted.table .paths).map fun e => (e.1, e.2.withoutServers)
      orServer otherwise ((hoisted.set .paths (.table bare)).withServer url)
    else orServer otherwise hoisted
  | _ => orServer otherwise hoisted

end IdlBridge.OpenApi.Object
