import IdlBridge.OpenApi.Object

/-! # Operations of a path

    A path has at most one operation for each verb.
-/

namespace IdlBridge.OpenApi.Object

/-- The verbs that a path can have an operation for, in the order in which they are written. -/
def verbs : List Member :=
  [.get, .put, .post, .delete, .options, .head, .patch]

/-- The operations of a path with their verbs. -/
def operations (o : Object) : List (Member × Object) :=
  verbs.filterMap fun v => (o.object? v).map fun op => (v, op)

/-- The verb of a name in any case. -/
def verb? (name : Text) : Option Member :=
  verbs.find? fun v => v.key = Text.lower name

/-- Sets the operation of a verb; `none` if there is no verb of that name. -/
def setOperation? (o : Object) (name : Text) (op : Object) : Option Object :=
  (verb? name).map fun v => o.set v (.object op)

/-- What is said about a name that is no verb. -/
def unknownVerbMessage (name : Text) : Text :=
  "unsupported HTTP method: " ++ Text.lower name

/-- Changes all operations of a path. -/
def mapOperations (f : Object → Object) (o : Object) : Object :=
  o.operations.foldl (fun o (v, op) => o.set v (.object (f op))) o

end IdlBridge.OpenApi.Object
