import IdlBridge.OpenApi.Object

/-! # Overlays

    Lays what one object has been given over another object of its kind. Where both hold an object
    of one kind, the objects are laid over each other in turn, and where both hold a mapping, the
    entries of the upper one are put into the lower one; otherwise the upper content wins, null,
    false and empty contents included.

    The entries are put into the mapping itself. Where a mapping of the lower object lies at several
    places of it, they are in it at all of these, whatever the upper object says there
    (`additions`).

    Unknown keys are looked up by name, as members are. A key that has the name of something else
    that objects of the kind have is not found, and setting it does not change the unknown keys
    (`Kind.attributes`, `isHidden`). What else becomes of an object when such a name is set is not
    described.
-/

namespace IdlBridge.OpenApi

/-! ## Names -/

/-- The names of what all objects have besides their members and unknown keys. -/
def commonAttributes : List Text :=
  ["construct", "copy", "dict", "drop_empty_collections", "from_orm", "json",
    "model_computed_fields", "model_config", "model_construct", "model_copy", "model_dump",
    "model_dump_json", "model_extra", "model_fields", "model_fields_set", "model_json_schema",
    "model_parametrized_name", "model_post_init", "model_rebuild", "model_validate",
    "model_validate_json", "model_validate_strings", "parse_file", "parse_obj", "parse_raw",
    "schema", "schema_json", "to_dict", "update_forward_refs", "validate"]

/-- The names of what the objects of a kind have besides their members and unknown keys. -/
def Kind.attributes : Kind → List Text
  | .reference => "to_schema" :: commonAttributes
  | .pathItem => "operations" :: "set_operation" :: commonAttributes
  | _ => commonAttributes

/-- A key that can be read as an unknown key, but not be set: it is named like something internal,
    or like something that the kinds themselves have. -/
def isHidden (key : Text) : Bool :=
  (Text.startsWith key "_" && key ≠ "__root__") || key = "mro" || key = "register"

/-- A key that an overlay does not treat as an unknown key of its own. -/
def Kind.reserves (k : Kind) (key : Text) : Bool :=
  k.attributes.contains key || isHidden key

namespace Object

/-- A key that a kind has as the other key of a member. Where such a key is unknown to an object,
    the member has been given under its first key, and the overlay of the member is all that
    counts. -/
def shadowsMember (k : Kind) (key : Text) : Bool :=
  k.members.any fun s => s.member.otherKey = key

/-- An unknown key is not found by its name. -/
def isLost (k : Kind) (key : Text) : Bool :=
  shadowsMember k key || k.attributes.contains key

/-! ## Laying contents over each other -/

/-- Lays data over data. What is laid over a mapping with a mark has been put into it before. -/
def layData (lower : Option Loaded) (upper : Loaded) : Loaded :=
  match lower, upper with
  | some (.map none es), .map _ fs => .map none (Value.Entries.insertAll es fs)
  | some (.map (some m) es), .map _ _ => .map (some m) es
  | _, v => v

/-- What an unknown key comes to when data is laid over it, if it changes. -/
def layExtra? (k : Kind) (key : Text) (lower : Option Loaded) (upper : Loaded) : Option Loaded :=
  if isLost k key then none
  else if isHidden key then
    -- A mapping changes in its place; anything else would have to be set.
    match lower, upper with
    | some (.map m es), .map n fs => some (layData (some (.map m es)) (.map n fs))
    | _, _ => none
  else some (layData lower upper)

/-- Lays an unknown key over others. -/
def layExtra (k : Kind) (es : Table Loaded) (e : Text × Loaded) : Table Loaded :=
  match layExtra? k e.1 (es.get? e.1) e.2 with
  | some w => es.insert e.1 w
  | none => es

/-- Lays unknown keys over others. -/
def layExtras (k : Kind) (lower upper : Table Loaded) : Table Loaded :=
  upper.foldl (layExtra k) lower

/-- Gives an object unknown keys. -/
def withExtras (o : Object) (es : Table Loaded) : Object :=
  .mk o.kind o.members es

/-- Lays `upper` over `lower`, once its entries have been put into the mappings with marks. -/
def lay (lower : Object) : (upper : Object) → Object
  | .mk _ ms extras =>
    let o := members lower ms
    o.withExtras (layExtras o.kind o.extras extras)
where
  members (lower : Object) : List (Member × Content Object) → Object
    | [] => lower
    | (m, c) :: rest => members (lower.set m (slot (lower.get m) c)) rest
  slot (lower : Content Object) : Content Object → Content Object
    | .object o =>
      match lower with
      | .object l => if l.kind = o.kind then .object (lay l o) else .object o
      | _ => .object o
    | .table es =>
      match lower with
      | .table ls => .table (Table.insertAll ls es)
      | _ => .table es
    | .dataTable es =>
      match lower with
      | .dataTable ls => .dataTable (Table.insertAll ls es)
      | _ => .dataTable es
    | .data v =>
      match lower with
      | .data l => .data (layData (some l) v)
      | _ => .data v
    | c => c

/-! ## Shared mappings -/

/-- What is put into a mapping with a mark when data is laid over it. -/
def additionsTo (lower : Option Loaded) (upper : Loaded) : Loaded.Additions :=
  match lower, upper with
  | some (.map (some m) _), .map _ fs => [(m, fs)]
  | _, _ => []

/-- What is put into the mappings with marks when `upper` is laid over `lower`, in order. -/
def additions (lower : Object) : (upper : Object) → Loaded.Additions
  | .mk _ ms extras => members lower ms ++ extras.flatMap fun (key, v) =>
    if isLost lower.kind key then [] else additionsTo (lower.extras.get? key) v
where
  members (lower : Object) : List (Member × Content Object) → Loaded.Additions
    | [] => []
    | (m, c) :: rest => slot (lower.get m) c ++ members lower rest
  slot (lower : Content Object) : Content Object → Loaded.Additions
    | .object o =>
      match lower with
      | .object l => if l.kind = o.kind then additions l o else []
      | _ => []
    | .data v =>
      match lower with
      | .data l => additionsTo (some l) v
      | _ => []
    | _ => []

/-- The object with its data changed. -/
def mapData (f : Loaded → Loaded) : Object → Object
  | .mk k ms es => .mk k (members ms) (es.map fun e => (e.1, f e.2))
where
  members : List (Member × Content Object) → List (Member × Content Object)
    | [] => []
    | (m, c) :: rest => (m, slot c) :: members rest
  slot : Content Object → Content Object
    | .null => .null
    | .text t => .text t
    | .flag b => .flag b
    | .data v => .data (f v)
    | .texts ts => .texts ts
    | .dataList vs => .dataList (vs.map f)
    | .dataTable es => .dataTable (es.map fun e => (e.1, f e.2))
    | .object o => .object (mapData f o)
    | .objects os => .objects (list os)
    | .table es => .table (table es)
  list : List Object → List Object
    | [] => []
    | o :: rest => mapData f o :: list rest
  table : List (Text × Object) → List (Text × Object)
    | [] => []
    | (k, o) :: rest => (k, mapData f o) :: table rest

/-- The data of an object, that of the objects inside it included. -/
def data : Object → List Loaded
  | .mk _ ms es => members ms ++ es.map fun e => e.2
where
  members : List (Member × Content Object) → List Loaded
    | [] => []
    | (_, c) :: rest => slot c ++ members rest
  slot : Content Object → List Loaded
    | .data v => [v]
    | .dataList vs => vs
    | .dataTable es => es.map fun e => e.2
    | .object o => data o
    | .objects os => list os
    | .table es => table es
    | .null | .text _ | .flag _ | .texts _ => []
  list : List Object → List Loaded
    | [] => []
    | o :: rest => data o ++ list rest
  table : List (Text × Object) → List Loaded
    | [] => []
    | (_, o) :: rest => data o ++ table rest

/-- The marks of the data of an object, a mark once for each place of its mapping. -/
def marks (o : Object) : List Mark :=
  o.data.flatMap Loaded.marks

/-- A number of loads above those that the data of an object comes from. -/
def loads (o : Object) : Nat :=
  o.marks.foldl (fun n m => max n (m.load + 1)) 0

/-- An object with all that is put into its mappings with marks when `upper` is laid over it.
    Neither of the objects shares a mapping with the other one. -/
def filled (lower upper : Object) : Object :=
  let lower := lower.mapData (Loaded.later upper.loads)
  lower.mapData (Loaded.refill (additions lower upper))

/-! ## Overlays -/

/-- Lays `upper` over `lower`. -/
def overlay (lower upper : Object) : Object :=
  lay (filled lower upper) upper

/-- Lays an object over another if there is one to lay. -/
def overlay? (lower : Object) (upper : Option Object) : Object :=
  match upper with
  | some u => overlay lower u
  | none => lower

end Object

end IdlBridge.OpenApi
