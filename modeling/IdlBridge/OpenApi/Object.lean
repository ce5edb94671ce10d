import IdlBridge.OpenApi.Member
import IdlBridge.Text.Case
import IdlBridge.Text.Table
import IdlBridge.Value.Loaded

/-! # OpenAPI objects

    An object of a document under construction. It holds the members that have been given, and the
    keys that its kind does not know with their data. A member that has not been given reads as the
    default of its kind.

    As data, an object has its members in the order of its kind, then the unknown keys. Null members
    are left out, and so are lists and mappings without content; inside untyped data everything
    stays.

    Untyped data is held as it has been loaded: a mapping of it can lie at several places of the
    object, which its mark then shows. What has a type is never shared, as reading makes it anew.
-/

namespace IdlBridge.OpenApi

/-- What a member holds, `ω` being the objects. -/
inductive Content (ω : Type) where
  | null
  | text (t : Text)
  | flag (b : Bool)
  /-- Data that is not null. -/
  | data (v : Loaded)
  | texts (ts : List Text)
  | dataList (vs : List Loaded)
  | dataTable (es : List (Text × Loaded))
  | object (o : ω)
  | objects (os : List ω)
  | table (es : List (Text × ω))

/-- An object of a document. -/
inductive Object where
  | mk (kind : Kind) (members : List (Member × Content Object)) (extras : List (Text × Loaded))

/-- What the members of objects hold. -/
abbrev Slot := Content Object

namespace Object

/-- The kind of an object. -/
def kind : Object → Kind
  | .mk k _ _ => k

/-- The members that have been given. -/
def members : Object → List (Member × Slot)
  | .mk _ ms _ => ms

/-- The keys that the kind does not know. -/
def extras : Object → Table Loaded
  | .mk _ _ es => es

/-- The object with nothing given. -/
def empty (k : Kind) : Object :=
  .mk k [] []

end Object

/-- What a member that has not been given holds. -/
def MemberSpec.default (s : MemberSpec) : Slot :=
  match s.presence with
  | .optional => .null
  | .defaulted | .required =>
    match s.shape with
    | .text => .text []
    | .texts => .texts []
    | .dataList => .dataList []
    | .dataTable => .dataTable []
    | .object k => .object (.empty k)
    | .objects _ => .objects []
    | .schemas | .table _ => .table []
    | .flag | .data | .schema | .schemaOrFlag => .null

/-- What a member of a kind holds when it has not been given. -/
def Kind.default (k : Kind) (m : Member) : Slot :=
  ((k.spec? m).map MemberSpec.default).getD .null

namespace Object

/-! ## Reading and setting members -/

/-- What a member has been given, if it has been given something. -/
def given? (o : Object) (m : Member) : Option Slot :=
  (o.members.find? (·.1 = m)).map (·.2)

/-- What a member holds. -/
def get (o : Object) (m : Member) : Slot :=
  (o.given? m).getD (o.kind.default m)

/-- Gives a member a content: in its place where the member has one, else at the end. -/
def insertMember : List (Member × Slot) → Member → Slot → List (Member × Slot)
  | [], m, c => [(m, c)]
  | (m', c') :: rest, m, c =>
    if m' = m then (m', c) :: rest else (m', c') :: insertMember rest m c

/-- Gives a member a content. -/
def set (o : Object) (m : Member) (c : Slot) : Object :=
  .mk o.kind (insertMember o.members m c) o.extras

/-- An object with some members given. -/
def build (k : Kind) (ms : List (Member × Slot)) : Object :=
  .mk k ms []

/-- The text of a member, if it holds one. -/
def text? (o : Object) (m : Member) : Option Text :=
  match o.get m with
  | .text t => some t
  | _ => none

/-- The text of a member, empty if it holds none. -/
def text (o : Object) (m : Member) : Text :=
  (o.text? m).getD []

/-- The texts of a member. -/
def texts (o : Object) (m : Member) : List Text :=
  match o.get m with
  | .texts ts => ts
  | _ => []

/-- The object of a member, if it holds one. -/
def object? (o : Object) (m : Member) : Option Object :=
  match o.get m with
  | .object x => some x
  | _ => none

/-- The objects of a member. -/
def objects (o : Object) (m : Member) : List Object :=
  match o.get m with
  | .objects os => os
  | _ => []

/-- The table of a member. -/
def table (o : Object) (m : Member) : Table Object :=
  match o.get m with
  | .table es => es
  | _ => []

end Object

namespace Content

/-- A text, or null if there is none. -/
def ofText? {ω : Type} (t : Option Text) : Content ω :=
  match t with
  | some t => .text t
  | none => .null

/-- A text, or null if it is empty. -/
def ofText {ω : Type} (t : Text) : Content ω :=
  if t = [] then .null else .text t

/-- An object, or null if there is none. -/
def ofObject? {ω : Type} (o : Option ω) : Content ω :=
  match o with
  | some o => .object o
  | none => .null

end Content

/-! ## Objects as data -/

namespace Object

/-- Lists and mappings without content are not written. -/
def isVoid : Value → Bool
  | .null => true
  | .list [] => true
  | .map [] => true
  | _ => false

/-- The entries of an object of a kind with nothing given: its texts. -/
def blankEntries (k : Kind) : Value.Entries :=
  k.members.filterMap fun s =>
    match s.default with
    | .text t => some (.text s.member.key, .text t)
    | _ => none

/-- The data of a member that has not been given. -/
def missingValue (s : MemberSpec) : Value :=
  match s.default with
  | .text t => .text t
  | .object o => .map (blankEntries o.kind)
  | _ => .null

/-- The entries of an object: its members as its kind orders them, `given` being the data of those
    that have been given, and then the unknown keys. A document always has paths. -/
def entries (k : Kind) (given : List (Member × Value)) (extras : List (Text × Value)) :
    Value.Entries :=
  let own := k.members.map fun s =>
    (s.member.key, ((given.find? (·.1 = s.member)).map (·.2)).getD (missingValue s))
  let shown := (own ++ extras).filter fun e => !isVoid e.2
  let out := shown.map fun e => (Value.text e.1, e.2)
  if k = .document ∧ !shown.any (·.1 = Member.paths.key) then
    out ++ [(.text Member.paths.key, .map [])]
  else out

/-- An object as data. -/
def toValue : Object → Value
  | .mk k ms extras => .map (entries k (given ms) (extras.map fun e => (e.1, e.2.plain)))
where
  given : List (Member × Content Object) → List (Member × Value)
    | [] => []
    | (m, c) :: rest => (m, slot c) :: given rest
  slot : Content Object → Value
    | .null => .null
    | .text t => .text t
    | .flag b => .bool b
    | .data v => v.plain
    | .texts ts => .list (ts.map .text)
    | .dataList vs => .list (vs.map Loaded.plain)
    | .dataTable es => .map (es.map fun e => (.text e.1, e.2.plain))
    | .object o => toValue o
    | .objects os => .list (list os)
    | .table es => .map (table es)
  list : List Object → List Value
    | [] => []
    | o :: rest => toValue o :: list rest
  table : List (Text × Object) → List (Value × Value)
    | [] => []
    | (k, o) :: rest => (.text k, toValue o) :: table rest

end Object

end IdlBridge.OpenApi
