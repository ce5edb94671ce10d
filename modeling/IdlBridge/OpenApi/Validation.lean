import IdlBridge.OpenApi.Object
import IdlBridge.Text.Alphabet
import IdlBridge.Text.Utf8

/-! # Objects from data

    Reads an object of a kind from a mapping. Every key has to be a text. A member is read from its
    key, or from its other key where the first is missing; all keys that are not read are kept with
    their data.

    Keys inside a table may also be given as octets. Where two of them stand for one text, the later
    one counts, in the place of the first.

    A reference and a schema are told apart by what they read: the one with more members given wins,
    those of the objects inside counted too, and the reference wins a tie.

    Objects are read however deeply they nest; that a stack may be too small for them is left out.
-/

namespace IdlBridge.OpenApi

/-! ## Scalars -/

namespace Reading

/-- The words for true. -/
def trueWords : List Text := ["1", "t", "true", "on", "y", "yes"]

/-- The words for false. -/
def falseWords : List Text := ["0", "f", "false", "off", "n", "no"]

/-- The truth value that a word or a number stands for. -/
def flagOf? : Value → Option Bool
  | .bool b => some b
  | .text t => word t
  | .bytes bs => (Utf8.decode? bs).bind word
  | .int i => number i
  | .float x => x.toInt?.bind number
  | _ => none
where
  word (t : Text) : Option Bool :=
    if t.lowerAscii ∈ trueWords then some true
    else if t.lowerAscii ∈ falseWords then some false
    else none
  number (i : Int) : Option Bool :=
    if i = 1 then some true else if i = 0 then some false else none

/-- The text that data stands for. -/
def textOf? : Value → Option Text
  | .text t => some t
  | .bytes bs => Utf8.decode? bs
  | _ => none

/-- The items of data that counts as a list. -/
def items? : Loaded → Option (List Loaded)
  | .list xs => some xs
  | .set xs => some xs
  | .pair a b => some [a, b]
  | _ => none

/-- All items if there are all. -/
def all? {α : Type} (f : Value → Option α) : List Loaded → Option (List α)
  | [] => some []
  | x :: rest =>
    match f x.plain, all? f rest with
    | some y, some ys => some (y :: ys)
    | _, _ => none

/-- The texts of a list. -/
def texts? (x : Loaded) : Option (List Text) :=
  (items? x).bind (all? textOf?)

/-- The data under the keys of a mapping. -/
def dataTable? : Value.Entries Loaded → Option (List (Text × Loaded))
  | [] => some []
  | (k, v) :: rest =>
    match textOf? k, dataTable? rest with
    | some t, some es => some ((t, v) :: es)
    | _, _ => none

/-- The keys of a mapping are texts. -/
def textKeys (es : Value.Entries Loaded) : Bool :=
  es.all fun e => match e.1 with | .text _ => true | _ => false

/-- The key that a member is read from. -/
def keyOf (es : Value.Entries Loaded) (m : Member) : Text :=
  if (es.get? (.text m.key)).isSome then m.key else m.otherKey

/-- The entries that no member is read from. -/
def extrasOf (k : Kind) (es : Value.Entries Loaded) : List (Text × Loaded) :=
  let read := k.members.map fun s => keyOf es s.member
  es.filterMap fun e =>
    match e.1 with
    | .text t => if t ∈ read then none else some (t, e.2)
    | _ => none

end Reading

/-! ## The number of members given -/

namespace Object

/-- The number of members that have been given, those of the objects inside included. -/
def size : Object → Nat
  | .mk _ ms _ => members ms
where
  members : List (Member × Content Object) → Nat
    | [] => 0
    | (_, c) :: rest => 1 + slot c + members rest
  slot : Content Object → Nat
    | .object o => size o
    | .objects os => list os
    | .table es => table es
    | _ => 0
  list : List Object → Nat
    | [] => 0
    | o :: rest => size o + list rest
  table : List (Text × Object) → Nat
    | [] => 0
    | (_, o) :: rest => size o + table rest

/-- The reading that wins, of a reference and a schema. -/
def choose? (reference schema : Option Object) : Option Object :=
  match reference, schema with
  | some r, some s => some (if r.size < s.size then s else r)
  | some r, none => some r
  | none, s => s

/-! ## Objects -/

mutual

/-- Reads an object of a kind. -/
def ofValue? (k : Kind) (v : Loaded) : Option Object :=
  match v with
  | .map _ es =>
    if Reading.textKeys es then
      (membersOf? es k.members).map fun ms => .mk k ms (Reading.extrasOf k es)
    else none
  | _ => none
termination_by (sizeOf v, 0)
decreasing_by simp_wf; exact Prod.Lex.left _ _ (by omega)

/-- Reads the members of a mapping. -/
def membersOf? (es : Value.Entries Loaded) (specs : List MemberSpec) :
    Option (List (Member × Slot)) :=
  match specs with
  | [] => some []
  | s :: rest =>
    match h : es.get? (.text (Reading.keyOf es s.member)) with
    | none => if s.presence = .required then none else membersOf? es rest
    | some v =>
      have := Value.Entries.sizeOf_lt_of_get? h
      match slotOf? s v, membersOf? es rest with
      | some c, some ms => some ((s.member, c) :: ms)
      | _, _ => none
termination_by (sizeOf es, specs.length)
decreasing_by
  all_goals
    simp_wf
    first
    | exact Prod.Lex.left _ _ (by omega)
    | exact Prod.Lex.right _ (by omega)

/-- Reads what a member holds. -/
def slotOf? (s : MemberSpec) (v : Loaded) : Option Slot :=
  match v.plain with
  | .null => if s.presence = .optional then some .null else none
  | _ =>
    match s.shape with
    | .text => (Reading.textOf? v.plain).map .text
    | .flag => (Reading.flagOf? v.plain).map .flag
    | .data => some (.data v)
    | .texts => (Reading.texts? v).map .texts
    | .dataList => (Reading.items? v).map .dataList
    | .dataTable =>
      match v with
      | .map _ es => (Reading.dataTable? es).map fun t => .dataTable (Table.insertAll [] t)
      | _ => none
    | .schema => (choose? (ofValue? .reference v) (ofValue? .schema v)).map .object
    | .schemaOrFlag =>
      match choose? (ofValue? .reference v) (ofValue? .schema v) with
      | some o => some (.object o)
      | none => (Reading.flagOf? v.plain).map .flag
    | .object k => (ofValue? k v).map .object
    | .schemas =>
      match v with
      | .map _ es => (schemasOf? es).map fun t => .table (Table.insertAll [] t)
      | _ => none
    | .table k =>
      match v with
      | .map _ es => (tableOf? k es).map fun t => .table (Table.insertAll [] t)
      | _ => none
    | .objects k =>
      match v with
      | .list xs => (listOf? k xs).map .objects
      | .set xs => (listOf? k xs).map .objects
      | _ => none
termination_by (sizeOf v, 1)
decreasing_by
  all_goals
    simp_wf
    first
    | exact Prod.Lex.left _ _ (by omega)
    | exact Prod.Lex.right _ (by omega)

/-- Reads a list of objects. -/
def listOf? (k : Kind) (xs : List Loaded) : Option (List Object) :=
  match xs with
  | [] => some []
  | x :: rest =>
    match ofValue? k x, listOf? k rest with
    | some o, some os => some (o :: os)
    | _, _ => none
termination_by (sizeOf xs, 0)
decreasing_by all_goals simp_wf; exact Prod.Lex.left _ _ (by omega)

/-- Reads a table of objects. -/
def tableOf? (k : Kind) (es : List (Value × Loaded)) : Option (List (Text × Object)) :=
  match es with
  | [] => some []
  | (key, x) :: rest =>
    match Reading.textOf? key, ofValue? k x, tableOf? k rest with
    | some t, some o, some os => some ((t, o) :: os)
    | _, _, _ => none
termination_by (sizeOf es, 0)
decreasing_by all_goals simp_wf; exact Prod.Lex.left _ _ (by omega)

/-- Reads a table of references and schemas. -/
def schemasOf? (es : List (Value × Loaded)) : Option (List (Text × Object)) :=
  match es with
  | [] => some []
  | (key, x) :: rest =>
    match Reading.textOf? key, choose? (ofValue? .reference x) (ofValue? .schema x),
        schemasOf? rest with
    | some t, some o, some os => some ((t, o) :: os)
    | _, _, _ => none
termination_by (sizeOf es, 0)
decreasing_by all_goals simp_wf; exact Prod.Lex.left _ _ (by omega)

end

end Object

end IdlBridge.OpenApi
