import IdlBridge.Descriptor
import IdlBridge.Notice
import IdlBridge.ReflectionError
import IdlBridge.ScalarType
import IdlBridge.Traversal

/-! # Resolving Thrift sources

    A set of sources refers to each other by include aliases, cycles included. A type name is
    resolved in the source that holds it: a scalar, a typedef (which is replaced by what it stands
    for, resolved in the source that declares it), a struct or an enumeration; a name that none of
    them declares stays as a scalar nobody knows. `alias.Name` is looked up in the included source.

    Declarations are registered under their bare names, the sources in depth-first preorder from
    the main one, and of two declarations of a name the first wins.
-/

namespace IdlBridge.Thrift

/-- A source, and the numbers of the sources that its include aliases stand for. -/
structure Source where
  path : Text
  document : Document
  includes : Table Nat

/-- Sources that include each other; number 0 is the main one. -/
structure SourceSet where
  sources : List Source

namespace TypeRef

/-- What a type is built from, as far as its form tells. -/
inductive Shape where
  | list (element : TypeRef)
  | set (element : TypeRef)
  | map (key value : TypeRef)
  | named

/-- The form of a type. A container name without element types is a name like any other. -/
def shape (t : TypeRef) : Shape :=
  match t.args with
  | [] => .named
  | [a] =>
    if t.name = "list" then .list a
    else if t.name = "set" then .set a
    else .named
  | a :: b :: rest =>
    if t.name = "list" then .list a
    else if t.name = "set" then .set a
    else if t.name = "map" ∧ rest.isEmpty then .map a b
    else .named

theorem sizeOf_of_shape_list {t a : TypeRef} (h : t.shape = .list a) : sizeOf a < sizeOf t := by
  obtain ⟨n, args, as⟩ := t
  rcases args with _ | ⟨x, _ | ⟨y, r⟩⟩ <;> simp only [shape] at h
  · cases h
  · split at h
    · cases h; simp +arith
    · split at h <;> cases h
  · split at h
    · cases h; simp +arith
    · split at h
      · cases h
      · split at h <;> cases h

theorem sizeOf_of_shape_set {t a : TypeRef} (h : t.shape = .set a) : sizeOf a < sizeOf t := by
  obtain ⟨n, args, as⟩ := t
  rcases args with _ | ⟨x, _ | ⟨y, r⟩⟩ <;> simp only [shape] at h
  · cases h
  · split at h
    · cases h
    · split at h
      · cases h; simp +arith
      · cases h
  · split at h
    · cases h
    · split at h
      · cases h; simp +arith
      · split at h <;> cases h

theorem sizeOf_of_shape_map {t a b : TypeRef} (h : t.shape = .map a b) :
    sizeOf a < sizeOf t ∧ sizeOf b < sizeOf t := by
  obtain ⟨n, args, as⟩ := t
  rcases args with _ | ⟨x, _ | ⟨y, r⟩⟩ <;> simp only [shape] at h
  · cases h
  · split at h
    · cases h
    · split at h <;> cases h
  · split at h
    · cases h
    · split at h
      · cases h
      · split at h
        · cases h; constructor <;> simp +arith
        · cases h

end TypeRef

namespace SourceSet

/-- A name inside a source. -/
abbrev Key := Nat × Text

/-- The source of a number. -/
def source? (set : SourceSet) (i : Nat) : Option Source :=
  set.sources[i]?

/-- The source that a name is looked up in, and the name it has there. -/
def locate? (set : SourceSet) (i : Nat) (name : Text) : Option Key :=
  match Text.cut? '.' name with
  | none => some (i, name)
  | some (file, inner) => ((set.source? i).bind (·.includes.get? file)).map fun j => (j, inner)

/-- The typedef of a name in a source. -/
def typedef? (set : SourceSet) (key : Key) : Option Typedef :=
  (set.source? key.1).bind fun s => s.document.typedefs.find? (·.name = key.2)

/-- All typedefs of all sources. -/
def typedefKeys (set : SourceSet) : List Key :=
  (List.range set.sources.length).flatMap fun i =>
    match set.source? i with
    | some s => s.document.typedefs.map fun t => (i, t.name)
    | none => []

/-- The number of typedefs that are not among `seen`. -/
def unseen (set : SourceSet) (seen : List Key) : Nat :=
  (set.typedefKeys.filter (· ∉ seen)).length

theorem mem_typedefKeys {set : SourceSet} {key : Key} {t : Typedef}
    (h : set.typedef? key = some t) : key ∈ set.typedefKeys := by
  simp only [typedef?, Option.bind_eq_some_iff] at h
  obtain ⟨s, hs, ht⟩ := h
  have hlt : key.1 < set.sources.length := by
    simp only [source?] at hs
    exact (List.getElem?_eq_some_iff.1 hs).1
  refine List.mem_flatMap.2 ⟨key.1, List.mem_range.2 hlt, ?_⟩
  simp only [hs]
  refine List.mem_map.2 ⟨t, List.mem_of_find?_eq_some ht, ?_⟩
  have := List.find?_some ht
  simp only [decide_eq_true_eq] at this
  exact Prod.ext rfl this

theorem unseen_lt {set : SourceSet} {key : Key} {seen : List Key} (hk : key ∈ set.typedefKeys)
    (hs : key ∉ seen) : set.unseen (key :: seen) < set.unseen seen := by
  unfold unseen
  have hsub : set.typedefKeys.filter (· ∉ key :: seen) =
      (set.typedefKeys.filter (· ∉ seen)).filter (· ≠ key) := by
    rw [List.filter_filter]
    congr 1
    funext j
    simp only [List.mem_cons, not_or, Bool.decide_and, ne_eq]
  rw [hsub]
  refine List.length_filter_lt_length_iff_exists.2 ⟨key, ?_, by simp⟩
  simp [hk, hs]

/-- The declaration that a name without typedef refers to. -/
def declared (set : SourceSet) (key : Key) (name : Text) : TypeDesc :=
  match set.source? key.1 with
  | some s =>
    if s.document.structs.any (·.name = key.2) then .struct key.2
    else if s.document.enums.any (·.name = key.2) then .enum key.2
    else .scalar name
  | none => .scalar name

/-- The path of a source. -/
def pathOf (set : SourceSet) (i : Nat) : Text :=
  ((set.source? i).map (·.path)).getD []

set_option linter.unusedVariables false in
/-- Resolves a type of source `i`. `seen` are the typedefs that are being expanded around it. -/
def resolve (set : SourceSet) (i : Nat) (seen : List Key) (t : TypeRef) :
    Except ReflectionError TypeDesc :=
  match hs : t.shape with
  | .list a => do return .list (← set.resolve i seen a)
  | .set a => do return .set (← set.resolve i seen a)
  | .map a b => do
    let key ← set.resolve i seen a
    return .map key (← set.resolve i seen b)
  | .named =>
    if ScalarType.thrift.has t.name then return .scalar t.name
    else
      match set.locate? i t.name with
      -- A name that is declared nowhere is passed on as it is.
      | none => return .scalar t.name
      | some key =>
        match ht : set.typedef? key with
        | some d =>
          if hk : key ∈ seen then throw (.typedefCycle t.name (set.pathOf key.1))
          else set.resolve key.1 (key :: seen) d.type
        | none => return set.declared key t.name
termination_by (set.unseen seen, sizeOf t)
decreasing_by
  · exact Prod.Lex.right _ (TypeRef.sizeOf_of_shape_list hs)
  · exact Prod.Lex.right _ (TypeRef.sizeOf_of_shape_set hs)
  · exact Prod.Lex.right _ (TypeRef.sizeOf_of_shape_map hs).1
  · exact Prod.Lex.right _ (TypeRef.sizeOf_of_shape_map hs).2
  · exact Prod.Lex.left _ _ (unseen_lt (mem_typedefKeys ht) hk)

/-- Resolves a type of source `i`. -/
def resolveType (set : SourceSet) (i : Nat) (t : TypeRef) : Except ReflectionError TypeDesc :=
  set.resolve i [] t

/-! ## Declarations -/

/-- The annotations of a declaration. -/
def annotations (as : Thrift.Annotations) : Except ReflectionError IdlBridge.Annotations :=
  match IdlBridge.Annotations.ofPairs? (as.map fun a => (a.1, .text a.2)) with
  | some r => return r
  | none => throw .unwritable

/-- Resolves a field. -/
def field (set : SourceSet) (i : Nat) (f : Field) : Except ReflectionError FieldDesc := do
  return {
    name := f.name, type := ← set.resolveType i f.type, annotations := ← annotations f.annotations,
    comment := f.comment, required := f.requiredness = .required }

/-- Resolves a struct. -/
def struct (set : SourceSet) (i : Nat) (s : Struct) : Except ReflectionError StructDesc := do
  return {
    name := s.name, fields := ← s.fields.mapM (set.field i),
    annotations := ← annotations s.annotations, comment := s.comment }

/-- An enumeration with its values by name. -/
def enumeration (e : Enum) : EnumDesc :=
  ⟨e.name, Table.insertAll [] (e.values.map fun v => (v.name, v.value)), e.comment⟩

/-- Registers the enumerations of a source. -/
def registerEnums (es : List Enum) (table : Table EnumDesc) : Table EnumDesc :=
  es.foldl (fun t e => t.insertNew e.name (enumeration e)) table

/-- Registers the structs of a source; one whose name is taken is not looked at. -/
def registerStructs (set : SourceSet) (i : Nat) :
    List Struct → Table StructDesc → Except ReflectionError (Table StructDesc)
  | [], table => return table
  | s :: rest, table => do
    if table.has s.name then set.registerStructs i rest table
    else set.registerStructs i rest (table ++ [(s.name, ← set.struct i s)])

/-- The sources that the main one reaches, in the order in which they are registered. -/
def order (set : SourceSet) : List Nat :=
  Traversal.preorder set.sources.length fun i =>
    ((set.source? i).map (·.includes.values)).getD []

/-- Registers the structs of sources one after the other. -/
def registerAll (set : SourceSet) :
    List Nat → Table StructDesc → Except ReflectionError (Table StructDesc)
  | [], table => return table
  | i :: rest, table => do
    let structs := ((set.source? i).map (·.document.structs)).getD []
    set.registerAll rest (← set.registerStructs i structs table)

/-- The enumerations of all reached sources. -/
def enums (set : SourceSet) : Table EnumDesc :=
  set.order.foldl (fun t i =>
    registerEnums (((set.source? i).map (·.document.enums)).getD []) t) []

/-! ## Services -/

/-- The struct that a part of a method of the main source refers to. -/
def structFor (set : SourceSet) (structs : Table StructDesc) (part : MethodPart)
    (service method : Text) (t : TypeRef) : Except ReflectionError StructDesc := do
  match ← set.resolveType 0 t with
  | .struct name =>
    match structs.get? name with
    | some s => return s
    | none => throw (.unknownStruct part service method t.name)
  | _ => throw (.unknownStruct part service method t.name)

/-- The struct that a function takes. Only the first of its arguments counts. -/
def requestFor (set : SourceSet) (structs : Table StructDesc) (service : Text) (f : Function) :
    Except ReflectionError (Option StructDesc) :=
  match f.arguments with
  | a :: _ => some <$> set.structFor structs .argument service f.name a.type
  | [] => return none

/-- The struct that a function returns, if it returns anything. -/
def responseFor (set : SourceSet) (structs : Table StructDesc) (service : Text) (f : Function) :
    Except ReflectionError (Option StructDesc) :=
  match f.result with
  | some t => some <$> set.structFor structs .result service f.name t
  | none => return none

/-- Notes the arguments of a function that do not count. -/
def noteArguments (service : Text) (f : Function) : Journal Unit :=
  if 1 < f.arguments.length then note (.extraArguments service f.name) else return ()

/-- Resolves a function. -/
def method (set : SourceSet) (structs : Table StructDesc) (service : Text) (f : Function) :
    Noted ReflectionError MethodDesc := do
  noteArguments service f
  let request ← liftM (set.requestFor structs service f)
  let response ← liftM (set.responseFor structs service f)
  return { name := f.name, request, response, annotations := ← liftM (annotations f.annotations),
           comment := f.comment }

/-- Resolves a service. -/
def service (set : SourceSet) (structs : Table StructDesc) (s : Service) :
    Noted ReflectionError ServiceDesc := do
  let notes ← liftM (annotations s.annotations)
  return { name := s.name, methods := ← s.functions.mapM (set.method structs s.name),
           annotations := notes, comment := s.comment }

/-- The namespace of a document: the one of the first of four scopes that has one, or else the
    first of all. -/
def namespaceOf (d : Document) : Text :=
  let preferred := (["*", "go", "py", "java"] : List Text).findSome? fun s => d.namespaces.get? s
  (preferred.or (d.namespaces.head?.map (·.2))).getD []

/-- Resolves the main source and everything it includes. -/
def reflect (set : SourceSet) : Noted ReflectionError FileDesc := do
  let structs ← liftM (set.registerAll set.order [])
  match set.source? 0 with
  | some main =>
    return {
      path := main.path
      package := namespaceOf main.document
      services := ← main.document.services.mapM (set.service structs)
      structs
      enums := set.enums
      localStructs := main.document.structs.map (·.name) }
  | none => throw .unfinished

end SourceSet

end IdlBridge.Thrift
