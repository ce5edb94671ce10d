import IdlBridge.Descriptor
import IdlBridge.Notice
import IdlBridge.ReflectionError
import IdlBridge.ScalarType
import IdlBridge.Traversal

/-! # Resolving Protocol Buffers sources

    A set of sources imports each other, cycles included. All declarations of all sources go into
    one table of fully qualified names; a relative name is looked up in the innermost scope first,
    a name with a leading point only as it stands. A name that no scope has stays as a scalar
    nobody knows.

    A declaration is registered under its nesting path without the package, the sources in
    breadth-first order from the main one, and of two declarations of a name the first wins.
-/

namespace IdlBridge.Proto

/-- A source, and the numbers of the sources it imports. -/
structure Source where
  path : Text
  file : File
  imports : List Nat

/-- Sources that import each other; number 0 is the main one. -/
structure SourceSet where
  sources : List Source

/-- What a fully qualified name stands for: a message or an enumeration, and the name that it has
    without its package. -/
inductive Symbol where
  | message (name : Text)
  | enum (name : Text)
deriving DecidableEq

/-- A name inside a scope. -/
def qualify (scope name : Text) : Text :=
  if scope = [] then name else scope ++ "." ++ name

mutual

/-- A message and the messages inside it under their nesting paths, outer ones first. -/
def Message.walk (scope : Text) : Message → List (Text × Message)
  | m@⟨name, _, inner, _, _, _⟩ => (qualify scope name, m) :: walkAll (qualify scope name) inner

/-- Messages and the messages inside them under their nesting paths. -/
def walkAll (scope : Text) : List Message → List (Text × Message)
  | [] => []
  | m :: rest => m.walk scope ++ walkAll scope rest

end

/-- The enumerations inside a message under their nesting paths. -/
def Message.enumPaths (path : Text) (m : Message) : List (Text × Enum) :=
  m.enums.map fun e => (path ++ "." ++ e.name, e)

namespace File

/-- The symbols of a file, in the order in which they are declared. -/
def symbols (f : File) : List (Text × Symbol) :=
  (f.enums.map fun e => (qualify f.package e.name, Symbol.enum e.name)) ++
    (walkAll [] f.messages).flatMap fun (path, m) =>
      (qualify f.package path, Symbol.message path) ::
        (m.enumPaths path).map fun (p, _) => (qualify f.package p, Symbol.enum p)

/-- The enumerations of a file under their nesting paths. -/
def enumPaths (f : File) : List (Text × Enum) :=
  (f.enums.map fun e => (e.name, e)) ++
    (walkAll [] f.messages).flatMap fun (path, m) => m.enumPaths path

end File

/-- The symbols of all sources under their fully qualified names. -/
abbrev SymbolTable := Table Symbol

namespace SymbolTable

/-- Looks a name up in a scope and in the scopes around it, whose components are given innermost
    first. -/
def search? (symbols : SymbolTable) (name : Text) : (scope : List Text) → Option Symbol
  | [] => symbols.get? name
  | c :: outer =>
    match symbols.get? (Text.join "." (outer.reverse ++ [c, name])) with
    | some s => some s
    | none => search? symbols name outer

/-- Looks a name up in a scope. -/
def lookup? (symbols : SymbolTable) (name scope : Text) : Option Symbol :=
  match name with
  | c :: rest =>
    if c = '.' then symbols.get? rest
    else symbols.search? name (if scope = [] then [] else (Text.splitOn '.' scope).reverse)
  | [] => symbols.search? name (if scope = [] then [] else (Text.splitOn '.' scope).reverse)

/-- The type a name stands for in a scope, and whether it is one that was not found. -/
def resolveOrMiss (symbols : SymbolTable) (name scope : Text) : TypeDesc × Bool :=
  let bare := Text.dropLeading '.' name
  if ScalarType.proto.has name then (.scalar name, false)
  else if ScalarType.wellKnown.has bare then (.scalar bare, false)
  else
    match symbols.lookup? name scope with
    | some (.message n) => (.struct n, false)
    | some (.enum n) => (.enum n, false)
    | none => (.scalar bare, true)

/-- The type a name stands for in a scope. -/
def resolveType (symbols : SymbolTable) (name scope : Text) : TypeDesc :=
  (symbols.resolveOrMiss name scope).1

/-- The type a name stands for in a scope; a name that is not found is noted. -/
def resolve (symbols : SymbolTable) (name scope : Text) : Journal TypeDesc := do
  let (type, missed) := symbols.resolveOrMiss name scope
  if missed then note (.unresolvedType name scope)
  return type

end SymbolTable

/-- The annotations that options make up. -/
def annotations (options : List Setting) : Except ReflectionError Annotations :=
  match Annotations.ofPairs? (options.map fun s => (s.name, s.value)) with
  | some as => return as
  | none => throw .unwritable

/-- The type of a field: of its values, its elements, or the field itself. -/
def fieldType (symbols : SymbolTable) (scope : Text) (f : Field) : Journal TypeDesc := do
  let type ← symbols.resolve f.typeName scope
  match f.mapKey with
  | some key => return .map (← symbols.resolve key scope) type
  | none => return if f.repeated then .list type else type

/-- Resolves a field. -/
def field (symbols : SymbolTable) (scope : Text) (f : Field) : Noted ReflectionError FieldDesc := do
  let type ← fieldType symbols scope f
  return { name := f.name, type, annotations := ← liftM (annotations f.options),
           comment := f.comment, required := false }

/-- Resolves a message that is declared under a nesting path. -/
def message (symbols : SymbolTable) (package path : Text) (m : Message) :
    Noted ReflectionError StructDesc := do
  let fields ← m.fields.mapM (field symbols (qualify package path))
  return { name := path, fields, annotations := ← liftM (annotations m.options),
           comment := m.comment }

/-- Registers messages; one whose name is taken is not looked at. -/
def registerMessages (symbols : SymbolTable) (package : Text) :
    List (Text × Message) → Table StructDesc → Noted ReflectionError (Table StructDesc)
  | [], table => return table
  | (path, m) :: rest, table => do
    if table.has path then registerMessages symbols package rest table
    else
      let s ← message symbols package path m
      registerMessages symbols package rest (table ++ [(path, s)])

/-- An enumeration under its nesting path, with its values by name. -/
def enumeration (path : Text) (e : Enum) : EnumDesc :=
  ⟨path, Table.insertAll [] (e.values.map fun v => (v.name, v.number)), e.comment⟩

namespace SourceSet

/-- The source of a number. -/
def source? (set : SourceSet) (i : Nat) : Option Source :=
  set.sources[i]?

/-- The sources that the main one reaches, in the order in which they are registered. -/
def order (set : SourceSet) : List Nat :=
  Traversal.breadthFirst set.sources.length fun i =>
    ((set.source? i).map (·.imports)).getD []

/-- The reached files, in order. -/
def files (set : SourceSet) : List File :=
  set.order.filterMap fun i => (set.source? i).map (·.file)

/-- The symbols of all reached files; the first declaration of a name wins. -/
def symbols (set : SourceSet) : SymbolTable :=
  (set.files.flatMap File.symbols).foldl (fun t e => Table.insertNew t e.1 e.2) []

/-- The enumerations of all reached files. -/
def enums (set : SourceSet) : Table EnumDesc :=
  (set.files.flatMap File.enumPaths).foldl
    (fun t e => Table.insertNew t e.1 (enumeration e.1 e.2)) []

/-- Registers the messages of files one after the other. -/
def registerAll (symbols : SymbolTable) :
    List File → Table StructDesc → Noted ReflectionError (Table StructDesc)
  | [], table => return table
  | f :: rest, table => do
    registerAll symbols rest (← registerMessages symbols f.package (walkAll [] f.messages) table)

/-! ## Services -/

/-- The message that a part of a remote procedure refers to; the empty message counts as none. -/
def messageFor (symbols : SymbolTable) (structs : Table StructDesc) (scope : Text)
    (part : MethodPart) (service rpc typeName : Text) :
    Noted ReflectionError (Option StructDesc) := do
  if Text.dropLeading '.' typeName = "google.protobuf.Empty" then return none
  else
    match ← symbols.resolve typeName scope with
    | .struct name =>
      match structs.get? name with
      | some s => return some s
      | none => throw (.unknownStruct part service rpc typeName)
    | _ => throw (.unknownStruct part service rpc typeName)

/-- Notes that a remote procedure is a stream. -/
def noteStreaming (service : Text) (r : Rpc) : Journal Unit :=
  if r.clientStreaming || r.serverStreaming then note (.streaming service r.name) else return ()

/-- Resolves a remote procedure. -/
def method (symbols : SymbolTable) (structs : Table StructDesc) (scope service : Text) (r : Rpc) :
    Noted ReflectionError MethodDesc := do
  noteStreaming service r
  let request ← messageFor symbols structs scope .input service r.name r.input
  let response ← messageFor symbols structs scope .output service r.name r.output
  return { name := r.name, request, response, annotations := ← liftM (annotations r.options),
           comment := r.comment }

/-- Resolves a service. -/
def service (symbols : SymbolTable) (structs : Table StructDesc) (scope : Text) (s : Service) :
    Noted ReflectionError ServiceDesc := do
  let notes ← liftM (annotations s.options)
  return { name := s.name, methods := ← s.rpcs.mapM (method symbols structs scope s.name),
           annotations := notes, comment := s.comment }

/-- Resolves the main source and everything it imports. -/
def reflect (set : SourceSet) : Noted ReflectionError FileDesc := do
  let symbols := set.symbols
  let structs ← registerAll symbols set.files []
  match set.source? 0 with
  | some main =>
    return {
      path := main.path
      package := main.file.package
      services := ← main.file.services.mapM (service symbols structs main.file.package)
      structs
      enums := set.enums
      localStructs := (walkAll [] main.file.messages).map (·.1) }
  | none => throw .unfinished

end SourceSet

end IdlBridge.Proto
