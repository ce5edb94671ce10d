import IdlBridge.Files
import IdlBridge.Proto.Resolve
import IdlBridge.Text.Utf8
import IdlBridge.Thrift.Resolve

/-! # Reflecting files

    Loads an interface definition with everything it includes or imports, and resolves it. A file
    is loaded once, however often and by whichever path it is reached. Includes of a Thrift source
    are looked for beside the source, imports of a Protocol Buffers source beside the main file;
    both are then looked for in the include folders.

    `Loading` keeps the places of the loaded files and the notices; both survive an error. The
    nesting of loads is bounded by the number of files, since each load adds a file.
-/

namespace IdlBridge

namespace Reflection

/-- The alias of an include: the name of the file, without its ending. -/
def aliasOf (path : Text) : Text :=
  let base := Text.afterLast '/' (Text.replaceChar '\\' "/" path)
  let ending : Text := ".thrift"
  if base.endsWith ending then base.take (base.length - ending.length) else base

/-- The disk that can be seen, and the folders that are searched last. -/
structure Place where
  disk : Disk
  includePaths : List Path

namespace Place

/-- The paths where a name is looked for: from `base`, and from each include folder. -/
def candidates (place : Place) (base : Path) (name : Text) : List Path :=
  (base :: place.includePaths).map fun b => b.append (.ofText name)

/-- The file that a name leads to from `base` or from an include folder. -/
def find? (place : Place) (base : Path) (name : Text) : Option (Path × List Text) :=
  (place.candidates base name).findSome? fun p => (place.disk.find? p).map fun parts => (p, parts)

/-- The text of a file. -/
def read (place : Place) (p : Path) (parts : List Text) : Except ReflectionError Text :=
  match place.disk.contents? parts with
  | none => throw (.fileNotFound p.toText)
  | some octets =>
    match Utf8.readFile? octets with
    | some t => return t
    | none => throw (.undecodable p.toText)

end Place

/-- The sources loaded so far with their places; the one given as text has none. -/
structure Loading (σ : Type) where
  loaded : List (Option (List Text) × σ)
  notices : List Notice

namespace Loading

variable {σ : Type}

/-- The number of the source at a place. -/
def find? (l : Loading σ) (parts : List Text) : Option Nat :=
  l.loaded.findIdx? (·.1 = some parts)

/-- Changes a source. -/
def modify (l : Loading σ) (i : Nat) (f : σ → σ) : Loading σ :=
  { l with loaded := l.loaded.modify i fun e => (e.1, f e.2) }

end Loading

/-- A computation that loads sources. -/
abbrev Loader (σ : Type) := ExceptT ReflectionError (StateM (Loading σ))

namespace Loader

variable {σ : Type}

/-- Leaves a notice. -/
def note (n : Notice) : Loader σ Unit :=
  modify fun l => { l with notices := l.notices ++ [n] }

/-- Adds a source and gives its number. -/
def add (parts : Option (List Text)) (s : σ) : Loader σ Nat := do
  let l ← get
  set { l with loaded := l.loaded ++ [(parts, s)] }
  return l.loaded.length

/-- Changes a source. -/
def update (i : Nat) (f : σ → σ) : Loader σ Unit :=
  modify fun l => l.modify i f

/-- The number of the source at a place, loaded unless it already is. -/
def once (parts : List Text) (load : Loader σ Nat) : Loader σ Nat := do
  match (← get).find? parts with
  | some i => return i
  | none => load

/-- Runs a loader; the sources in the order in which they were loaded. -/
def run' {α : Type} (load : Loader σ α) : Except ReflectionError (List σ) × List Notice :=
  let (r, l) := (load.run).run ⟨[], []⟩
  (r.map fun _ => l.loaded.map (·.2), l.notices)

end Loader

/-! ## Thrift -/

/-- Loads the includes of a source, `load` being the way to load a file. -/
def attachIncludes (place : Place) (load : Path → List Text → Loader Thrift.Source Nat)
    (base : Path) (i : Nat) (path : Text) : List Text → Loader Thrift.Source Unit
  | [] => return ()
  | name :: rest => do
    match place.find? base name with
    | none => Loader.note (.includeNotFound name path)
    | some (p, parts) =>
      let j ← Loader.once parts (load p parts)
      Loader.update i fun s => { s with includes := s.includes.insert (aliasOf name) j }
    attachIncludes place load base i path rest

/-- Loads a file and what it includes. -/
def loadThrift (place : Place) : (bound : Nat) → Path → List Text → Loader Thrift.Source Nat
  | 0, _, _ => throw .unfinished
  | bound + 1, p, parts => do
    let text ← liftM (place.read p parts)
    match Thrift.Document.ofText? text with
    | .error e => throw (.thriftSyntax e)
    | .ok d =>
      let i ← Loader.add (some parts) ⟨p.toText, d, []⟩
      Loader.note (.parsed p.toText)
      attachIncludes place (loadThrift place bound) p.parent i p.toText d.includes
      return i

/-! ## Protocol Buffers -/

/-- Loads the imports of a source, `load` being the way to load a file. -/
def attachImports (place : Place) (load : Path → List Text → Loader Proto.Source Nat)
    (root : Path) (i : Nat) (path : Text) : List Text → Loader Proto.Source Unit
  | [] => return ()
  | name :: rest => do
    match place.find? root name with
    | none =>
      if Text.startsWith name "google/protobuf/" then Loader.note (.wellKnownImport name)
      else Loader.note (.importNotFound name path)
    | some (p, parts) =>
      let j ← Loader.once parts (load p parts)
      Loader.update i fun s => { s with imports := s.imports ++ [j] }
    attachImports place load root i path rest

/-- Loads a file and what it imports. -/
def loadProto (place : Place) (root : Path) :
    (bound : Nat) → Path → List Text → Loader Proto.Source Nat
  | 0, _, _ => throw .unfinished
  | bound + 1, p, parts => do
    let text ← liftM (place.read p parts)
    match Proto.File.ofText? text with
    | .error e => throw (.protoSyntax e)
    | .ok f =>
      let i ← Loader.add (some parts) ⟨p.toText, f, []⟩
      Loader.note (.parsed p.toText)
      attachImports place (loadProto place root bound) root i p.toText f.imports
      return i

/-! ## Main files -/

/-- The outcome of a reflection, and the notices it leaves. -/
abbrev Outcome := Except ReflectionError FileDesc × List Notice

/-- Resolves what has been loaded, behind the notices of the loading. -/
def resolve {σ : Type} (reflect : List σ → Noted ReflectionError FileDesc) :
    Except ReflectionError (List σ) × List Notice → Outcome
  | (.error e, notices) => (.error e, notices)
  | (.ok sources, notices) => (reflect sources).run.run notices

/-- Resolves Thrift sources. -/
def resolveThrift : Except ReflectionError (List Thrift.Source) × List Notice → Outcome :=
  resolve fun sources => Thrift.SourceSet.reflect ⟨sources⟩

/-- Resolves Protocol Buffers sources. -/
def resolveProto : Except ReflectionError (List Proto.Source) × List Notice → Outcome :=
  resolve fun sources => Proto.SourceSet.reflect ⟨sources⟩

/-- The bound on the nesting of loads in a place. -/
def Place.bound (place : Place) : Nat :=
  place.disk.files.length + 1

/-- Loads the main file, `load` being the way to load what lies at a place. -/
def loadMain {σ : Type} (place : Place) (p : Path) (load : List Text → Loader σ Nat) :
    Loader σ Nat :=
  match place.disk.find? p with
  | some parts => load parts
  | none => throw (.fileNotFound p.toText)

/-- Reflects a file; its ending tells the language. -/
def ofFile (place : Place) (path : Text) : Outcome :=
  let p := Path.ofText path
  let suffix := p.suffix
  if suffix = ".thrift" then
    resolveThrift (loadMain place p (loadThrift place place.bound p)).run'
  else if suffix = ".proto" then
    resolveProto (loadMain place p (loadProto place p.parent place.bound p)).run'
  else (.error (.unsupportedFile path), [])

/-- The path of a source that is given as a text. -/
def textPath : Text := "<string>"

/-- Reflects a Thrift source given as a text. -/
def ofThriftText (place : Place) (text : Text) : Outcome :=
  match Thrift.Document.ofText? text with
  | .error e => (.error (.thriftSyntax e), [])
  | .ok d =>
    resolveThrift <| Loader.run' do
      let i ← Loader.add none ⟨textPath, d, []⟩
      attachIncludes place (loadThrift place place.bound) ⟨false, []⟩ i textPath d.includes

/-- Reflects a Protocol Buffers source given as a text. -/
def ofProtoText (place : Place) (text : Text) : Outcome :=
  match Proto.File.ofText? text with
  | .error e => (.error (.protoSyntax e), [])
  | .ok f =>
    resolveProto <| Loader.run' do
      let i ← Loader.add none ⟨textPath, f, []⟩
      attachImports place (loadProto place ⟨false, []⟩ place.bound) ⟨false, []⟩ i textPath f.imports

/-! ## What a disk has to hold -/

/-- The names that a source includes or imports, whichever language it is in. -/
def referredNames (text : Text) : List Text × List Text :=
  ((Thrift.Document.ofText? text).toOption.elim [] (·.includes),
    (Proto.File.ofText? text).toOption.elim [] (·.imports))

/-- The paths where the files of a disk look for other files, for a main file at a path. Everything
    that reflecting the main file may read is the main file or lies at one of these paths, as soon
    as the disk holds all of them that exist. -/
def referredPaths (place : Place) (main : Path) : List Path :=
  place.disk.files.flatMap fun (file, octets) =>
    let (includes, imports) := ((Utf8.readFile? octets).map referredNames).getD ([], [])
    includes.flatMap (place.candidates ⟨true, file.dropLast⟩) ++
      imports.flatMap (place.candidates main.parent)

end Reflection

end IdlBridge
