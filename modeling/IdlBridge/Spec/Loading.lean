import IdlBridge.Files
import IdlBridge.Notice
import IdlBridge.Spec.Pointer
import IdlBridge.Text.Utf8
import IdlBridge.Value.Display
import IdlBridge.Yaml.Document

/-! # Loading documents

    An OpenAPI document is loaded from its text, checked, and its references to parameters, request
    bodies, responses and headers are replaced by what they lead to. References to schemas stay,
    but have to lead somewhere.

    Replacing is a walk over the data, which is free, and following of references, which is
    bounded: a chain of more references than the document holds has followed one of them twice, so
    it ends with the error that a circular chain has. How deeply the data nests is not limited, as
    it would be by a stack.

    The items of the paths are replaced in place, and an alias can have the mapping of the paths at
    other places of the document, which then change with it. What replaces a reference is a copy,
    and nothing is put into it later.
-/

namespace IdlBridge.Spec

/-- Why a document cannot be loaded. -/
inductive LoadError where
  /-- The file is missing or its octets are no text. -/
  | unreadable (path : Text)
  | malformed (source : Text)
  | notMapping (source : Text)
  | unsupportedVersion (source version : Text)
  | sectionNotMapping (source key : Text)
  | pathItemNotMapping (path : Text)
  | circular (ref : Text)
  | pointer (e : PointerError)
  /-- The document holds a scalar that stands for nothing. -/
  | impossible
  /-- A number of the document is too long to be shown. -/
  | unwritable
deriving DecidableEq

namespace LoadError

/-- The error in words. -/
def message : LoadError → Text
  | .unreadable path => "failed to read file " ++ path
  | .malformed source => "failed to parse " ++ source
  | .notMapping source => source ++ ": document root must be a mapping"
  | .unsupportedVersion source version =>
    let shown : Text := if version = [] then "(missing)" else version
    source ++ ": unsupported OpenAPI version " ++ Text.quoted shown
  | .sectionNotMapping source key => source ++ ": '" ++ key ++ "' must be a mapping"
  | .pathItemNotMapping path => "path " ++ path ++ ": path item must be a mapping"
  | .circular ref => "circular reference " ++ ref
  | .pointer e => e.message
  | .impossible => "impossible scalar"
  | .unwritable => "a number is too long"

end LoadError

/-! ## References -/

/-- The sections of the components whose references are replaced. -/
def inlinedSections : List Text :=
  ["parameters", "requestBodies", "responses", "headers"]

/-- The reference leads into a section whose references are replaced. -/
def isInlined (ref : Text) : Bool :=
  match Pointer.section? ref with
  | some name => inlinedSections.contains name
  | none => false

/-- The reference of a mapping, if it has one. -/
def reference? (entries : Value.Entries) : Option Text :=
  match entries.get? (.text "$ref") with
  | some (.text ref) => some ref
  | _ => none

/-- The data with its references replaced; `follow` gives the replacement of a reference that is
    replaced, and `check` tells whether another one leads somewhere. -/
def replace (follow : Text → Except LoadError Value) (check : Text → Except LoadError Unit) :
    Value → Except LoadError Value
  | .list xs => do return .list (← items xs)
  | .map es =>
    match reference? es with
    | some ref => if isInlined ref then follow ref else do check ref; return .map es
    | none => do return .map (← entries es)
  | v => .ok v
where
  items : List Value → Except LoadError (List Value)
    | [] => .ok []
    | x :: rest => do
      let x ← replace follow check x
      return x :: (← items rest)
  entries : List (Value × Value) → Except LoadError (List (Value × Value))
    | [] => .ok []
    | (k, v) :: rest => do
      let v ← replace follow check v
      return (k, v) :: (← entries rest)

/-- A reference leads somewhere. -/
def checkPointer (doc : Value) (ref : Text) : Except LoadError Unit :=
  match Pointer.resolve doc ref with
  | .ok _ => .ok ()
  | .error e => .error (.pointer e)

/-- The data with its references replaced by what they lead to, inside the replacements of the
    `active` references. -/
def inline (doc : Value) : (bound : Nat) → (active : List Text) → Value → Except LoadError Value
  | 0, _, v => replace (fun ref => .error (.circular ref)) (checkPointer doc) v
  | bound + 1, active, v =>
    replace (fun ref =>
      if ref ∈ active then .error (.circular ref)
      else
        match Pointer.resolve doc ref with
        | .ok target => inline doc bound (ref :: active) target
        | .error e => .error (.pointer e))
      (checkPointer doc) v

/-- The references of all mappings of the data. -/
def references : Value → List Text
  | .list xs => items xs
  | .map es => (reference? es).toList ++ entries es
  | _ => []
where
  items : List Value → List Text
    | [] => []
    | x :: rest => references x ++ items rest
  entries : List (Value × Value) → List Text
    | [] => []
    | (_, v) :: rest => references v ++ entries rest

/-- All references of the data lead somewhere. -/
def checkReferences (check : Text → Except LoadError Unit) : Value → Except LoadError Unit
  | v => (references v).forM check

/-- The data with the entries of the mapping at a place changed. -/
def changeAt (f : Value.Entries → Value.Entries) : (place : List Nat) → Value → Value
  | [], .map es => .map (f es)
  | i :: place, .map es => .map (es.modify i fun e => (e.1, changeAt f place e.2))
  | i :: place, .list xs => .list (xs.modify i (changeAt f place))
  | 0 :: place, .pair a b => .pair (changeAt f place a) b
  | _ :: place, .pair a b => .pair a (changeAt f place b)
  | _, v => v

/-- The document with a new value for a path, in the mapping of its paths. The mapping may lie at
    other places too, and then the new value is there as well. -/
def setPath (others : List (List Nat)) (doc : Value.Entries) (path item : Value) : Value.Entries :=
  let change paths := Value.Entries.insert paths path item
  match doc.get? (.text "paths") with
  | some (.map paths) =>
    let doc := doc.insert (.text "paths") (.map (change paths))
    match others.foldl (fun v place => changeAt change place v) (.map doc) with
    | .map doc => doc
    | _ => doc
  | _ => doc

/-- Replaces the references of the path items one after the other. -/
def inlinePaths (others : List (List Nat)) (bound : Nat) :
    List (Value × Value) → Value.Entries → Except LoadError Value.Entries
  | [], doc => .ok doc
  | (path, item) :: rest, doc =>
    match item with
    | .map _ => do
      let item ← inline (.map doc) bound [] item
      inlinePaths others bound rest (setPath others doc path item)
    | _ =>
      match path.display? with
      | some t => .error (.pathItemNotMapping t)
      | none => .error .unwritable

/-- The entries of a section of a document; a section that is missing or empty has none. -/
def sectionEntries (doc : Value.Entries) (key : Text) : Value.Entries :=
  match doc.get? (.text key) with
  | some (.map es) => es
  | _ => []

/-- The document with its references replaced, and the others checked. `others` are the places other
    than the section of the paths at which the mapping of the paths lies. -/
def inlineReferences (doc : Value.Entries) (others : List (List Nat) := []) :
    Except LoadError Value.Entries := do
  let bound := (references (.map doc)).length
  let doc ← inlinePaths others bound (sectionEntries doc "paths") doc
  checkReferences (checkPointer (.map doc)) (.map (sectionEntries doc "components"))
  return doc

/-- The places other than the section of the paths at which a document has the mapping of its
    paths. -/
def otherPlaces (doc : Loaded) : List (List Nat) :=
  match doc with
  | .map _ es =>
    match Value.Entries.get? es (.text "paths") with
    | some (.map (some mark) _) =>
      let own := es.findIdx fun e => e.1.sameKey (.text "paths")
      (doc.places mark).filter (· ≠ [own])
    | _ => []
  | _ => []

/-! ## Documents -/

/-- The version that a document gives. -/
def version? (doc : Value.Entries) : Option Text :=
  ((doc.get? (.text "openapi")).getD (.text [])).display?

/-- A section that is given is a mapping. -/
def checkSection (source : Text) (doc : Value.Entries) (key : Text) : Except LoadError Unit :=
  match doc.get? (.text key) with
  | none | some .null | some (.map _) => .ok ()
  | _ => .error (.sectionNotMapping source key)

/-- Checks the version and the sections of a document. -/
def validate (source : Text) (doc : Value.Entries) : Except LoadError Text := do
  match version? doc with
  | none => throw .unwritable
  | some version =>
    if !Text.startsWith version "3." then throw (.unsupportedVersion source version)
    checkSection source doc "paths"
    checkSection source doc "components"
    return version

/-- The document that a text holds. -/
def ofText (source t : Text) : Noted LoadError Value.Entries := do
  match Yaml.read t with
  | .error f => throw (if f.isMalformed then .malformed source else .impossible)
  | .ok x =>
    match x.plain with
    | .map doc =>
      let version ← liftExcept (validate source doc)
      note (.validated source version)
      liftExcept (inlineReferences doc (otherPlaces x))
    | _ => throw (.notMapping source)
where
  liftExcept {α : Type} (r : Except LoadError α) : Noted LoadError α :=
    match r with
    | .ok x => return x
    | .error e => throw e

/-- The document that a file holds. -/
def ofFile (disk : Disk) (path : Text) : Noted LoadError Value.Entries := do
  match ((disk.find? (.ofText path)).bind disk.contents?).bind Utf8.readFile? with
  | some t => ofText path t
  | none => throw (.unreadable path)

end IdlBridge.Spec
