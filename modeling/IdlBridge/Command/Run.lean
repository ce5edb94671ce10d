import IdlBridge.Command.Request
import IdlBridge.Draft.Printer
import IdlBridge.Generation.Document
import IdlBridge.Reflection
import IdlBridge.Spec.Loading

/-! # Running a request

    A run reads from a disk and leaves a transcript: what it shows, what it logs and the file that
    it writes. It ends early where the input is at fault, or where the data cannot be worked on;
    what has been shown until then stays.
-/

namespace IdlBridge.Command

/-- Why data cannot be worked on. -/
inductive Fault where
  /-- Data of this kind is no option literal. -/
  | noLiteral (kind : Text)
  /-- Data has the wrong shape, stands for nothing or cannot be written down. -/
  | data
  /-- Nothing can be written to a path. -/
  | unwritable (path : Text)
deriving DecidableEq

namespace Fault

/-- The fault in words. -/
def message : Fault → Text
  | .noLiteral kind => (Draft.ConvertError.noLiteral kind).message
  | .data => "the data cannot be converted"
  | .unwritable path => "cannot write " ++ path

end Fault

/-- How a run ends early. -/
inductive Stop where
  | exit (code : Nat)
  | fault (f : Fault)
deriving DecidableEq

/-- A file that has been written. -/
structure Written where
  /-- The path that it has been written to. -/
  path : Text
  place : List Text
  contents : Octets

/-- What a run leaves behind. -/
structure Transcript where
  out : Text := []
  err : Text := []
  written : Option Written := none

/-- A step of a run. -/
abbrev Run := ExceptT Stop (StateM Transcript)

namespace Run

/-- Shows a line. -/
def say (line : Text) : Run Unit :=
  modify fun t => { t with out := t.out ++ line ++ "\n" }

/-- Adds a line to the log. -/
def log (line : Text) : Run Unit :=
  modify fun t => { t with err := t.err ++ line ++ "\n" }

/-- Logs the notices that are to be seen. -/
def logAll (verbose : Bool) (notices : List Notice) : Run Unit :=
  (notices.filter fun n => verbose || n.isWarning).forM fun n => log n.logLine

/-- Ends a run because of its input. -/
def fatal {α : Type} (message : Text) : Run α := do
  log ("FATAL: " ++ message)
  throw (.exit 1)

/-- Ends a run because data cannot be worked on. -/
def fail {α : Type} (f : Fault) : Run α :=
  throw (.fault f)

/-- Runs a computation that leaves notices. -/
def noted {ε α : Type} (verbose : Bool) (step : Noted ε α) : Run (Except ε α) := do
  let (r, notices) := step.run.run []
  logAll verbose notices
  return r

/-- Writes the text that `print` gives to a path. The folders on the way are made first; a text that
    cannot be encoded leaves an empty file behind. -/
def writeFile (disk : Disk) (path : Text) (print : Except Fault Text) : Run Unit := do
  match disk.makeFor path with
  | none => fail (.unwritable path)
  | some made =>
    match print with
    | .error f => fail f
    | .ok text =>
      match disk.target? made path with
      | none => fail (.unwritable path)
      | some place =>
        -- The file is opened before its text is encoded.
        let octets := Utf8.encode? text
        modify fun t => { t with written := some ⟨path, place, octets.getD []⟩ }
        if octets.isNone then fail .data

end Run

/-- A number with the word for what is counted. -/
def counted (n : Nat) (what : Text) : Text :=
  Text.ofNat n ++ " " ++ what

/-! ## From documents -/

/-- The fault of a conversion that cannot go on, if the document itself is not to blame. -/
def faultOf? : Draft.ConvertError → Option Fault
  | .misshapen => some .data
  | .noLiteral kind => some (.noLiteral kind)
  | _ => none

/-- The text of a draft. -/
def draftText (f : Draft.File) : Except Fault Text :=
  match f.toText with
  | .ok t => .ok t
  | .error (.noLiteral kind) => .error (.noLiteral kind)
  | .error .unprintable => .error .data

/-- The document of a file. -/
def loadDocument (disk : Disk) (verbose : Bool) (path : Text) : Run Value.Entries := do
  match ← Run.noted verbose (Spec.ofFile disk path) with
  | .ok doc => return doc
  | .error .impossible | .error .unwritable => Run.fail .data
  | .error e => Run.fatal e.message

/-- The draft of a document. -/
def draftDocument (verbose : Bool) (t : ToProto) (doc : Value.Entries) : Run Draft.File := do
  let (r, notices) := Draft.ofDocument t.choice t.package (.map doc)
  Run.logAll verbose notices
  match r with
  | .ok f => return f
  | .error e =>
    match faultOf? e with
    | some f => Run.fail f
    | none => Run.fatal e.message

/-- Converts a document to an interface definition. -/
def ToProto.run (disk : Disk) (verbose : Bool) (t : ToProto) : Run Unit := do
  let doc ← loadDocument disk verbose t.spec
  Run.say ("Parsed " ++ t.spec ++ ": " ++
    counted (Spec.sectionEntries doc "paths").length "path(s)")
  let file ← draftDocument verbose t doc
  Run.say ("Converted " ++ counted file.messages.length "message(s), " ++
    counted file.enums.length "enum(s) and " ++ counted file.services.length "service(s)")
  Run.writeFile disk t.output (draftText file)
  Run.say ("Generated: " ++ t.output)
  Run.say "Done!"

/-! ## To documents -/

/-- The descriptors of a file. -/
def reflectFile (disk : Disk) (verbose : Bool) (t : ToOpenApi) : Run FileDesc := do
  let (r, notices) := Reflection.ofFile ⟨disk, t.includes.map Path.ofText⟩ t.idl
  Run.logAll verbose notices
  match r with
  | .ok file => return file
  | .error .unwritable | .error .unfinished => Run.fail .data
  | .error e => Run.fatal e.message

/-- The text of a document. -/
def documentText (doc : OpenApi.Object) : Except Fault Text :=
  match Generation.render? doc with
  | some t => .ok t
  | none => .error .data

/-- The document of a reflected file. -/
def generateDocument (verbose : Bool) (config : Generation.Config) (file : FileDesc) :
    Run OpenApi.Object := do
  match ← Run.noted verbose (Generation.documentOf config file) with
  | .ok doc => return doc
  | .error .impossiblePayload => Run.fail .data

/-- Converts an interface definition to a document. -/
def ToOpenApi.run (disk : Disk) (verbose : Bool) (t : ToOpenApi) : Run Unit := do
  if (disk.find? (.ofText t.idl)).isNone then
    Run.say ("No such IDL file: " ++ t.idl)
    throw (.exit 1)
  let file ← reflectFile disk verbose t
  Run.say ("Parsed " ++ t.idl ++ ": " ++ counted file.services.length "service(s), " ++
    counted file.structs.length "struct(s)")
  let doc ← generateDocument verbose t.config file
  let components := (doc.object? .components).getD (.empty .components)
  Run.say ("Built " ++ counted (doc.table .paths).length "path(s) and " ++
    counted (components.table .schemas).length "schema(s)")
  Run.writeFile disk t.output (documentText doc)
  Run.say ("Generated: " ++ t.output)
  Run.say "Done!"

/-! ## Requests -/

/-- Does what has been asked for. -/
def Task.run (disk : Disk) (verbose : Bool) : Task → Run Unit
  | .toProto t => t.run disk verbose
  | .toOpenApi t => t.run disk verbose

/-- Does what a command line has asked for. -/
def Request.run (disk : Disk) : Request → Run Unit
  | .help text => modify fun t => { t with out := t.out ++ text }
  | .convert verbose task => task.run disk verbose

/-- What a request does on a disk: how it ends, and what it leaves behind. -/
def Request.perform (r : Request) (disk : Disk) : Except Stop Unit × Transcript :=
  (r.run disk).run.run {}

end IdlBridge.Command
