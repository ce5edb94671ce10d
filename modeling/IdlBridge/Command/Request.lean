import IdlBridge.Command.Help
import IdlBridge.Command.Words
import IdlBridge.Draft.FromDocument
import IdlBridge.Generation.Config

/-! # What a command line asks for

    A command line names a conversion, the file to convert and the settings of the conversion, or
    asks for help. Words take effect from left to right; words that nothing is known about are
    complained about last.
-/

namespace IdlBridge.Command

/-- The conversion of a document to an interface definition. -/
structure ToProto where
  spec : Text := []
  output : Text := "output.proto"
  package : Option Text := none
  choice : Draft.OptionChoice := {}

/-- The conversion of an interface definition to a document. -/
structure ToOpenApi where
  idl : Text := []
  output : Text := "openapi.yaml"
  config : Generation.Config := {}
  includes : List Text := []

/-- What is to be done. -/
inductive Task where
  | toProto (t : ToProto)
  | toOpenApi (t : ToOpenApi)

/-- What a command line asks for. -/
inductive Request where
  | help (text : Text)
  | convert (verbose : Bool) (task : Task)

/-! ## Commands -/

/-- A command: its options, what it says of itself, and how options and its argument change what
    it does. -/
structure Form (κ σ : Type) where
  specs : List (OptionSpec κ)
  /-- The option asks for help. -/
  isHelp : κ → Bool
  help : Text
  /-- The name of the argument. -/
  argument : Text
  apply : Given κ → σ → Except Misuse σ
  setArgument : Text → σ → σ

/-- What reading the words of a command has led to. -/
inductive Reading (σ : Type) where
  | help
  | done (task : σ)

namespace Form

variable {κ σ : Type}

/-- Applies options; `none` if one of them asks for help. -/
def applyAll (f : Form κ σ) : List (Given κ) → σ → Except Misuse (Option σ)
  | [], task => .ok (some task)
  | g :: rest, task =>
    if f.isHelp g.key then .ok none
    else do f.applyAll rest (← f.apply g task)

/-- Reads the words of a command. `hasArgument` tells whether its argument has been read, and
    `unrecognized` is the first word that nothing is known about. -/
def readWords (f : Form κ σ) : (bound : Nat) → (hasArgument : Bool) →
    (unrecognized : Option Text) → List (Text × Role κ) → σ → Except Misuse (Reading σ)
  | 0, _, _, _, _ => .error (.argumentMissing f.argument)
  | _ + 1, hasArgument, unrecognized, [], task =>
    -- A missing argument is complained about before an unknown word.
    if !hasArgument then .error (.argumentMissing f.argument)
    else
      match unrecognized with
      | some word => .error (.unrecognized word)
      | none => .ok (.done task)
  | bound + 1, hasArgument, unrecognized, (word, role) :: rest, task =>
    match role with
    | .option spec name value => do
      let r ← readOption f.specs spec name value rest
      match ← f.applyAll r.given task with
      | none => return .help
      | some task => f.readWords bound hasArgument (unrecognized.or r.unrecognized) r.rest task
    | .unknown => f.readWords bound hasArgument (unrecognized.or (some word)) rest task
    | .argument =>
      if hasArgument then f.readWords bound true (unrecognized.or (some word)) rest task
      else f.readWords bound true unrecognized (dropDivider rest) (f.setArgument word task)
    | .divider =>
      match hasArgument, rest with
      | false, (argument, _) :: rest =>
        f.readWords bound true unrecognized rest (f.setArgument argument task)
      -- A divider that does not lead to the argument is itself a word that nothing is known about.
      | _, _ => f.readWords bound hasArgument (unrecognized.or (some word)) rest task
where
  /-- A divider directly behind the argument belongs to it. -/
  dropDivider : List (Text × Role κ) → List (Text × Role κ)
    | (_, .divider) :: rest => rest
    | words => words

/-- Reads the words of a command, from what it does when nothing is said. -/
def read (f : Form κ σ) (words : List Text) (task : σ) : Except Misuse (Reading σ) := do
  let words ← rolesOf f.specs words
  f.readWords (words.length + 1) false none words task

end Form

/-! ## From documents -/

/-- The options of the conversion to an interface definition. -/
inductive ToProtoKey where
  | help
  | output
  | package
  | openapiOption
  | noApiOption
deriving DecidableEq

/-- The conversion to an interface definition. -/
def toProtoForm : Form ToProtoKey ToProto where
  specs := [⟨.help, ["-h", "--help"], false⟩, ⟨.output, ["-o", "--output"], true⟩,
    ⟨.package, ["--package"], true⟩, ⟨.openapiOption, ["--openapi-option"], false⟩,
    ⟨.noApiOption, ["--no-api-option"], false⟩]
  isHelp := (· = .help)
  help := Help.toProto
  argument := "spec"
  apply g t :=
    match g.key with
    | .help => .ok t
    | .output => .ok { t with output := g.value }
    | .package => .ok { t with package := some g.value }
    | .openapiOption => .ok { t with choice := { t.choice with operations := true } }
    | .noApiOption => .ok { t with choice := { t.choice with routes := false } }
  setArgument word t := { t with spec := word }

/-! ## To documents -/

/-- The options of the conversion to a document. -/
inductive ToOpenApiKey where
  | help
  | output
  | mode
  | title
  | description
  | version
  | server
  | includeFolder
deriving DecidableEq

/-- The conversion to a document. -/
def toOpenApiForm : Form ToOpenApiKey ToOpenApi where
  specs := [⟨.help, ["-h", "--help"], false⟩, ⟨.output, ["-o", "--output"], true⟩,
    ⟨.mode, ["--mode"], true⟩, ⟨.title, ["--title"], true⟩,
    ⟨.description, ["--description"], true⟩, ⟨.version, ["--version"], true⟩,
    ⟨.server, ["--server"], true⟩, ⟨.includeFolder, ["-I", "--include"], true⟩]
  isHelp := (· = .help)
  help := Help.toOpenApi
  argument := "idl"
  apply g t :=
    let value := some g.value
    match g.key with
    | .help => .ok t
    | .output => .ok { t with output := g.value }
    | .mode =>
      match Generation.Mode.ofName? g.value with
      | some mode => .ok { t with config := { t.config with mode } }
      | none => .error (.notOffered g.value)
    | .title => .ok { t with config := { t.config with title := value } }
    | .description => .ok { t with config := { t.config with description := value } }
    | .version => .ok { t with config := { t.config with version := value } }
    | .server => .ok { t with config := { t.config with serverUrl := value } }
    | .includeFolder => .ok { t with includes := t.includes ++ [g.value] }
  setArgument word t := { t with idl := word }

/-! ## The program -/

/-- The options in front of the command. -/
inductive ProgramKey where
  | help
  | verbose
deriving DecidableEq

/-- The options in front of the command with their names. -/
def programSpecs : List (OptionSpec ProgramKey) :=
  [⟨.help, ["-h", "--help"], false⟩, ⟨.verbose, ["--verbose", "-v"], false⟩]

namespace Request

/-- The request that the words of a command lead to. -/
def ofReading {σ : Type} (help : Text) (verbose : Bool) (task : σ → Task) : Reading σ → Request
  | .help => .help help
  | .done t => .convert verbose (task t)

/-- Reads the command and its words. -/
def ofCommand (verbose : Bool) (command : Text) (words : List Text) : Except Misuse Request := do
  if command = "openapi2proto" then
    return ofReading Help.toProto verbose .toProto (← toProtoForm.read words {})
  else if command = "idl2openapi" then
    return ofReading Help.toOpenApi verbose .toOpenApi (← toOpenApiForm.read words {})
  else throw (.notOffered command)

/-- A request behind words that nothing is known about: only help is still given. -/
def complain (unrecognized : Option Text) : Request → Except Misuse Request
  | .help text => .ok (.help text)
  | request =>
    match unrecognized with
    | some word => .error (.unrecognized word)
    | none => .ok request

/-- Reads the words of the program up to the command. -/
def ofRoles : (bound : Nat) → (verbose : Bool) → (unrecognized : Option Text) →
    List (Text × Role ProgramKey) → Except Misuse Request
  | 0, _, _, _ | _ + 1, _, _, [] => .error (.argumentMissing "command")
  | bound + 1, verbose, unrecognized, (word, role) :: rest =>
    match role with
    | .option spec name value => do
      let r ← readOption programSpecs spec name value rest
      if r.given.any (·.key = .help) then return .help Help.program
      else ofRoles bound true (unrecognized.or r.unrecognized) r.rest
    | .unknown => ofRoles bound verbose (unrecognized.or (some word)) rest
    | .argument => do complain unrecognized (← ofCommand verbose word (rest.map (·.1)))
    | .divider =>
      if rest.isEmpty then .error (.argumentMissing "command") else .error (.notOffered word)

/-- The request of a command line. -/
def ofWords (words : List Text) : Except Misuse Request := do
  let words ← rolesOf programSpecs words
  ofRoles (words.length + 1) false none words

end Request

end IdlBridge.Command
