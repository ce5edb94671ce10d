import IdlBridge.Draft.Basic

/-! # Writing drafts

    The text of a draft as a Protocol Buffers file. The order in which declarations were added does
    not matter: declarations of one kind are sorted by name, and the values of an enumeration by
    number. Fields are numbered in their sorted order.

    Declarations are written one by one and sorted with their texts, so a message is written by
    recursion on its nested messages.
-/

namespace IdlBridge.Draft

/-- Why a draft cannot be written. -/
inductive PrintError where
  /-- The value of a file option has no literal. -/
  | noLiteral (kind : Text)
  /-- Names have no order, or a number is too long. -/
  | unprintable
deriving DecidableEq

namespace Printer

/-- One step of indentation. -/
def step : Text := "  "

/-- All items if there are all. -/
def all? {α : Type} : List (Option α) → Option (List α)
  | [] => some []
  | a :: rest =>
    match a, all? rest with
    | some x, some xs => some (x :: xs)
    | _, _ => none

/-- The texts of declarations in the order of their names. -/
def sorted? (declarations : List (Name × Text)) : Option Text :=
  (Value.sortBy? (·.1) declarations).map fun ds => ds.flatMap (·.2)

/-- A block with a heading. -/
def block (indent heading body : Text) : Text :=
  indent ++ heading ++ " \x7b\n" ++ body ++ indent ++ "\x7d\n"

/-! ## Enumerations -/

/-- A value of an enumeration. -/
def enumValue? (indent : Text) (v : EnumValue) : Option Text :=
  (Value.intText? v.number).map fun n => indent ++ v.name ++ " = " ++ n ++ ";\n"

/-- An enumeration. -/
def enum? (indent : Text) (e : Enum) : Option Text :=
  let values := e.values.mergeSort fun a b => a.number ≤ b.number
  (all? (values.map (enumValue? (indent ++ step)))).map fun lines =>
    block indent ("enum " ++ e.name) lines.flatten

/-- Enumerations, each with its name. -/
def enums? (indent : Text) (es : List Enum) : Option (List (Name × Text)) :=
  all? (es.map fun e => (enum? indent e).map (Prod.mk e.key))

/-! ## Options -/

/-- An option between brackets. -/
def bracketed? (s : Setting) : Option Text :=
  (s.value.toText? (step ++ step)).map fun t => "(" ++ s.name ++ ") = " ++ t

/-- The options of a field. -/
def fieldSettings? (ss : List Setting) : Option Text :=
  if ss.isEmpty then some []
  else (all? (ss.map bracketed?)).map fun ts => " [" ++ Text.join ", " ts ++ "]"

/-- The statement of an option. -/
def setting? (indent : Text) (s : Setting) : Option Text :=
  (s.value.toText? indent).map fun t => indent ++ "option (" ++ s.name ++ ") = " ++ t ++ ";\n"

/-- The statements of options. -/
def settings? (indent : Text) (ss : List Setting) : Option Text :=
  (all? (ss.map (setting? indent))).map List.flatten

/-! ## Messages -/

/-- A field with its number. -/
def field? (indent : Text) (f : Field) (number : Nat) : Option Text :=
  match f.name.display?, fieldSettings? f.settings with
  | some name, some settings =>
    let label : Text := if f.repeated then "repeated " else ""
    some (indent ++ label ++ f.type ++ " " ++ name ++ " = " ++ Text.ofNat number ++ settings ++
      ";\n")
  | _, _ => none

/-- Fields, numbered in the order of their names. -/
def fields? (indent : Text) (fs : List Field) : Option Text :=
  match Value.sortBy? Field.name fs with
  | none => none
  | some fs => (all? ((fs.zipIdx 1).map fun (f, n) => field? indent f n)).map List.flatten

/-- A message. -/
def message? (indent : Text) : Message → Option Text
  | { name, fields, messages := nested, enums, settings } => do
    let settings ← settings? (indent ++ step) settings
    let enums ← sorted? (← enums? (indent ++ step) enums)
    let fields ← fields? (indent ++ step) fields
    let nested ← sorted? (← messages? (indent ++ step) nested)
    return block indent ("message " ++ (← name.display?)) (settings ++ enums ++ fields ++ nested)
where
  /-- Messages, each with its name. -/
  messages? (indent : Text) : List Message → Option (List (Name × Text))
    | [] => some []
    | m :: rest =>
      match message? indent m, messages? indent rest with
      | some t, some ts => some ((m.name, t) :: ts)
      | _, _ => none

/-! ## Services -/

/-- A method. -/
def method? (m : Method) : Option Text := do
  let name ← m.name.display?
  let output ← m.output.display?
  let head := step ++ "rpc " ++ name ++ "(" ++ m.input ++ ") returns (" ++ output ++ ")"
  if m.settings.isEmpty then return head ++ ";\n"
  else return head ++ " \x7b\n" ++ (← settings? (step ++ step) m.settings) ++ step ++ "\x7d\n"

/-- Methods, each with its name. -/
def methods? (ms : List Method) : Option (List (Name × Text)) :=
  all? (ms.map fun m => (method? m).map (Prod.mk m.name))

/-- A service. -/
def service? (s : Service) : Option Text := do
  let name ← s.name.display?
  return block [] ("service " ++ name) (← sorted? (← methods? s.methods))

/-- Services, each with its name. -/
def services? (ss : List Service) : Option (List (Name × Text)) :=
  all? (ss.map fun s => (service? s).map (Prod.mk s.name))

/-! ## Files -/

/-- Declarations at the top level, an empty line behind each. -/
def spaced (declarations : List (Name × Text)) : List (Name × Text) :=
  declarations.map fun d => (d.1, d.2 ++ "\n")

/-- Statements with an empty line behind them, if there are any. -/
def paragraph (statements : List Text) : Text :=
  if statements.isEmpty then [] else statements.flatten ++ "\n"

/-- The statements of imports. -/
def imports (paths : List Text) : List Text :=
  (paths.mergeSort Text.le).map fun p => ("import \"" : Text) ++ p ++ ("\";\n" : Text)

/-- The literals of file options. -/
def literals (settings : Table Value) : Except PrintError (Table Literal) :=
  match settings with
  | [] => .ok []
  | (name, v) :: rest => do
    match Literal.ofValue v with
    | .error (.kind k) => throw (.noLiteral k)
    | .error .key => throw .unprintable
    | .ok l => return (name, l) :: (← literals rest)

/-- The statements of file options. -/
def fileSettings? (settings : Table Literal) : Option (List Text) :=
  all? (settings.map fun e =>
    (e.2.toText? []).map fun t =>
      ("option " : Text) ++ e.1 ++ (" = " : Text) ++ t ++ (";\n" : Text))

/-- The text of a file whose options have been read. -/
def file? (f : File) (settings : Table Literal) : Option Text := do
  let package : Text := if f.package = [] then "" else "package " ++ f.package ++ ";\n\n"
  let settings ← fileSettings? settings
  let enums ← sorted? (spaced (← enums? [] f.enums))
  let messages ← sorted? (spaced (← message?.messages? [] f.messages))
  let services ← sorted? (spaced (← services? f.services))
  let text := "syntax = \"proto3\";\n\n" ++ package ++ paragraph (imports f.imports) ++
    paragraph settings ++ enums ++ messages ++ services
  return Text.dropEndWhile (· == '\n') text ++ "\n"

end Printer

/-- The text of a draft. -/
def File.toText (f : File) : Except PrintError Text := do
  let settings ← Printer.literals (Table.sort f.settings)
  match Printer.file? f settings with
  | some t => return t
  | none => throw .unprintable

end IdlBridge.Draft
