import IdlBridge.Proto.Parser

/-! # Stages of the parsers

    The rounds of the loops, and what parsers go on with behind an optional part, as parsers of
    their own with what has been read so far as their arguments.  A fact about one of them is proved
    once and used wherever the parser comes to it.
-/

namespace IdlBridge.Proto.Parser

open Idl Idl.Parser

/-- An entry of an aggregate from its constant on, added to the ones before it. -/
def entryRest (constant : Parser Value) (es : Value.Entries) (key : Text) :
    Parser Value.Entries := do
  let v ← constant
  if !(← accept (.delimiter .comma)) then
    let _ ← accept (.delimiter .semicolon)
  return collect es key v

/-- An entry of an aggregate, added to the ones before it. -/
def entryRound (constant : Parser Value) (es : Value.Entries) : Parser Value.Entries := do
  let key ← name
  let _ ← accept (.delimiter .colon)
  entryRest constant es key

/-- A field from its name on, where `make` says what becomes of its name, its number, its options
    and its last token. -/
def fieldEnd {α : Type} (make : Text → Int → List Setting → Token → α) : Parser α := do
  let fieldName ← name
  delimiter .equals
  let number ← expect .number
  let options ← fieldOptions
  let last ← expect (.delimiter .semicolon)
  return make fieldName (← intOf number) options last

/-- A plain field from its type on. -/
def fieldRest (first : Token) (oneof : Option Text) : Parser Field := do
  let typeName ← name
  fieldEnd fun name number options last =>
    { typeName, name, number, repeated := first.kind = .keyword .repeated, mapKey := none, oneof,
      options, comment := commentAround first last }

theorem field_eq (oneof : Option Text) : field oneof = (do
    let first ← peek
    let labelled := first.kind = .keyword .repeated ∨ first.kind = .keyword .optional ∨
      first.kind = .keyword .required
    if labelled then
      let _ ← advance
    fieldRest first oneof) := rfl

theorem mapField_eq : mapField = (do
    let first ← keyword .map
    delimiter .leftAngle
    let key ← name
    delimiter .comma
    let typeName ← name
    delimiter .rightAngle
    fieldEnd fun name number options last =>
      { typeName, name, number, repeated := false, mapKey := some key, oneof := none, options,
        comment := commentAround first last }) := rfl

/-- A value of an enumeration. -/
def enumValue (e : Enum) : Parser Enum := do
  let valueName ← name
  delimiter .equals
  let number ← intOf (← expect .number)
  let options ← fieldOptions
  delimiter .semicolon
  return { e with values := e.values ++ [⟨valueName, number, options⟩] }

/-- One round of the loop over the parts of an enumeration. -/
def enumRound (e : Enum) : Parser Enum := do
  match (← peek).kind with
  | .keyword .option => return { e with options := e.options ++ [← optionStatement] }
  | .keyword .reserved =>
    skipStatement
    return e
  | .delimiter .semicolon =>
    let _ ← advance
    return e
  | _ => enumValue e

theorem enumeration_eq : enumeration = (do
    let start ← keyword .enum
    let enumName ← name
    delimiter .leftBrace
    let e ← repeatUntil (isAt .rightBrace) ⟨enumName, [], [], start.comment⟩ enumRound
    delimiter .rightBrace
    return e) := rfl

/-- One round of the loop over the parts of a message, or of a group of alternatives. -/
def messageRound (bound : Nat) (oneof : Option Text) (m : Message) : Parser Message := do
  match (← peek).kind with
  | .keyword .message => return { m with messages := m.messages ++ [← message bound] }
  | .keyword .enum => return { m with enums := m.enums ++ [← enumeration] }
  | .keyword .option => return { m with options := m.options ++ [← optionStatement] }
  | .keyword .oneof =>
    let _ ← advance
    let group ← name
    delimiter .leftBrace
    let m ← messageBody bound (some group) m
    delimiter .rightBrace
    return m
  | .keyword .map => return { m with fields := m.fields ++ [← mapField] }
  | .keyword .reserved | .keyword .extensions =>
    skipStatement
    return m
  | .keyword .extend =>
    skipBlock
    return m
  | .delimiter .semicolon =>
    let _ ← advance
    return m
  | _ => return { m with fields := m.fields ++ [← field oneof] }

theorem messageBody_succ (bound : Nat) (oneof : Option Text) (m : Message) :
    messageBody (bound + 1) oneof m =
      repeatUntil (isAt .rightBrace) m (messageRound bound oneof) := by
  rw [messageBody]
  rfl

/-- An import from its path on. -/
def importRest (f : File) : Parser File := do
  let path ← string
  delimiter .semicolon
  return { f with imports := f.imports ++ [path] }

end IdlBridge.Proto.Parser
