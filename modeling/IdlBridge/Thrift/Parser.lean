import IdlBridge.Idl.Parser
import IdlBridge.Text.Table
import IdlBridge.Thrift.Source
import IdlBridge.Thrift.Token

/-! # Reading Thrift sources

    A parser for each declaration, on top of the parsers over tokens. Constants and default
    values are read and dropped, and so are `senum` blocks; a comma or a semicolon may stand
    behind every declaration.

    Types and constant values nest. Their parsers are bounded by the number of tokens of the
    source, which no nesting exceeds. There is no other limit to nesting, as that of a stack
    would be.
-/

namespace IdlBridge.Thrift

open Idl Idl.Parser

/-- Why a source cannot be read. -/
abbrev SyntaxError := Idl.SyntaxError Word

/-- A parser of this language. -/
abbrev Parser := Idl.Parser Word

namespace Parser

/-- The bound that the tokens ahead give. -/
def bound : Parser Nat := do
  return (← get).ahead.length + 1

/-- Consumes a comma or a semicolon, if there is one. -/
def separator : Parser (Option Token) := do
  let t ← peek
  if t.kind = .delimiter .comma ∨ t.kind = .delimiter .semicolon then return some (← advance)
  else return none

/-! ## Constant values -/

/-- Skips the items of a list up to its closing bracket. -/
def skipItems (skipValue : Parser Unit) : Parser Unit := do
  repeatUntil (isAt .rightBracket) () fun _ => do
    skipValue
    let _ ← separator
  delimiter .rightBracket

/-- Skips the entries of a map up to its closing brace. -/
def skipEntries (skipValue : Parser Unit) : Parser Unit := do
  repeatUntil (isAt .rightBrace) () fun _ => do
    skipValue
    delimiter .colon
    skipValue
    let _ ← separator
  delimiter .rightBrace

/-- Skips a constant value. -/
def skipConstant : (bound : Nat) → Parser Unit
  | 0 => do fail .unfinished (← peek)
  | bound + 1 => do
    let t ← advance
    match t.kind with
    | .delimiter .leftBracket => skipItems (skipConstant bound)
    | .delimiter .leftBrace => skipEntries (skipConstant bound)
    | .string | .number | .ident => return ()
    | _ => fail (.expected .constantValue) t

/-- Skips a constant value behind an equals sign, if there is one. -/
def skipDefault : Parser Unit := do
  if ← accept (.delimiter .equals) then skipConstant (← bound)

/-! ## Annotations and types -/

/-- The value of an annotation: `1` where none is given. -/
def annotationValue : Parser Text := do
  if ← accept (.delimiter .equals) then
    let t ← peek
    match t.kind with
    | .string | .number | .ident => return (← advance).value
    | _ => fail .expectedAnnotationValue t
  else return "1"

/-- The annotations between parentheses, if there are any. -/
def annotations : Parser Annotations := do
  if ← accept (.delimiter .leftParen) then
    let pairs ← repeatUntil (isAt .rightParen) ([] : Annotations) fun pairs => do
      let key ← name
      let value ← annotationValue
      let _ ← separator
      return pairs ++ [(key, value)]
    delimiter .rightParen
    return pairs
  else return []

/-- A name that takes element types. -/
def isContainer (n : Text) : Bool :=
  n = "list" || n = "set" || n = "map"

/-- The element types of a container between angle brackets. -/
def elementTypes (container : Text) (typeRef : Parser TypeRef) : Parser (List TypeRef) := do
  delimiter .leftAngle
  let first ← typeRef
  if container = "map" then
    delimiter .comma
    let second ← typeRef
    delimiter .rightAngle
    return [first, second]
  else
    delimiter .rightAngle
    return [first]

/-- A type. -/
def typeRef : (bound : Nat) → Parser TypeRef
  | 0 => do fail .unfinished (← peek)
  | bound + 1 => do
    let typeName ← name
    let args ←
      if isContainer typeName ∧ (← nextIsDelimiter .leftAngle) then
        elementTypes typeName (typeRef bound)
      else pure []
    let t ← peek
    -- The mark and its text say nothing about the type.
    if t.kind = .ident ∧ t.value = "cpp_type" then
      let _ ← advance
      let _ ← string
    return ⟨typeName, args, ← annotations⟩

/-! ## Declarations -/

/-- The mark that says whether a field must be given. -/
def mark : Parser Requiredness := do
  match (← peek).kind with
  | .keyword .required =>
    let _ ← advance
    return .required
  | .keyword .optional =>
    let _ ← advance
    return .optional
  | _ => return .unmarked

/-- A field, with its number and its mark before it. -/
def field : Parser Field := do
  let first ← peek
  let id ←
    if first.kind = .number then
      let i ← intOf (← advance)
      delimiter .colon
      pure (some i)
    else pure none
  let requiredness ← mark
  let type ← typeRef (← bound)
  let fieldName ← name
  skipDefault
  let notes ← annotations
  let last := (← get).last
  let last := (← separator).getD last
  return {
    name := fieldName, type, id, requiredness, annotations := notes,
    comment := if first.comment.isEmpty then last.trailing else first.comment }

/-- The fields up to a closing delimiter. -/
def fieldsUntil (d : Delimiter) : Parser (List Field) := do
  let fields ← repeatUntil (isAt d) ([] : List Field) fun fields => do
    return fields ++ [← field]
  delimiter d
  return fields

/-- The fields between parentheses. -/
def fieldList : Parser (List Field) := do
  delimiter .leftParen
  fieldsUntil .rightParen

/-- The declaration of another name for a type. -/
def typedef : Parser Typedef := do
  let _ ← keyword .typedef
  let type ← typeRef (← bound)
  let name ← name
  let notes ← annotations
  let _ ← separator
  return ⟨name, type, notes⟩

/-- The declaration of a constant, of which only the name is kept. -/
def constant : Parser Text := do
  let _ ← keyword .const
  let _ ← typeRef (← bound)
  let constantName ← name
  delimiter .equals
  skipConstant (← bound)
  let _ ← separator
  return constantName

/-- The declaration of an enumeration. A value without a number follows the one before it. -/
def enumeration : Parser Enum := do
  let start ← keyword .enum
  let enumName ← name
  delimiter .leftBrace
  let (values, _) ← repeatUntil (isAt .rightBrace) (([] : List EnumValue), (0 : Int))
    fun (values, next) => do
      let valueName ← name
      let number ←
        if ← accept (.delimiter .equals) then intOf (← expect .number) else pure next
      let _ ← annotations
      let _ ← separator
      return (values ++ [⟨valueName, number⟩], number + 1)
  delimiter .rightBrace
  return ⟨enumName, values, ← annotations, start.comment⟩

/-- The declaration of a struct, a union or an exception; its keyword is the next token. -/
def struct (kind : StructKind) : Parser Struct := do
  let start ← advance
  let structName ← name
  let t ← peek
  if t.kind = .ident ∧ t.value = "xsd_all" then
    let _ ← advance
  delimiter .leftBrace
  let fields ← fieldsUntil .rightBrace
  return ⟨structName, kind, fields, ← annotations, start.comment⟩

/-- The declaration of a function. -/
def function : Parser Function := do
  let first ← peek
  let oneway ← accept (.keyword .oneway)
  let result ←
    if ← accept (.keyword .void) then pure none
    else pure (some (← typeRef (← bound)))
  let functionName ← name
  let arguments ← fieldList
  let throws ← if ← accept (.keyword .throws) then fieldList else pure []
  let notes ← annotations
  let last ← separator
  let comment :=
    -- The comment behind a function is found at its separator, and nowhere else.
    match last with
    | some t => if first.comment.isEmpty then t.trailing else first.comment
    | none => first.comment
  return { name := functionName, result, arguments, throws, oneway, annotations := notes, comment }

/-- The declaration of a service. -/
def service : Parser Service := do
  let start ← keyword .service
  let serviceName ← name
  let parent ← if ← accept (.keyword .extendsWord) then pure (some (← name)) else pure none
  delimiter .leftBrace
  let functions ← repeatUntil (isAt .rightBrace) ([] : List Function) fun functions => do
    return functions ++ [← function]
  delimiter .rightBrace
  return ⟨serviceName, parent, functions, ← annotations, start.comment⟩

/-- A declaration of a document, added to the ones before it. -/
def declaration (d : Document) : Parser Document := do
  let t ← peek
  match t.kind with
  | .keyword .includeWord =>
    let _ ← advance
    return { d with includes := d.includes ++ [← string] }
  | .keyword .cppInclude =>
    let _ ← advance
    let _ ← string
    return d
  | .keyword .namespaceWord =>
    let _ ← advance
    let scope ← name
    let target ← if ← nextIs .string then string else name
    let _ ← annotations
    return { d with namespaces := d.namespaces.insert scope target }
  | .keyword .typedef => return { d with typedefs := d.typedefs ++ [← typedef] }
  | .keyword .const => return { d with constants := d.constants ++ [← constant] }
  | .keyword .enum => return { d with enums := d.enums ++ [← enumeration] }
  | .keyword .senum =>
    skipBlock
    return d
  | .keyword .struct => return { d with structs := d.structs ++ [← struct .struct] }
  | .keyword .union => return { d with structs := d.structs ++ [← struct .union] }
  | .keyword .exception => return { d with structs := d.structs ++ [← struct .exception] }
  | .keyword .service => return { d with services := d.services ++ [← service] }
  | .delimiter .semicolon | .delimiter .comma =>
    let _ ← advance
    return d
  | _ => fail (.unexpected .topLevel) t

/-- All declarations of a document. -/
def document : Parser Document :=
  repeatUntil atEnd Document.empty declaration

end Parser

/-- The declarations of a list of tokens that ends with the token for the end of the source. -/
def Document.ofTokens? (ts : List Token) : Except SyntaxError Document :=
  Idl.Parser.parse Parser.document ts

/-- The declarations of a source. -/
def Document.ofText? (source : Text) : Except SyntaxError Document :=
  Document.ofTokens? (tokens source)

end IdlBridge.Thrift
