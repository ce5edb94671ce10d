import IdlBridge.Thrift.Parser

/-! # Stages of the parsers

    A parser that has read an optional part, or found none, goes on in the same way.  What it goes
    on with is a parser of its own here, with what has been read so far as its arguments, so that a
    fact about it is proved once and used on both sides of the choice.
-/

namespace IdlBridge.Thrift.Parser

open Idl Idl.Parser

/-- An annotation, added to the ones before it. -/
def annotationRound (pairs : Annotations) : Parser Annotations := do
  let key ← name
  let value ← annotationValue
  let _ ← separator
  return pairs ++ [(key, value)]

/-- A type from behind its element types on. -/
def typeRefRest (typeName : Text) (args : List TypeRef) : Parser TypeRef := do
  let t ← peek
  if t.kind = .ident ∧ t.value = "cpp_type" then
    let _ ← advance
    let _ ← string
  return ⟨typeName, args, ← annotations⟩

/-- A field from behind its number on. -/
def fieldRest (first : Token) (id : Option Int) : Parser Field := do
  let requiredness ← mark
  let type ← typeRef (← bound)
  let fieldName ← name
  skipDefault
  let notes ← annotations
  let last := (← get).last
  let last := (← separator).getD last
  return {
    name := fieldName, type, id, requiredness, annotations := notes,
    comment := if first.comment.isEmpty then last.trailing else first.comment }

theorem field_eq : field = (do
    let first ← peek
    if first.kind = .number then
      let i ← intOf (← advance)
      delimiter .colon
      fieldRest first (some i)
    else fieldRest first none) := rfl

/-- A value of an enumeration from behind its number on. -/
def enumValueRest (values : List EnumValue) (valueName : Text) (number : Int) :
    Parser (List EnumValue × Int) := do
  let _ ← annotations
  let _ ← separator
  return (values ++ [⟨valueName, number⟩], number + 1)

/-- A value of an enumeration, added to the ones before it; `next` is its number if it has none of
    its own. -/
def enumValueRound (values : List EnumValue) (next : Int) : Parser (List EnumValue × Int) := do
  let valueName ← name
  if ← accept (.delimiter .equals) then
    let number ← intOf (← expect .number)
    enumValueRest values valueName number
  else enumValueRest values valueName next

theorem enumeration_eq : enumeration = (do
    let start ← keyword .enum
    let enumName ← name
    delimiter .leftBrace
    let (values, _) ← repeatUntil (isAt .rightBrace) ([], 0) fun (values, next) =>
      enumValueRound values next
    delimiter .rightBrace
    return ⟨enumName, values, ← annotations, start.comment⟩) := rfl

/-- A struct from its opening brace on. -/
def structRest (kind : StructKind) (start : Token) (structName : Text) : Parser Struct := do
  delimiter .leftBrace
  let fields ← fieldsUntil .rightBrace
  return ⟨structName, kind, fields, ← annotations, start.comment⟩

theorem struct_eq (kind : StructKind) : struct kind = (do
    let start ← advance
    let structName ← name
    let t ← peek
    if t.kind = .ident ∧ t.value = "xsd_all" then
      let _ ← advance
    structRest kind start structName) := rfl

/-- A function from behind its exceptions on. -/
def functionEnd (first : Token) (oneway : Bool) (result : Option TypeRef) (functionName : Text)
    (arguments throws : List Field) : Parser Function := do
  let notes ← annotations
  let last ← separator
  let comment :=
    match last with
    | some t => if first.comment.isEmpty then t.trailing else first.comment
    | none => first.comment
  return { name := functionName, result, arguments, throws, oneway, annotations := notes, comment }

/-- A function from its name on. -/
def functionRest (first : Token) (oneway : Bool) (result : Option TypeRef) : Parser Function := do
  let functionName ← name
  let arguments ← fieldList
  if ← accept (.keyword .throws) then
    functionEnd first oneway result functionName arguments (← fieldList)
  else functionEnd first oneway result functionName arguments []

/-- A function from its result on. -/
def functionResult (first : Token) (oneway : Bool) : Parser Function := do
  if ← accept (.keyword .void) then functionRest first oneway none
  else functionRest first oneway (some (← typeRef (← bound)))

theorem function_eq : function = (do
    let first ← peek
    functionResult first (← accept (.keyword .oneway))) := rfl

/-- A service from its opening brace on. -/
def serviceRest (start : Token) (serviceName : Text) (parent : Option Text) : Parser Service := do
  delimiter .leftBrace
  let functions ← repeatUntil (isAt .rightBrace) ([] : List Function) fun functions => do
    return functions ++ [← function]
  delimiter .rightBrace
  return ⟨serviceName, parent, functions, ← annotations, start.comment⟩

theorem service_eq : service = (do
    let start ← keyword .service
    let serviceName ← name
    if ← accept (.keyword .extendsWord) then serviceRest start serviceName (some (← name))
    else serviceRest start serviceName none) := rfl

/-- A namespace from behind its target on. -/
def namespaceRest (d : Document) (scope target : Text) : Parser Document := do
  let _ ← annotations
  return { d with namespaces := d.namespaces.insert scope target }

end IdlBridge.Thrift.Parser
