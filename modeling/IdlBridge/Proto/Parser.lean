import IdlBridge.Idl.Parser
import IdlBridge.Proto.Source
import IdlBridge.Proto.Token

/-! # Reading Protocol Buffers sources

    A parser for each declaration, on top of the parsers over tokens. `extend` blocks, `reserved`
    and `extensions` statements are skipped; the fields of a `oneof` are fields of the message
    that holds it and remember its name.

    Messages and constants nest. Their parsers are bounded by the number of tokens of the source,
    which no nesting exceeds. There is no other limit to nesting, as that of a stack would be.
-/

namespace IdlBridge.Proto

open Idl Idl.Parser

/-- Why a source cannot be read. -/
abbrev SyntaxError := Idl.SyntaxError Word

/-- A parser of this language. -/
abbrev Parser := Idl.Parser Word

namespace Parser

/-! ## Constants -/

/-- A number: an integer where its literal is one, else a floating-point number. -/
def numberOf (t : Token) : Parser Value :=
  match Numeral.intLiteral? t.value with
  | some i => return .int i
  | none =>
    match Numeral.float? t.value with
    | some x => return .float x
    | none => fail .invalidNumber t

/-- The constant that a name stands for. -/
def constantOfName (name : Text) : Value :=
  if name = "true" then .bool true
  else if name = "false" then .bool false
  else .text name

/-- The values that a value adds to a collection: its items if it is a list. -/
def itemsOf : Value → List Value
  | .list xs => xs
  | v => [v]

/-- Adds an entry to an aggregate. The values of a key that is given again are collected. -/
def collect (es : Value.Entries) (key : Text) (v : Value) : Value.Entries :=
  match es.get? (.text key) with
  | none => es ++ [(.text key, v)]
  | some old => es.insert (.text key) (.list (itemsOf old ++ itemsOf v))

/-- Adjacent string literals make up one string. -/
def strings : Parser Text := do
  let s ← get
  let parts := s.ahead.takeWhile fun t => t.kind = .string
  set { s with
    ahead := s.ahead.drop parts.length
    last := parts.getLastD s.last }
  return (parts.map (·.value)).flatten

/-- The entries of a message literal between braces. -/
def aggregate (constant : Parser Value) : Parser Value := do
  delimiter .leftBrace
  let es ← repeatUntil (isAt .rightBrace) ([] : Value.Entries) fun es => do
    let key ← name
    let _ ← accept (.delimiter .colon)
    let v ← constant
    if !(← accept (.delimiter .comma)) then
      let _ ← accept (.delimiter .semicolon)
    return collect es key v
  delimiter .rightBrace
  return .map es

/-- The constants of a list between brackets. -/
def constants (constant : Parser Value) : Parser Value := do
  delimiter .leftBracket
  let xs ← repeatUntil (isAt .rightBracket) ([] : List Value) fun xs => do
    let v ← constant
    let _ ← accept (.delimiter .comma)
    return xs ++ [v]
  delimiter .rightBracket
  return .list xs

/-- A constant: a literal, a name, an aggregate or a list. -/
def constant : (bound : Nat) → Parser Value
  | 0 => do fail .unfinished (← peek)
  | bound + 1 => do
    let t ← peek
    match t.kind with
    | .string => return .text (← strings)
    | .number =>
      let _ ← advance
      numberOf t
    | .delimiter .leftBrace => aggregate (constant bound)
    | .delimiter .leftBracket => constants (constant bound)
    | .ident | .keyword _ =>
      let _ ← advance
      return constantOfName t.value
    | _ => fail (.expected .constant) t

/-! ## Options -/

/-- The bound that the tokens ahead give. -/
def bound : Parser Nat := do
  return (← get).ahead.length + 1

/-- The name of an option: parentheses and the points in front of the name are dropped, and a
    name that starts with a point continues it. -/
def optionName : Parser Text := do
  if ← accept (.delimiter .leftParen) then
    let inner ← name
    let inner := Text.dropLeading '.' inner
    delimiter .rightParen
    let t ← peek
    if t.kind = .ident ∧ t.value.head? = some ('.' : CodePoint) then
      let _ ← advance
      return inner ++ t.value
    else return inner
  else name

/-- A name and a constant with `=` between them. -/
def setting : Parser Setting := do
  let n ← optionName
  delimiter .equals
  return ⟨n, ← constant (← bound)⟩

/-- An option statement. -/
def optionStatement : Parser Setting := do
  let _ ← keyword .option
  let s ← setting
  delimiter .semicolon
  return s

/-- At most `bound` further options of a field, each behind a comma. -/
def moreOptions : (bound : Nat) → List Setting → Parser (List Setting)
  | 0, _ => do fail .unfinished (← peek)
  | bound + 1, done => do
    let s ← setting
    if ← accept (.delimiter .comma) then moreOptions bound (done ++ [s])
    else return done ++ [s]

/-- The options of a field between brackets, if there are any. -/
def fieldOptions : Parser (List Setting) := do
  if ← accept (.delimiter .leftBracket) then
    let options ← moreOptions (← bound) []
    delimiter .rightBracket
    return options
  else return []

/-! ## Declarations -/

/-- The comment of a declaration that ends with a semicolon: the one above it, or else the one
    behind its end. -/
def commentAround (first last : Token) : Text :=
  if first.comment.isEmpty then last.trailing else first.comment

/-- A field with an optional label. -/
def field (oneof : Option Text) : Parser Field := do
  let first ← peek
  let labelled := first.kind = .keyword .repeated ∨ first.kind = .keyword .optional ∨
    first.kind = .keyword .required
  if labelled then
    let _ ← advance
  let typeName ← name
  let fieldName ← name
  delimiter .equals
  let number ← expect .number
  let options ← fieldOptions
  let last ← expect (.delimiter .semicolon)
  return {
    typeName, name := fieldName, number := ← intOf number,
    repeated := first.kind = .keyword .repeated, mapKey := none, oneof, options,
    comment := commentAround first last }

/-- A map field. -/
def mapField : Parser Field := do
  let first ← keyword .map
  delimiter .leftAngle
  let key ← name
  delimiter .comma
  let typeName ← name
  delimiter .rightAngle
  let fieldName ← name
  delimiter .equals
  let number ← expect .number
  let options ← fieldOptions
  let last ← expect (.delimiter .semicolon)
  return {
    typeName, name := fieldName, number := ← intOf number, repeated := false, mapKey := some key,
    oneof := none, options, comment := commentAround first last }

/-- Skips everything up to and including the next semicolon. -/
def skipStatement : Parser Unit :=
  modify fun s =>
    { s with ahead := (s.ahead.dropWhile fun t => t.kind != .delimiter .semicolon).drop 1 }

/-- The declaration of an enumeration. -/
def enumeration : Parser Enum := do
  let start ← keyword .enum
  let enumName ← name
  delimiter .leftBrace
  let init : Enum := ⟨enumName, [], [], start.comment⟩
  let e ← repeatUntil (isAt .rightBrace) init fun e => do
    match (← peek).kind with
    | .keyword .option => return { e with options := e.options ++ [← optionStatement] }
    | .keyword .reserved =>
      skipStatement
      return e
    | .delimiter .semicolon =>
      let _ ← advance
      return e
    | _ =>
      let valueName ← name
      delimiter .equals
      let number ← intOf (← expect .number)
      let options ← fieldOptions
      delimiter .semicolon
      return { e with values := e.values ++ [⟨valueName, number, options⟩] }
  delimiter .rightBrace
  return e

mutual

/-- The declaration of a message. -/
def message : (bound : Nat) → Parser Message
  | 0 => do fail .unfinished (← peek)
  | bound + 1 => do
    let start ← keyword .message
    let messageName ← name
    delimiter .leftBrace
    let m ← messageBody bound none ⟨messageName, [], [], [], [], start.comment⟩
    delimiter .rightBrace
    return m

/-- The declarations between the braces of a message, or of a group of alternatives. -/
def messageBody : (bound : Nat) → (oneof : Option Text) → Message → Parser Message
  | 0, _, _ => do fail .unfinished (← peek)
  | bound + 1, oneof, init =>
    repeatUntil (isAt .rightBrace) init fun m => do
      match (← peek).kind with
      | .keyword .message => return { m with messages := m.messages ++ [← message bound] }
      | .keyword .enum => return { m with enums := m.enums ++ [← enumeration] }
      | .keyword .option => return { m with options := m.options ++ [← optionStatement] }
      | .keyword .oneof =>
        let _ ← advance
        let group ← name
        delimiter .leftBrace
        -- The fields of a group of alternatives are fields of the message.
        let m ← messageBody bound (some group) m
        delimiter .rightBrace
        return m
      | .keyword .map => return { m with fields := m.fields ++ [← mapField] }
      | .keyword .reserved | .keyword .extensions =>
        skipStatement
        return m
      | .keyword .extend =>
        skipBlock
        return m
      | .delimiter .semicolon =>
        let _ ← advance
        return m
      -- Whatever else comes has to be a field.
      | _ => return { m with fields := m.fields ++ [← field oneof] }

end

/-- The type of a remote procedure's input or output, and whether it is a stream. -/
def rpcType : Parser (Bool × Text) := do
  delimiter .leftParen
  let streaming ← accept (.keyword .stream)
  let typeName ← name
  delimiter .rightParen
  return (streaming, typeName)

/-- The options of a remote procedure. -/
def rpcOptions : Parser (List Setting) := do
  if ← accept (.delimiter .leftBrace) then
    let options ← repeatUntil (isAt .rightBrace) ([] : List Setting) fun options => do
      let t ← peek
      match t.kind with
      | .keyword .option => return options ++ [← optionStatement]
      | .delimiter .semicolon =>
        let _ ← advance
        return options
      | _ => fail (.unexpected .rpcBody) t
    delimiter .rightBrace
    return options
  else
    delimiter .semicolon
    return []

/-- The declaration of a remote procedure. -/
def rpc : Parser Rpc := do
  let start ← keyword .rpc
  let rpcName ← name
  let (clientStreaming, input) ← rpcType
  let _ ← keyword .returns
  let (serverStreaming, output) ← rpcType
  let options ← rpcOptions
  return { name := rpcName, input, output, clientStreaming, serverStreaming, options,
           comment := start.remark }

/-- The declaration of a service. -/
def service : Parser Service := do
  let start ← keyword .service
  let serviceName ← name
  delimiter .leftBrace
  let init : Service := ⟨serviceName, [], [], start.comment⟩
  let s ← repeatUntil (isAt .rightBrace) init fun s => do
    let t ← peek
    match t.kind with
    | .keyword .option => return { s with options := s.options ++ [← optionStatement] }
    | .keyword .rpc => return { s with rpcs := s.rpcs ++ [← rpc] }
    | .delimiter .semicolon =>
      let _ ← advance
      return s
    | _ => fail (.unexpected .service) t
  delimiter .rightBrace
  return s

/-- A declaration of a file, added to the ones before it. -/
def declaration (f : File) : Parser File := do
  let t ← peek
  match t.kind with
  | .keyword .syntaxWord =>
    let _ ← advance
    delimiter .equals
    let syntaxName ← string
    delimiter .semicolon
    return { f with syntaxName }
  | .keyword .package =>
    let _ ← advance
    let package ← name
    delimiter .semicolon
    return { f with package }
  | .keyword .importWord =>
    let _ ← advance
    let t ← peek
    -- These two words are no keywords, and nothing depends on them.
    if t.kind = .ident ∧ (t.value = "public" ∨ t.value = "weak") then
      let _ ← advance
    let path ← string
    delimiter .semicolon
    return { f with imports := f.imports ++ [path] }
  | .keyword .option => return { f with options := f.options ++ [← optionStatement] }
  | .keyword .message => return { f with messages := f.messages ++ [← message (← bound)] }
  | .keyword .enum => return { f with enums := f.enums ++ [← enumeration] }
  | .keyword .service => return { f with services := f.services ++ [← service] }
  | .keyword .extend =>
    skipBlock
    return f
  | .delimiter .semicolon =>
    let _ ← advance
    return f
  | _ => fail (.unexpected .topLevel) t

/-- All declarations of a file. -/
def file : Parser File :=
  repeatUntil atEnd File.empty declaration

end Parser

/-- The declarations of a list of tokens that ends with the token for the end of the source. -/
def File.ofTokens? (ts : List Token) : Except SyntaxError File :=
  Idl.Parser.parse Parser.file ts

/-- The declarations of a source. -/
def File.ofText? (source : Text) : Except SyntaxError File :=
  File.ofTokens? (tokens source)

end IdlBridge.Proto
