import IdlBridge.Decimal.Reading
import IdlBridge.Idl.Token
import IdlBridge.Text.Quoted

/-! # Parsers over tokens

    A parser reads tokens from the front of a stream and either gives a result or stops at a token
    with a complaint. The stream is never empty: behind its last token stands the token for the end
    of the source, which is shown again and again and never consumed.

    Every loop carries a bound on its rounds. Each round of a loop of this library consumes a
    token, so the number of tokens ahead is bound enough; a parser that runs into its bound stops
    with the complaint `unfinished`.

    How deeply a source nests is not limited. The calls of a parser go as deep as the source does;
    that a stack may be too small for them is left out.
-/

namespace IdlBridge.Idl

/-- The tokens that are still to be read, the token for the end of the source, and the token that
    was consumed last. -/
structure Stream (κ : Type) where
  ahead : List (Token κ)
  eof : Token κ
  last : Token κ

namespace Stream

variable {κ : Type}

/-- The stream of a list of tokens, the last of which stands for the end of the source. -/
def ofTokens (ts : List (Token κ)) : Stream κ :=
  let eof := ts.getLastD { kind := .eof, value := [], pos := .start }
  ⟨ts.dropLast, eof, eof⟩

/-- The next token. -/
def next (s : Stream κ) : Token κ :=
  s.ahead.headD s.eof

/-- The stream behind its next token. -/
def advance (s : Stream κ) : Stream κ :=
  match s.ahead with
  | t :: rest => ⟨rest, s.eof, t⟩
  | [] => s

end Stream

/-- What a parser wanted in the place of a token. -/
inductive Wanted (κ : Type) where
  | kind (k : Kind κ)
  | name
  | constant
  | constantValue
deriving DecidableEq

/-- A place where a token can be out of place. -/
inductive Scope where
  | topLevel
  | service
  | rpcBody
deriving DecidableEq

/-- Why a parser stops at a token. -/
inductive Complaint (κ : Type) where
  | expected (wanted : Wanted κ)
  | expectedAnnotationValue
  | unexpected (scope : Scope)
  | invalidInteger
  | invalidNumber
  | unfinished
deriving DecidableEq

/-- A token at which a parser stops, and the reason. -/
structure SyntaxError (κ : Type) where
  complaint : Complaint κ
  token : Token κ
deriving DecidableEq

namespace Wanted

variable {κ : Type} [Keyword κ]

/-- How messages name what was wanted. -/
def text : Wanted κ → Text
  | .kind k => k.name
  | .name => "IDENT"
  | .constant => "constant"
  | .constantValue => "constant value"

end Wanted

namespace Scope

/-- How messages name a place. -/
def text : Scope → Text
  | .topLevel => "at top level"
  | .service => "in service"
  | .rpcBody => "in rpc body"

end Scope

namespace SyntaxError

variable {κ : Type} [Keyword κ]

/-- The kind of a token with its text. -/
def shown (t : Token κ) : Text :=
  t.kind.name ++ " (" ++ t.value.quoted ++ ")"

/-- The complaint in words. -/
def reason (e : SyntaxError κ) : Text :=
  match e.complaint with
  | .expected w => "Expected " ++ w.text ++ ", got " ++ shown e.token
  | .expectedAnnotationValue => "Expected annotation value, got " ++ e.token.kind.name
  | .unexpected scope => "Unexpected " ++ shown e.token ++ " " ++ scope.text
  | .invalidInteger => "Invalid integer " ++ e.token.value.quoted
  | .invalidNumber => "Invalid number " ++ e.token.value.quoted
  | .unfinished => "Unfinished at " ++ shown e.token

/-- The message of the error: where, and why. -/
def message (e : SyntaxError κ) : Text :=
  "Line " ++ Text.ofNat e.token.pos.line ++ ":" ++ Text.ofNat e.token.pos.col ++ ": " ++ e.reason

end SyntaxError

/-- A parser over tokens. -/
abbrev Parser (κ : Type) := StateT (Stream κ) (Except (SyntaxError κ))

namespace Parser

variable {κ : Type} [DecidableEq κ]

/-- The next token, which stays in the stream. -/
def peek : Parser κ (Token κ) := do
  return (← get).next

/-- Consumes the next token. -/
def advance : Parser κ (Token κ) := do
  let s ← get
  set s.advance
  return s.next

/-- Stops at a token. -/
def fail {α : Type} (c : Complaint κ) (t : Token κ) : Parser κ α :=
  throw ⟨c, t⟩

/-- The next token is of a kind. -/
def nextIs (k : Kind κ) : Parser κ Bool := do
  return decide ((← peek).kind = k)

/-- The next token is a delimiter. -/
def nextIsDelimiter (d : Delimiter) : Parser κ Bool :=
  nextIs (.delimiter d)

/-- Consumes the next token if it is of a kind. -/
def accept (k : Kind κ) : Parser κ Bool := do
  if ← nextIs k then
    let _ ← advance
    return true
  else return false

/-- Consumes a token of a kind. -/
def expect (k : Kind κ) : Parser κ (Token κ) := do
  let t ← peek
  if t.kind = k then advance else fail (.expected (.kind k)) t

/-- Consumes a delimiter. -/
def delimiter (d : Delimiter) : Parser κ Unit := do
  let _ ← expect (.delimiter d)

/-- Consumes a keyword. -/
def keyword (k : κ) : Parser κ (Token κ) :=
  expect (.keyword k)

/-- Consumes a name; keywords are names too. -/
def nameToken : Parser κ (Token κ) := do
  let t ← peek
  if t.kind.isName then advance else fail (.expected .name) t

/-- Consumes a name and gives its text. -/
def name : Parser κ Text := do
  return (← nameToken).value

/-- Consumes a string literal and gives its value. -/
def string : Parser κ Text := do
  return (← expect .string).value

/-- The source is used up. -/
def atEnd : Parser κ Bool :=
  nextIs .eof

/-- The loop ends here: at a delimiter, or at the end of the source. -/
def isAt (d : Delimiter) : Parser κ Bool := do
  if ← atEnd then return true else nextIsDelimiter d

/-- At most `bound` rounds of `body`, until `done`. -/
def rounds {σ : Type} (done : Parser κ Bool) (body : σ → Parser κ σ) :
    (bound : Nat) → σ → Parser κ σ
  | 0, _ => do fail .unfinished (← peek)
  | bound + 1, s => do
    if ← done then return s
    else rounds done body bound (← body s)

/-- Repeats `body` until `done`. -/
def repeatUntil {σ : Type} (done : Parser κ Bool) (init : σ) (body : σ → Parser κ σ) :
    Parser κ σ := do
  rounds done body ((← get).ahead.length + 1) init

/-- The value of an integer literal that has been read. -/
def intOf (t : Token κ) : Parser κ Int :=
  match Numeral.intLiteral? t.value with
  | some i => return i
  | none => fail .invalidInteger t

/-- Drops the tokens up to the brace that closes `depth` open ones. -/
def dropBraces : (depth : Nat) → List (Token κ) → List (Token κ)
  | 0, ts => ts
  | _ + 1, [] => []
  | depth + 1, t :: rest =>
    if t.kind = .delimiter .leftBrace then dropBraces (depth + 2) rest
    else if t.kind = .delimiter .rightBrace then dropBraces depth rest
    else dropBraces (depth + 1) rest

/-- Skips a keyword, everything up to the next opening brace, and the block that it opens. -/
def skipBlock : Parser κ Unit :=
  modify fun s =>
    let behind := (s.ahead.drop 1).dropWhile fun t => t.kind != .delimiter .leftBrace
    { s with ahead := dropBraces 1 (behind.drop 1) }

/-- Runs a parser on a list of tokens that ends with the token for the end of the source. -/
def parse {α : Type} (p : Parser κ α) (ts : List (Token κ)) : Except (SyntaxError κ) α :=
  (p (.ofTokens ts)).map (·.1)

end Parser

end IdlBridge.Idl
