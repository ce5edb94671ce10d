import IdlBridge.Yaml.Scalar
import IdlBridge.Yaml.Token

/-! # From text to tokens

    The lexer keeps track of the indentation outside of brackets and of the places where a simple
    key may have started: when a colon follows on the same line, the tokens that mark a key (and,
    where the indentation grows, a mapping) are put in at that place afterwards.

    A fault may lie behind tokens that are already certain. `Lexed` holds those tokens and the
    fault, so that whoever reads the tokens meets the first fault of the document first.
-/

namespace IdlBridge.Yaml

/-- A place where a simple key may have started. -/
structure SimpleKey where
  /-- The number of tokens before the key. -/
  tokensBefore : Nat
  /-- Nothing but a key can start there. -/
  required : Bool
  index : Nat
  line : Nat
  column : Nat

/-- The state of the lexer. Tokens are kept in reverse. -/
structure Lexer where
  cursor : Cursor
  reversed : List Token
  count : Nat
  /-- The number of open brackets. -/
  flowLevel : Nat
  /-- The column of the innermost open block collection; -1 outside of all. -/
  indent : Int
  /-- The columns of the outer ones. -/
  outer : List Int
  /-- A simple key may start here. -/
  keyAllowed : Bool
  /-- The possible simple keys by the number of brackets around them. -/
  keys : List (Nat × SimpleKey)

/-- Tokens that are certain, and the fault behind them, if there is one. -/
structure Lexed where
  tokens : List Token
  fault : Option Fault

namespace Lexer

/-- The lexer at the start of a document. -/
def start (t : Text) : Lexer :=
  ⟨.start t, [], 0, 0, -1, [], true, []⟩

/-- Adds a token. -/
def push (lx : Lexer) (t : Token) : Lexer :=
  { lx with reversed := t :: lx.reversed, count := lx.count + 1 }

/-- Puts a token behind the first `n` tokens. -/
def insert (lx : Lexer) (n : Nat) (t : Token) : Lexer :=
  let later := lx.count - n
  { lx with
    reversed := lx.reversed.take later ++ t :: lx.reversed.drop later
    count := lx.count + 1 }

/-- Moves the cursor. -/
def moveTo (lx : Lexer) (c : Cursor) : Lexer :=
  { lx with cursor := c }

/-! ## Simple keys and indentation -/

/-- The possible key at the current number of brackets. -/
def key? (lx : Lexer) : Option SimpleKey :=
  (lx.keys.find? (·.1 = lx.flowLevel)).map (·.2)

/-- Forgets the possible key at the current number of brackets. -/
def forgetKey (lx : Lexer) : Lexer :=
  { lx with keys := lx.keys.filter (·.1 ≠ lx.flowLevel) }

/-- A key cannot be simple when its line has ended or it is too long. -/
def isStale (lx : Lexer) (k : SimpleKey) : Bool :=
  k.line ≠ lx.cursor.line || k.index + 1024 < lx.cursor.index

/-- Forgets the keys that cannot be simple any more. -/
def dropStale (lx : Lexer) : Except Fault Lexer :=
  if lx.keys.any fun k => lx.isStale k.2 && k.2.required then .error (.malformed .missingColon)
  else .ok { lx with keys := lx.keys.filter fun k => !lx.isStale k.2 }

/-- Gives up the possible key at the current number of brackets. -/
def removeKey (lx : Lexer) : Except Fault Lexer :=
  match lx.key? with
  | some k => if k.required then .error (.malformed .missingColon) else .ok lx.forgetKey
  | none => .ok lx

/-- Remembers that a simple key may start here. -/
def saveKey (lx : Lexer) : Except Fault Lexer :=
  if lx.keyAllowed then do
    let required := lx.flowLevel = 0 && lx.indent = lx.cursor.column
    let lx ← lx.removeKey
    let k : SimpleKey := ⟨lx.count, required, lx.cursor.index, lx.cursor.line, lx.cursor.column⟩
    return { lx with keys := (lx.flowLevel, k) :: lx.keys }
  else .ok lx

/-- Closes the block collections that are indented more than a column. -/
def unwindTo (column : Int) (lx : Lexer) : Lexer :=
  let closed := (lx.indent :: lx.outer).takeWhile (column < ·)
  let rest := (lx.indent :: lx.outer).drop closed.length
  { lx with
    reversed := closed.map (fun _ => Token.blockEnd) ++ lx.reversed
    count := lx.count + closed.length
    indent := rest.headD (-1)
    outer := rest.drop 1 }

/-- Closes the block collections that are indented more than a column, outside of brackets. -/
def unwind (column : Int) (lx : Lexer) : Lexer :=
  if lx.flowLevel = 0 then lx.unwindTo column else lx

/-- Opens a block collection at a column, if that is more indented. -/
def addIndent (column : Nat) (lx : Lexer) : Option Lexer :=
  if lx.indent < column then
    some { lx with indent := column, outer := lx.indent :: lx.outer }
  else none

/-! ## Blanks between tokens -/

/-- The cursor behind spaces, comments and line ends, and whether a line has ended. -/
def skipBlanks : (bound : Nat) → Cursor → (lineEnded : Bool) → Cursor × Bool
  | 0, c, lineEnded => (c, lineEnded)
  | bound + 1, c, lineEnded =>
    let c := c.skipSpaces.skipComment
    if isBreak c.peek then skipBlanks bound c.lineBreak.2 true else (c, lineEnded)

/-- Goes to the next token. Outside of brackets a key may start on a new line. -/
def toNextToken (lx : Lexer) : Lexer :=
  let c := lx.cursor
  let c := if c.index = 0 ∧ c.peek = byteOrderMark then c.next else c
  let (c, lineEnded) := skipBlanks (c.rest.length + 1) c false
  { lx with
    cursor := c
    keyAllowed := lx.keyAllowed || (lineEnded && lx.flowLevel = 0) }

/-! ## Directives, anchors and tags -/

/-- The rest of a line that holds a comment at most. -/
def lineEnd (why : Malformed) (c : Cursor) : Except Fault Cursor :=
  let c := c.skipSpaces.skipComment
  if isBreakOrEnd c.peek then .ok c.lineBreak.2 else .error (.malformed why)

/-- An identifier, with a character behind it that may stand there. -/
def identifier (why : Malformed) (mayFollow : CodePoint → Bool) (c : Cursor) :
    Except Fault (Text × Cursor) :=
  let name := c.run isIdentifierPart
  let c := c.forward name.length
  if name ≠ [] ∧ mayFollow c.peek then .ok (name, c) else .error (.malformed why)

/-- The number of a version directive. -/
def versionNumber (c : Cursor) : Except Fault (Nat × Cursor) :=
  let ds := c.run CodePoint.isAsciiDigit
  if ds = [] then .error (.malformed .badDirective)
  else .ok (Text.decimalValue ds, c.forward ds.length)

/-- The escapes of a tag that are ahead, as octets. -/
def tagEscapes : (bound : Nat) → Cursor → List Nat → Except Fault (List Nat × Cursor)
  | 0, c, done => .ok (done, c)
  | bound + 1, c, done =>
    if c.peek = '%' then
      let a := c.peekAt 1
      let b := c.peekAt 2
      if a.isHexDigit && b.isHexDigit then
        tagEscapes bound (c.forward 3) (done ++ [a.hexValue * 16 + b.hexValue])
      else .error (.malformed .badTag)
    else .ok (done, c)

/-- A character of a tag. -/
def isTagPart (c : CodePoint) : Bool :=
  c.isAsciiAlnum || isOneOf "-;/?:@&=+$,_.!~*'()[]%" c

/-- The characters of a tag, escapes replaced. -/
def tagParts : (bound : Nat) → Cursor → Text → Except Fault (Text × Cursor)
  | 0, c, done => .ok (done, c)
  | bound + 1, c, done => do
    if c.peek = '%' then
      let (octets, c) ← tagEscapes (c.rest.length + 1) c []
      match Utf8.decode? octets with
      | some t => tagParts bound c (done ++ t)
      | none => throw (.malformed .badTag)
    else
      let r := c.run fun x => isTagPart x && x ≠ '%'
      if r = [] then return (done, c) else tagParts bound (c.forward r.length) (done ++ r)

/-- The text of a tag behind its handle; it is not empty. -/
def tagSuffix (c : Cursor) : Except Fault (Text × Cursor) :=
  let start := c.index
  match tagParts (c.rest.length + 1) c [] with
  | .error e => .error e
  | .ok (t, c) => if c.index = start then .error (.malformed .badTag) else .ok (t, c)

/-- A tag handle: an exclamation mark, or a name between two. -/
def tagHandle (c : Cursor) : Except Fault (Text × Cursor) :=
  if c.peek ≠ '!' then .error (.malformed .badTag)
  else if c.peekAt 1 = ' ' then .ok ("!", c.next)
  else
    let name := c.next.run isIdentifierPart
    if c.peekAt (name.length + 1) = '!' then
      .ok ("!" ++ name ++ "!", c.forward (name.length + 2))
    else .error (.malformed .badTag)

/-- A directive whose percent sign is ahead. -/
def directive (c : Cursor) : Except Fault (Directive × Cursor) := do
  let (name, c) ← identifier .badDirective isSpaceOrEnd c.next
  if name = "YAML" then
    let (major, c) ← versionNumber c.skipSpaces
    if c.peek ≠ '.' then throw (.malformed .badDirective)
    let (_, c) ← versionNumber c.next
    if !isSpaceOrEnd c.peek then throw (.malformed .badDirective)
    return (.version major, ← lineEnd .badDirective c)
  else if name = "TAG" then
    let (handle, c) ← tagHandle c.skipSpaces
    if c.peek ≠ ' ' then throw (.malformed .badDirective)
    let (lead, c) ← tagSuffix c.skipSpaces
    if !isSpaceOrEnd c.peek then throw (.malformed .badDirective)
    return (.tag handle lead, ← lineEnd .badDirective c)
  else
    return (.other, ← lineEnd .badDirective (c.skip fun x => !isBreak x))

/-- The name of an anchor or an alias, whose mark is ahead. -/
def anchorName (c : Cursor) : Except Fault (Text × Cursor) :=
  identifier .badAnchor (fun x => isBlankOrEnd x || isOneOf "?:,]\x7d%@`" x) c.next

/-- The tag holds an exclamation mark behind its first one. -/
def hasHandle (c : Cursor) : Bool :=
  (c.next.run fun x => !isSpaceOrEnd x).contains '!'

/-- A tag whose exclamation mark is ahead. -/
def tag (c : Cursor) : Except Fault (RawTag × Cursor) := do
  let (t, c) ←
    if c.peekAt 1 = '<' then do
      let (suffix, c) ← tagSuffix (c.forward 2)
      if c.peek ≠ '>' then throw (.malformed .badTag)
      pure (RawTag.mk none suffix, c.next)
    else if isBlankOrEnd (c.peekAt 1) then pure (RawTag.mk none "!", c.next)
    else if hasHandle c then do
      let (handle, c) ← tagHandle c
      let (suffix, c) ← tagSuffix c
      pure (RawTag.mk (some handle) suffix, c)
    else do
      let (suffix, c) ← tagSuffix c.next
      pure (RawTag.mk (some "!") suffix, c)
  if isSpaceOrEnd c.peek then return (t, c) else throw (.malformed .badTag)

/-! ## Tokens -/

/-- Adds the token at the end of the document. -/
def fetchEnd (lx : Lexer) : Except Fault Lexer := do
  let lx ← (lx.unwind (-1)).removeKey
  return ({ lx with keyAllowed := false, keys := [] }).push .streamEnd

/-- Reads a directive. -/
def fetchDirective (lx : Lexer) : Except Fault Lexer := do
  let lx ← (lx.unwind (-1)).removeKey
  let (d, c) ← directive lx.cursor
  return (({ lx with keyAllowed := false }).moveTo c).push (.directive d)

/-- Reads a document mark. -/
def fetchMark (t : Token) (lx : Lexer) : Except Fault Lexer := do
  let lx ← (lx.unwind (-1)).removeKey
  return (({ lx with keyAllowed := false }).moveTo (lx.cursor.forward 3)).push t

/-- Reads an opening bracket. -/
def fetchOpening (t : Token) (lx : Lexer) : Except Fault Lexer := do
  let lx ← lx.saveKey
  return (({ lx with flowLevel := lx.flowLevel + 1, keyAllowed := true }).moveTo
    lx.cursor.next).push t

/-- Reads a closing bracket. -/
def fetchClosing (t : Token) (lx : Lexer) : Except Fault Lexer := do
  let lx ← lx.removeKey
  return (({ lx with flowLevel := lx.flowLevel - 1, keyAllowed := false }).moveTo
    lx.cursor.next).push t

/-- Reads a comma between brackets. -/
def fetchFlowEntry (lx : Lexer) : Except Fault Lexer := do
  let lx ← lx.removeKey
  return (({ lx with keyAllowed := true }).moveTo lx.cursor.next).push .flowEntry

/-- Opens a block collection here if the indentation grows. -/
def openBlock (t : Token) (why : Malformed) (lx : Lexer) : Except Fault Lexer :=
  if lx.flowLevel ≠ 0 then .ok lx
  else if !lx.keyAllowed then .error (.malformed why)
  else
    match lx.addIndent lx.cursor.column with
    | some lx => .ok (lx.push t)
    | none => .ok lx

/-- Reads the dash of a sequence entry. -/
def fetchBlockEntry (lx : Lexer) : Except Fault Lexer := do
  let lx ← lx.openBlock .blockSequenceStart .misplacedEntry
  let lx ← lx.removeKey
  return (({ lx with keyAllowed := true }).moveTo lx.cursor.next).push .blockEntry

/-- Reads the question mark of a key. -/
def fetchKey (lx : Lexer) : Except Fault Lexer := do
  let lx ← lx.openBlock .blockMappingStart .misplacedKey
  let lx ← lx.removeKey
  return (({ lx with keyAllowed := lx.flowLevel = 0 }).moveTo lx.cursor.next).push .key

/-- Reads the colon of a value. If a simple key has started, its marks are put in. -/
def fetchValue (lx : Lexer) : Except Fault Lexer := do
  let lx ←
    match lx.key? with
    | some k =>
      -- The marks belong in front of the key, which has been read already.
      let lx := lx.forgetKey.insert k.tokensBefore .key
      let lx :=
        if lx.flowLevel = 0 then
          match lx.addIndent k.column with
          | some lx => lx.insert k.tokensBefore .blockMappingStart
          | none => lx
        else lx
      pure { lx with keyAllowed := false }
    | none => do
      -- Without a simple key the colon belongs to an explicit key, or to an empty one.
      let lx ← lx.openBlock .blockMappingStart .misplacedValue
      let lx ← lx.removeKey
      pure { lx with keyAllowed := lx.flowLevel = 0 }
  return (lx.moveTo lx.cursor.next).push .value

/-- Reads something that may be a simple key. -/
def fetchContent (read : Cursor → Except Fault (Token × Cursor)) (lx : Lexer) :
    Except Fault Lexer := do
  let lx ← lx.saveKey
  let (t, c) ← read lx.cursor
  return (({ lx with keyAllowed := false }).moveTo c).push t

/-- Reads a block scalar. -/
def fetchBlockScalar (fold : Bool) (lx : Lexer) : Except Fault Lexer := do
  let lx ← lx.removeKey
  let (t, c) ← Block.scan fold (lx.indent + 1).toNat lx.cursor
  return (({ lx with keyAllowed := true }).moveTo c).push (.scalar t false)

/-- Reads a plain scalar. A key may follow it on a new line. -/
def fetchPlain (lx : Lexer) : Except Fault Lexer := do
  let lx ← lx.saveKey
  let (t, c, lineEnded) := Plain.scan (lx.flowLevel ≠ 0) (lx.indent + 1).toNat lx.cursor
  return (({ lx with keyAllowed := lineEnded }).moveTo c).push (.scalar t true)

/-- A plain scalar may start here. -/
def startsPlain (flow : Bool) (c : Cursor) : Bool :=
  let x := c.peek
  !(isBlankOrEnd x || isOneOf "-?:,[]\x7b\x7d#&*!|>'\"%@`" x) ||
    (!isBlankOrEnd (c.peekAt 1) && (x = '-' || (!flow && (x = '?' || x = ':'))))

/-- Reads the next token. -/
def fetch (lx : Lexer) : Except Fault Lexer := do
  let lx ← lx.toNextToken.dropStale
  let lx := lx.unwind lx.cursor.column
  let c := lx.cursor
  let x := c.peek
  let flow := lx.flowLevel ≠ 0
  -- `?` and `:` are indicators in front of a blank, and everywhere inside brackets.
  let marked := flow || isBlankOrEnd (c.peekAt 1)
  -- The first match counts, so the marks of documents go before what starts like them.
  if x = nul then lx.fetchEnd
  else if c.column = 0 ∧ x = '%' then lx.fetchDirective
  else if c.column = 0 ∧ x = '-' ∧ c.atDocumentMark then lx.fetchMark .documentStart
  else if c.column = 0 ∧ x = '.' ∧ c.atDocumentMark then lx.fetchMark .documentEnd
  else if x = '[' then lx.fetchOpening .flowSequenceStart
  else if x = '{' then lx.fetchOpening .flowMappingStart
  else if x = ']' then lx.fetchClosing .flowSequenceEnd
  else if x = '}' then lx.fetchClosing .flowMappingEnd
  else if x = ',' then lx.fetchFlowEntry
  else if x = '-' ∧ isBlankOrEnd (c.peekAt 1) then lx.fetchBlockEntry
  else if x = '?' ∧ marked then lx.fetchKey
  else if x = ':' ∧ marked then lx.fetchValue
  else if x = '*' then lx.fetchContent fun c => do
    let (name, c) ← anchorName c
    return (.aliasOf name, c)
  else if x = '&' then lx.fetchContent fun c => do
    let (name, c) ← anchorName c
    return (.anchor name, c)
  else if x = '!' then lx.fetchContent fun c => do
    let (t, c) ← tag c
    return (.tag t, c)
  else if x = '|' ∧ !flow then lx.fetchBlockScalar false
  else if x = '>' ∧ !flow then lx.fetchBlockScalar true
  else if x = '\'' then lx.fetchContent fun c => do
    let (t, c) ← Flow.scan false c
    return (.scalar t false, c)
  else if x = '"' then lx.fetchContent fun c => do
    let (t, c) ← Flow.scan true c
    return (.scalar t false, c)
  else if startsPlain flow c then lx.fetchPlain
  else throw (.malformed .strayCharacter)

/-- The tokens before the first possible simple key: whoever reads tokens cannot have seen more. -/
def certain (lx : Lexer) : List Token :=
  let n := lx.keys.foldl (fun n k => min n k.2.tokensBefore) lx.count
  (lx.reversed.drop (lx.count - n)).reverse

/-- Reads tokens up to the end of the document. -/
def lex : (bound : Nat) → Lexer → Lexed
  | 0, lx => ⟨lx.certain, some (.malformed .strayCharacter)⟩
  | bound + 1, lx =>
    match lx.fetch with
    | .error e => ⟨lx.certain, some e⟩
    | .ok next =>
      if next.reversed.head? = some .streamEnd then ⟨next.reversed.reverse, none⟩
      else lex bound next

end Lexer

/-- A character that a document may hold. -/
def isAllowed (c : CodePoint) : Bool :=
  let n := c.toNat
  n = 0x09 || n = 0x0A || n = 0x0D || (0x20 ≤ n && n ≤ 0x7E) || n = 0x85 ||
    (0xA0 ≤ n && n ≤ 0xD7FF) || (0xE000 ≤ n && n ≤ 0xFFFD) || 0x10000 ≤ n

/-- The tokens of a document. -/
def Lexed.ofText (t : Text) : Lexed :=
  if t.all isAllowed then Lexer.lex (t.length + 2) (.start t)
  else ⟨[], some (.malformed .unprintable)⟩

end IdlBridge.Yaml
