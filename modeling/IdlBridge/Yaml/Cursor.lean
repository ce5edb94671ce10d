import IdlBridge.Text.Alphabet

/-! # Places in a document

    A cursor is what is left of a document with the place where it starts. Line ends are the line
    feed, the carriage return (alone or before a line feed), the next-line control and the two
    Unicode separators. Behind the last character of a document a cursor shows the null
    character, which no document holds.
-/

namespace IdlBridge.Yaml

/-- The null character, which a cursor shows behind the last character. -/
def nul : CodePoint := CodePoint.ofNat 0

/-- The byte order mark, which takes no column. -/
def byteOrderMark : CodePoint := CodePoint.ofNat 0xFEFF

/-- A line end: line feed, carriage return, next line, line separator, paragraph separator. -/
def isBreak (c : CodePoint) : Bool :=
  c.toNat = 0x0A || c.toNat = 0x0D || c.toNat = 0x85 || c.toNat = 0x2028 || c.toNat = 0x2029

/-- A line end, or the end of the document. -/
def isBreakOrEnd (c : CodePoint) : Bool :=
  isBreak c || c.toNat = 0

/-- A space, a line end, or the end of the document. -/
def isSpaceOrEnd (c : CodePoint) : Bool :=
  c.toNat = 0x20 || isBreakOrEnd c

/-- A space, a tab, a line end, or the end of the document. -/
def isBlankOrEnd (c : CodePoint) : Bool :=
  c.toNat = 0x09 || isSpaceOrEnd c

/-- A space or a tab. -/
def isBlank (c : CodePoint) : Bool :=
  c.toNat = 0x20 || c.toNat = 0x09

/-- The code point is one of the characters of a text. -/
def isOneOf (t : Text) (c : CodePoint) : Bool :=
  t.contains c

/-- A character of an anchor, a directive name or a tag handle. -/
def isIdentifierPart (c : CodePoint) : Bool :=
  c.isAsciiAlnum || c = '-' || c = '_'

/-- A rest of a document and its place; columns count from zero. -/
structure Cursor where
  rest : Text
  index : Nat
  line : Nat
  column : Nat

namespace Cursor

/-- The start of a document. -/
def start (t : Text) : Cursor := ⟨t, 0, 0, 0⟩

/-- The character `n` places ahead. -/
def peekAt (c : Cursor) (n : Nat) : CodePoint :=
  c.rest.getD n nul

/-- The next character. -/
def peek (c : Cursor) : CodePoint :=
  c.rest.headD nul

/-- The cursor behind the next character. -/
def next (c : Cursor) : Cursor :=
  match c.rest with
  | [] => c
  | x :: rest =>
    if x.toNat = 0x0D then
      if rest.head? = some ('\n' : CodePoint) then ⟨rest, c.index + 1, c.line, c.column + 1⟩
      else ⟨rest, c.index + 1, c.line + 1, 0⟩
    else if isBreak x then ⟨rest, c.index + 1, c.line + 1, 0⟩
    else if x = byteOrderMark then ⟨rest, c.index + 1, c.line, c.column⟩
    else ⟨rest, c.index + 1, c.line, c.column + 1⟩

/-- The cursor behind the next `n` characters. -/
def forward (c : Cursor) : (n : Nat) → Cursor
  | 0 => c
  | n + 1 => c.next.forward n

/-- The longest run of characters of a class. -/
def run (c : Cursor) (p : CodePoint → Bool) : Text :=
  c.rest.takeWhile p

/-- The cursor behind the longest run of characters of a class. -/
def skip (c : Cursor) (p : CodePoint → Bool) : Cursor :=
  c.forward (c.run p).length

/-- The cursor behind the spaces ahead. -/
def skipSpaces (c : Cursor) : Cursor :=
  c.skip fun x => x.toNat = 0x20

/-- The cursor behind a comment, if one is ahead. -/
def skipComment (c : Cursor) : Cursor :=
  if c.peek = '#' then c.skip fun x => !isBreak x else c

/-- A line end as it counts in a scalar, and the cursor behind it; nothing where no line ends. The
    Unicode separators are kept, the others become line feeds. -/
def lineBreak (c : Cursor) : Text × Cursor :=
  let x := c.peek
  if x.toNat = 0x2028 ∨ x.toNat = 0x2029 then ([x], c.next)
  else if x.toNat = 0x0D ∧ c.peekAt 1 = '\n' then ("\n", c.forward 2)
  else if isBreak x then ("\n", c.next)
  else ([], c)

/-- A document mark, `---` or `...`, is ahead, with a blank behind it. -/
def atDocumentMark (c : Cursor) : Bool :=
  let mark := c.rest.take 3
  (mark = "---" || mark = "...") && isBlankOrEnd (c.peekAt 3)

end Cursor

end IdlBridge.Yaml
