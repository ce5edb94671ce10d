import IdlBridge.Yaml.Cursor
import IdlBridge.Yaml.Fault
import IdlBridge.Text.Utf8

/-! # Reading scalars

    The three ways to write a scalar: plain, between quotes, and as an indented block. Line ends
    inside a plain or quoted scalar are folded: a single one becomes a space, and of several the
    first is dropped. Inside a block they are kept, or folded where the block says so.

    Loops over lines are bounded by the number of characters ahead, each round consuming one.
-/

namespace IdlBridge.Yaml

/-- A line end and the further line ends behind it, as they count in a folded scalar. -/
def folded (first more : Text) : Text :=
  (if first ≠ "\n" then first else if more.isEmpty then " " else "") ++ more

/-! ## Plain scalars -/

namespace Plain

/-- The characters of a plain scalar up to a blank or an indicator. A colon ends it only before a
    blank, or before an indicator in flow context. -/
def run (flow : Bool) : Text → Text
  | [] => []
  | c :: rest =>
    let next := rest.headD nul
    if isBlankOrEnd c || (c = ':' && (isBlankOrEnd next || (flow && isOneOf ",[]\x7b\x7d" next))) ||
        (flow && isOneOf ",?[]\x7b\x7d" c) then []
    else c :: run flow rest

/-- The line ends behind the first one, and the cursor behind them; `none` at a document mark. -/
def breaks : (bound : Nat) → Cursor → Text → Option Text × Cursor
  | 0, c, done => (some done, c)
  | bound + 1, c, done =>
    if c.peek = ' ' then breaks bound c.next done
    else if isBreak c.peek then
      let (b, c) := c.lineBreak
      if c.atDocumentMark then (none, c) else breaks bound c (done ++ b)
    else (some done, c)

/-- What stands between two runs of a plain scalar, the cursor behind it, and whether a line ended.
    Nothing stands there at a document mark. -/
def gap (c : Cursor) : Text × Cursor × Bool :=
  let blanks := c.run fun x => x.toNat = 0x20
  let c := c.skipSpaces
  if isBreak c.peek then
    let (first, c) := c.lineBreak
    if c.atDocumentMark then ([], c, true)
    else
      match breaks c.rest.length c [] with
      | (some more, c) => (folded first more, c, true)
      | (none, c) => ([], c, true)
  else (blanks, c, false)

/-- The runs of a plain scalar, its first run being ahead: the text so far, the gap behind it, and
    whether a line has ended since the last run. -/
def runs (flow : Bool) (indent : Nat) : (bound : Nat) → Cursor → (done between : Text) →
    (lineEnded : Bool) → Text × Cursor × Bool
  | 0, c, done, _, lineEnded => (done, c, lineEnded)
  | bound + 1, c, done, between, lineEnded =>
    let r := run flow c.rest
    if c.peek = '#' ∨ r = [] then (done, c, lineEnded)
    else
      let done := done ++ between ++ r
      let (between, c, lineEnded) := gap (c.forward r.length)
      if between = [] ∨ c.peek = '#' ∨ (!flow ∧ c.column < indent) then (done, c, lineEnded)
      else runs flow indent bound c done between lineEnded

/-- A plain scalar, the cursor behind it, and whether a line has ended behind it. -/
def scan (flow : Bool) (indent : Nat) (c : Cursor) : Text × Cursor × Bool :=
  runs flow indent (c.rest.length + 1) c [] [] false

end Plain

/-! ## Quoted scalars -/

namespace Flow

/-- The characters that a backslash and one letter stand for. -/
def escapes : List (CodePoint × Nat) :=
  [('0', 0x00), ('a', 0x07), ('b', 0x08), ('t', 0x09), ('\t', 0x09), ('n', 0x0A), ('v', 0x0B),
   ('f', 0x0C), ('r', 0x0D), ('e', 0x1B), (' ', 0x20), ('"', 0x22), ('\\', 0x5C), ('/', 0x2F),
   ('N', 0x85), ('_', 0xA0), ('L', 0x2028), ('P', 0x2029)]

/-- The number of hexadecimal digits behind a letter that announces them. -/
def escapeLength? (c : CodePoint) : Option Nat :=
  if c = 'x' then some 2 else if c = 'u' then some 4 else if c = 'U' then some 8 else none

/-- The line ends behind the first one; blanks around them are dropped. -/
def breaks (bound : Nat) (c : Cursor) (done : Text) : Except Fault (Text × Cursor) :=
  match bound with
  | 0 => .ok (done, c)
  | bound + 1 =>
    if c.atDocumentMark then .error (.malformed .documentMarkInQuote)
    else
      let c := c.skip isBlank
      if isBreak c.peek then
        let (b, c) := c.lineBreak
        breaks bound c (done ++ b)
      else .ok (done, c)

/-- The line ends ahead. -/
def allBreaks (c : Cursor) : Except Fault (Text × Cursor) :=
  breaks (c.rest.length + 1) c []

/-- A character of a quoted scalar that needs no care. -/
def isOrdinary (c : CodePoint) : Bool :=
  !(isBlankOrEnd c || c = '\'' || c = '"' || c = '\\')

/-- An escape whose backslash has been read. -/
def escape (c : Cursor) : Except Fault (Text × Cursor) :=
  let x := c.peek
  match escapes.find? (·.1 = x) with
  | some (_, n) => .ok ([CodePoint.ofNat n], c.next)
  | none =>
    match escapeLength? x with
    | some n =>
      let ds := c.next.rest.take n
      if ds.length = n ∧ ds.all CodePoint.isHexDigit then
        match CodePoint.ofNat? (Text.valueWith CodePoint.hexValue 16 ds) with
        | some y => .ok ([y], c.next.forward n)
        | none => .error (.impossible .codePoint)
      else .error (.malformed .badEscape)
    | none =>
      -- An escaped line end joins its line to the next one; empty lines between them are kept.
      if isBreak x then allBreaks c.lineBreak.2
      else .error (.malformed .badEscape)

/-- The characters up to a blank, a line end or the closing quote. -/
def word (double : Bool) : (bound : Nat) → Cursor → Text → Except Fault (Text × Cursor)
  | 0, c, done => .ok (done, c)
  | bound + 1, c, done => do
    let r := c.run isOrdinary
    let done := done ++ r
    let c := c.forward r.length
    let x := c.peek
    if !double && x = '\'' && c.peekAt 1 = '\'' then word double bound (c.forward 2) (done ++ [x])
    else if (double && x = '\'') || (!double && (x = '"' || x = '\\')) then
      word double bound c.next (done ++ [x])
    else if double && x = '\\' then
      let (t, c) ← escape c.next
      word double bound c (done ++ t)
    else return (done, c)

/-- The blanks and line ends between two words. -/
def gap (c : Cursor) : Except Fault (Text × Cursor) := do
  let blanks := c.run isBlank
  let c := c.skip isBlank
  if c.peek = nul then throw (.malformed .unclosedQuote)
  else if isBreak c.peek then
    let (first, c) := c.lineBreak
    let (more, c) ← allBreaks c
    return (folded first more, c)
  else return (blanks, c)

/-- The words of a quoted scalar, up to its closing quote. -/
def words (double : Bool) : (bound : Nat) → Cursor → Text → Except Fault (Text × Cursor)
  | 0, _, _ => .error (.malformed .unclosedQuote)
  | bound + 1, c, done =>
    if c.peek = (if double then '"' else '\'' : CodePoint) then .ok (done, c.next)
    else do
      let (blanks, c) ← gap c
      let (t, c) ← word double (c.rest.length + 1) c []
      words double bound c (done ++ blanks ++ t)

/-- A quoted scalar whose opening quote is ahead. -/
def scan (double : Bool) (c : Cursor) : Except Fault (Text × Cursor) := do
  let c := c.next
  let (t, c) ← word double (c.rest.length + 1) c []
  words double (c.rest.length + 1) c t

end Flow

/-! ## Block scalars -/

namespace Block

/-- What becomes of the line ends at the end of a block. -/
inductive Chomping where
  | clip
  | strip
  | keep
deriving DecidableEq

/-- A chomping indicator. -/
def chomping? (c : CodePoint) : Option Chomping :=
  if c = '+' then some .keep else if c = '-' then some .strip else none

/-- An indentation indicator. -/
def increment? (c : Cursor) : Except Fault (Option Nat × Cursor) :=
  if c.peek.isAsciiDigit then
    if c.peek = '0' then .error (.malformed .badBlockHeader)
    else .ok (some (c.peek.toNat - 48), c.next)
  else .ok (none, c)

/-- The indicators of a block, in either order. -/
def indicators (c : Cursor) : Except Fault (Chomping × Option Nat × Cursor) := do
  let (chomp, n, c) ←
    match chomping? c.peek with
    | some chomp => do
      let (n, c) ← increment? c.next
      pure (chomp, n, c)
    | none => do
      let (n, c) ← increment? c
      match n, chomping? c.peek with
      | some _, some chomp => pure (chomp, n, c.next)
      | _, _ => pure (Chomping.clip, n, c)
  if isSpaceOrEnd c.peek then return (chomp, n, c)
  else throw (.malformed .badBlockHeader)

/-- The rest of the line that starts a block: a comment at most. -/
def headerEnd (c : Cursor) : Except Fault Cursor :=
  let c := c.skipSpaces.skipComment
  if isBreakOrEnd c.peek then .ok c.lineBreak.2 else .error (.malformed .badBlockHeader)

/-- The empty lines ahead, and the widest indentation among them and the line behind them. -/
def indentation : (bound : Nat) → Cursor → (done : Text) → (widest : Nat) → Text × Nat × Cursor
  | 0, c, done, widest => (done, widest, c)
  | bound + 1, c, done, widest =>
    if isBreak c.peek then
      let (b, c) := c.lineBreak
      indentation bound c (done ++ b) widest
    else if c.peek = ' ' then
      let c := c.next
      indentation bound c done (max widest c.column)
    else (done, widest, c)

/-- The cursor behind the spaces that belong to the indentation. -/
def indented (indent : Nat) (c : Cursor) : Cursor :=
  c.forward (min (c.run fun x => x.toNat = 0x20).length (indent - c.column))

/-- The line ends ahead, lines that are empty apart from their indentation included. -/
def breaks (indent : Nat) : (bound : Nat) → Cursor → Text → Text × Cursor
  | 0, c, done => (done, c)
  | bound + 1, c, done =>
    if isBreak c.peek then
      let (b, c) := c.lineBreak
      breaks indent bound (indented indent c) (done ++ b)
    else (done, c)

/-- The line ends ahead, the indentation of the first line being ahead too. -/
def allBreaks (indent : Nat) (c : Cursor) : Text × Cursor :=
  breaks indent (c.rest.length + 1) (indented indent c) []

/-- The cursor stands where a line of the block goes on. -/
def goesOn (indent : Nat) (c : Cursor) : Bool :=
  c.column = indent && c.peek ≠ nul

/-- The lines of a block: the text so far, the line end behind it and the empty lines after that,
    as far as they have not been decided yet. -/
def contents (fold : Bool) (indent : Nat) : (bound : Nat) → Cursor → (done last empty : Text) →
    Text × Text × Text × Cursor
  | 0, c, done, last, empty => (done, last, empty, c)
  | bound + 1, c, done, last, empty =>
    if goesOn indent c then
      -- Lines that start with a blank keep their line ends, on both sides.
      let plainStart := !isBlank c.peek
      let line := c.run fun x => !isBreak x
      let done := done ++ empty ++ line
      let (last, c) := (c.forward line.length).lineBreak
      let (empty, c) := allBreaks indent c
      if goesOn indent c then
        let between : Text :=
          if fold && last = "\n" && plainStart && !isBlank c.peek then
            (if empty.isEmpty then " " else "")
          else last
        contents fold indent bound c (done ++ between) last empty
      else (done, last, empty, c)
    else (done, last, empty, c)

/-- A block scalar inside the indentation `parent`, whose indicator is ahead. -/
def scan (fold : Bool) (parent : Nat) (c : Cursor) : Except Fault (Text × Cursor) := do
  let (chomp, increment, c) ← indicators c.next
  let c ← headerEnd c
  let least := max parent 1
  let (indent, empty, c) :=
    match increment with
    | some n =>
      let indent := least + n - 1
      let (empty, c) := allBreaks indent c
      (indent, empty, c)
    | none =>
      let (empty, widest, c) := indentation (c.rest.length + 1) c [] 0
      (max least widest, empty, c)
  let (done, last, empty, c) := contents fold indent (c.rest.length + 1) c [] [] empty
  let tail : Text :=
    match chomp with
    | .strip => []
    | .clip => last
    | .keep => last ++ empty
  return (done ++ tail, c)

end Block

end IdlBridge.Yaml
