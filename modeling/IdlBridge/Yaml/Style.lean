import IdlBridge.Yaml.Cursor
import IdlBridge.Yaml.Tag

/-! # Writing scalars

    The styles of a scalar and when each may be used. A text without line feeds is written plain if
    it reads back as a text, else between single quotes, else between double quotes. A text with
    line feeds is written as a literal block, or between double quotes.

    Lines are folded at spaces behind `lineWidth` columns. A style gives the text of a scalar that
    starts at a column; `indent` is the indentation of its further lines.
-/

namespace IdlBridge.Yaml

/-- The columns behind which lines are folded. -/
def lineWidth : Nat := 1000

/-- The number of spaces by which a collection is indented. -/
def indentStep : Nat := 2

/-- A line end of a written scalar: the carriage return is none. -/
def isWrittenBreak (c : CodePoint) : Bool :=
  isBreak c && c.toNat ≠ 0x0D

/-- A code point that may be written as itself. -/
def isWritable (c : CodePoint) : Bool :=
  let n := c.toNat
  n = 0x0A || (0x20 ≤ n && n ≤ 0x7E) || n = 0x85 || (0xA0 ≤ n && n ≤ 0xD7FF) ||
    (0xE000 ≤ n && n ≤ 0xFFFD && n ≠ 0xFEFF) || (0x10000 ≤ n && n < 0x10FFFF)

/-! ## Shapes -/

/-- What a text holds that matters to the styles. -/
structure Shape where
  /-- It starts or ends with a space or a line end. -/
  loose : Bool
  /-- It ends with a space. -/
  trailingSpace : Bool
  /-- A space follows a line end. -/
  spaceAfterBreak : Bool
  /-- A line end follows a space. -/
  breakAfterSpace : Bool
  /-- It holds a code point that may not be written as itself. -/
  special : Bool
  /-- It holds a line end. -/
  multiline : Bool
  /-- It holds an indicator at a place where that would be read as one. -/
  indicators : Bool
deriving DecidableEq

namespace Shape

/-- A pair of neighbours satisfies a test. -/
def anyPair (p : CodePoint → CodePoint → Bool) : Text → Bool
  | a :: b :: rest => p a b || anyPair p (b :: rest)
  | _ => false

/-- The first character of a text is an indicator, given what follows it. -/
def startsWithIndicator (t : Text) : Bool :=
  let blankNext := isBlankOrEnd ((t.drop 1).headD nul)
  match t with
  | [] => false
  | c :: _ =>
    isOneOf "#,[]\x7b\x7d&*!|>'\"%@`" c || (isOneOf "?:-" c && blankNext)

/-- A colon before a blank, or a number sign behind one, stands behind the first character. -/
def hasInnerIndicator (t : Text) : Bool :=
  anyPair (fun a b => isBlankOrEnd a && b = '#') t ||
    anyPair (fun a b => a = ':' && isBlankOrEnd b) (t.drop 1) ||
    (2 ≤ t.length && t.getLast? = some (':' : CodePoint))

/-- The shape of a text. -/
def of (t : Text) : Shape :=
  let isEdge (c : CodePoint) : Bool := c = ' ' || isWrittenBreak c
  { loose := isEdge (t.headD 'x') || isEdge (t.getLastD 'x')
    trailingSpace := t.getLast? = some (' ' : CodePoint)
    spaceAfterBreak := anyPair (fun a b => isWrittenBreak a && b = ' ') t
    breakAfterSpace := anyPair (fun a b => a = ' ' && isWrittenBreak b) t
    special := !t.all isWritable
    multiline := t.any isWrittenBreak
    indicators :=
      Text.startsWith t "---" || Text.startsWith t "..." || startsWithIndicator t ||
        hasInnerIndicator t }

/-- The text may be written plain. -/
def allowsPlain (s : Shape) : Bool :=
  !(s.loose || s.spaceAfterBreak || s.breakAfterSpace || s.special || s.multiline || s.indicators)

/-- The text may be written between single quotes. -/
def allowsSingle (s : Shape) : Bool :=
  !(s.spaceAfterBreak || s.breakAfterSpace || s.special)

/-- The text may be written as a block. -/
def allowsBlock (s : Shape) : Bool :=
  !(s.trailingSpace || s.breakAfterSpace || s.special)

end Shape

/-! ## Runs -/

/-- What a run of a text consists of. -/
inductive RunKind where
  | spaces
  | breaks
  | word
deriving DecidableEq

/-- The kind of run that a code point belongs to. -/
def RunKind.of (c : CodePoint) : RunKind :=
  if c = ' ' then .spaces else if isWrittenBreak c then .breaks else .word

/-- Cuts a text into runs. -/
def runs (t : Text) : List Text :=
  t.splitBy fun a b => RunKind.of a = RunKind.of b

/-- A line end and the indentation of the next line. -/
def newLine (indent : Nat) : Text :=
  "\n" ++ Text.spaces indent

/-! ## Plain and single-quoted scalars -/

namespace Plain

/-- Writes runs from a column on. -/
def write (indent : Nat) (fold : Bool) : (column : Nat) → List Text → Text
  | _, [] => []
  | column, r :: rest =>
    if r = " " ∧ fold ∧ lineWidth < column then newLine indent ++ write indent fold indent rest
    else r ++ write indent fold (column + r.length) rest

end Plain

namespace SingleQuoted

/-- Writes runs from a column on; `first` tells that nothing precedes them. Quotes are doubled, and
    a line end is written twice unless it is a separator. -/
def write (indent : Nat) (fold : Bool) : (column : Nat) → (first : Bool) → List Text → Text
  | _, _, [] => []
  | column, first, r :: rest =>
    match RunKind.of (r.headD ' ') with
    | .spaces =>
      if r = " " ∧ fold ∧ lineWidth < column ∧ !first ∧ rest ≠ [] then
        newLine indent ++ write indent fold indent false rest
      else r ++ write indent fold (column + r.length) false rest
    | .breaks =>
      let extra : Text := if r.head? = some ('\n' : CodePoint) then "\n" else ""
      extra ++ r ++ Text.spaces indent ++ write indent fold indent false rest
    | .word =>
      let w := Text.replaceChar '\'' "''" r
      w ++ write indent fold (column + w.length) false rest

/-- A scalar between single quotes. -/
def scalar (indent column : Nat) (fold : Bool) (t : Text) : Text :=
  "'" ++ write indent fold (column + 1) true (runs t) ++ "'"

end SingleQuoted

/-! ## Double-quoted scalars -/

namespace DoubleQuoted

/-- The letters that stand for code points behind a backslash. -/
def letters : List (Nat × CodePoint) :=
  [(0x00, '0'), (0x07, 'a'), (0x08, 'b'), (0x09, 't'), (0x0A, 'n'), (0x0B, 'v'), (0x0C, 'f'),
   (0x0D, 'r'), (0x1B, 'e'), (0x22, '"'), (0x5C, '\\'), (0x85, 'N'), (0xA0, '_'), (0x2028, 'L'),
   (0x2029, 'P')]

/-- A code point that stands for itself between double quotes. -/
def isOrdinary (c : CodePoint) : Bool :=
  let n := c.toNat
  !(n = 0x22 || n = 0x5C || n = 0x85 || n = 0x2028 || n = 0x2029 || n = 0xFEFF) &&
    ((0x20 ≤ n && n ≤ 0x7E) || (0xA0 ≤ n && n ≤ 0xD7FF) || (0xE000 ≤ n && n ≤ 0xFFFD))

/-- Upper-case hexadecimal digits, at least `width` of them. -/
def hexUpper (width n : Nat) : Text :=
  Text.upperAscii (Text.hex width n)

/-- The escape of a code point. -/
def escape (c : CodePoint) : Text :=
  match letters.find? (·.1 = c.toNat) with
  | some (_, x) => ['\\', x]
  | none =>
    if c.toNat ≤ 0xFF then "\\x" ++ hexUpper 2 c.toNat
    else if c.toNat ≤ 0xFFFF then "\\u" ++ hexUpper 4 c.toNat
    else "\\U" ++ hexUpper 8 c.toNat

/-- A line end that does not count, and what protects a space at the start of the next line. -/
def foldMark (indent : Nat) (next : Option CodePoint) : Text :=
  "\\" ++ newLine indent ++ (if next = some (' ' : CodePoint) then "\\" else "")

/-- Writes a text from a column on. A line may be folded before a space, behind an escape and behind
    a fold, but neither before nor behind the first character or the last; `first` tells that
    nothing precedes, `fresh` that an escape does. -/
def write (indent : Nat) (fold : Bool) :
    (column : Nat) → (first fresh : Bool) → Text → Text
  | _, _, _, [] => []
  | column, first, fresh, c :: rest =>
    let mayFold (column : Nat) : Bool := fold && !first && rest ≠ [] && lineWidth < column
    if isOrdinary c then
      if (c = ' ' ∨ fresh) ∧ mayFold column then
        let mark := foldMark indent (some c)
        mark ++ [c] ++ write indent fold (indent + (if c = ' ' then 2 else 1)) false false rest
      else c :: write indent fold (column + 1) false false rest
    else
      let e := escape c
      let column := column + e.length
      if mayFold (column - 1) then
        let mark := foldMark indent rest.head?
        e ++ mark ++
          write indent fold (indent + (if rest.head? = some (' ' : CodePoint) then 1 else 0)) false
            true rest
      else e ++ write indent fold column false true rest

/-- A scalar between double quotes. -/
def scalar (indent column : Nat) (fold : Bool) (t : Text) : Text :=
  "\"" ++ write indent fold (column + 1) true true t ++ "\""

end DoubleQuoted

/-! ## Literal blocks -/

namespace Literal

/-- The indicators of a block: the indentation where the block starts with a blank, and what becomes
    of the line ends at its end. -/
def indicators (t : Text) : Text :=
  let first := t.headD 'x'
  let last := t.getLastD 'x'
  let start : Text := if first = ' ' ∨ isWrittenBreak first then Text.ofNat indentStep else ""
  let stop : Text :=
    if !isWrittenBreak last then "-"
    else if t.length = 1 ∨ isWrittenBreak (t.dropLast.getLastD 'x') then "+"
    else ""
  start ++ stop

/-- The lines of a block; `atStart` tells that a line starts here. -/
def lines (indent : Nat) : (atStart : Bool) → Text → Text
  | atStart, [] => if atStart then "" else "\n"
  | atStart, c :: rest =>
    if isWrittenBreak c then c :: lines indent true rest
    else (if atStart then Text.spaces indent else "") ++ c :: lines indent false rest

/-- The block keeps all line ends at its end. -/
def keepsEnd (t : Text) : Bool :=
  (indicators t).getLast? = some ('+' : CodePoint)

/-- A literal block, with the line end at its end. -/
def scalar (indent : Nat) (t : Text) : Text :=
  "|" ++ indicators t ++ "\n" ++ lines indent true t

end Literal

end IdlBridge.Yaml
