import IdlBridge.Text.Alphabet

/-! # Quoted texts

    Two ways to put a text between quotes. Messages quote with single quotes, or with double
    quotes where the text holds a single quote and no double one, and escape what is not
    printable. Data formats quote with double quotes and a fixed set of escapes; there the code
    points above `0x7E` are either kept or written as escapes of their UTF-16 units.
-/

namespace IdlBridge

namespace CodePoint

/-- The escape of a code point that is not printable: the shortest of `\x`, `\u` and `\U` forms. -/
def hexEscape (c : CodePoint) : Text :=
  if c.toNat < 0x100 then "\\x" ++ Text.hex 2 c.toNat
  else if c.toNat < 0x10000 then "\\u" ++ Text.hex 4 c.toNat
  else "\\U" ++ Text.hex 8 c.toNat

/-- A code point inside a quoted message text. -/
def inQuotes (c quote : CodePoint) : Text :=
  if c = quote ∨ c = '\\' then ['\\', c]
  else if c = '\n' then "\\n"
  else if c = '\r' then "\\r"
  else if c = '\t' then "\\t"
  else if c.isPrintable then [c]
  else c.hexEscape

/-- The UTF-16 units of a code point, each written as a `\u` escape. -/
def unitEscapes (c : CodePoint) : Text :=
  if c.toNat < 0x10000 then "\\u" ++ Text.hex 4 c.toNat
  else
    let n := c.toNat - 0x10000
    "\\u" ++ Text.hex 4 (0xD800 + n / 0x400) ++ "\\u" ++ Text.hex 4 (0xDC00 + n % 0x400)

/-- A code point inside a data string; `ascii` tells whether the text must stay ASCII. -/
def inDataString (ascii : Bool) (c : CodePoint) : Text :=
  if c = '"' then "\\\""
  else if c = '\\' then "\\\\"
  else if c = '\n' then "\\n"
  else if c = '\r' then "\\r"
  else if c = '\t' then "\\t"
  else if c.toNat = 0x08 then "\\b"
  else if c.toNat = 0x0C then "\\f"
  else if c.toNat < 0x20 ∨ (ascii ∧ 0x7E < c.toNat) then c.unitEscapes
  else [c]

end CodePoint

namespace Text

/-- A text as messages quote it. -/
def quoted (t : Text) : Text :=
  let quote : CodePoint := if ('\'' : CodePoint) ∈ t ∧ ('"' : CodePoint) ∉ t then '"' else '\''
  quote :: t.flatMap (·.inQuotes quote) ++ [quote]

/-- A text as a data string in double quotes. -/
def dataString (ascii : Bool) (t : Text) : Text :=
  "\"" ++ t.flatMap (·.inDataString ascii) ++ "\""

end Text

end IdlBridge
