import IdlBridge.Text.Basic
import IdlBridge.Text.Letters
import IdlBridge.Text.Numerals
import IdlBridge.Text.Unprintable

/-! # Classes of code points

    Each class is decided by a rule below `0x80` and by a table of ranges above it. Identifiers in
    the two interface languages are made of letters, numerals, underscores and dots; blanks are
    what is stripped from comments; printable code points stand for themselves in a quoted text.
-/

namespace IdlBridge

namespace Charset

/-- The number lies in one of the closed ranges. -/
def covers (ranges : List (Nat × Nat)) (n : Nat) : Bool :=
  ranges.any fun r => r.1 ≤ n && n ≤ r.2

end Charset

namespace CodePoint

open Charset

/-- One of `0` to `9`. -/
def isAsciiDigit (c : CodePoint) : Bool :=
  c.within '0' '9'

/-- One of `A` to `Z`. -/
def isAsciiUpper (c : CodePoint) : Bool :=
  c.within 'A' 'Z'

/-- One of `a` to `z`. -/
def isAsciiLower (c : CodePoint) : Bool :=
  c.within 'a' 'z'

/-- An ASCII letter. -/
def isAsciiLetter (c : CodePoint) : Bool :=
  c.isAsciiUpper || c.isAsciiLower

/-- An ASCII letter or digit. -/
def isAsciiAlnum (c : CodePoint) : Bool :=
  c.isAsciiLetter || c.isAsciiDigit

/-- A hexadecimal digit. -/
def isHexDigit (c : CodePoint) : Bool :=
  c.isAsciiDigit || c.within 'a' 'f' || c.within 'A' 'F'

/-- A letter of any script. -/
def isLetter (c : CodePoint) : Bool :=
  c.isAsciiLetter || (0x80 ≤ c.toNat && covers letters c.toNat)

/-- A character with a numeric value that is not a letter. -/
def isNumeral (c : CodePoint) : Bool :=
  c.isAsciiDigit || (0x80 ≤ c.toNat && covers numerals c.toNat)

/-- A letter or a numeral. -/
def isAlnum (c : CodePoint) : Bool :=
  c.isLetter || c.isNumeral

/-- A character with a digit value. -/
def isDigit (c : CodePoint) : Bool :=
  c.isAsciiDigit || (0x80 ≤ c.toNat && covers digits c.toNat)

/-- A letter, a numeral or an underscore. -/
def isWord (c : CodePoint) : Bool :=
  c.isAlnum || c = '_'

/-- The value of a decimal digit of any script. -/
def decimalValue? (c : CodePoint) : Option Nat :=
  if c.isAsciiDigit then some (c.toNat - 48)
  else (zeros.find? fun z => z ≤ c.toNat && c.toNat ≤ z + 9).map (c.toNat - ·)

/-- The value of a hexadecimal digit, and zero for another code point. -/
def hexValue (c : CodePoint) : Nat :=
  if c.isAsciiDigit then c.toNat - 48
  else if c.within 'a' 'f' then c.toNat - 87
  else if c.within 'A' 'F' then c.toNat - 55
  else 0

/-- White space of any kind: the separators, the controls that move the cursor and the four
    information separators. -/
def isBlank (c : CodePoint) : Bool :=
  covers [(0x09, 0x0D), (0x1C, 0x20), (0x85, 0x85), (0xA0, 0xA0), (0x1680, 0x1680),
    (0x2000, 0x200A), (0x2028, 0x2029), (0x202F, 0x202F), (0x205F, 0x205F), (0x3000, 0x3000)]
    c.toNat

/-- A code point that a quoted text shows as itself. -/
def isPrintable (c : CodePoint) : Bool :=
  0x20 ≤ c.toNat && (c.toNat < 0x7F || !covers unprintable c.toNat)

/-- The upper case of an ASCII letter; other code points stay. -/
def upperAscii (c : CodePoint) : CodePoint :=
  if c.isAsciiLower then ofNat (c.toNat - 32) else c

/-- The lower case of an ASCII letter; other code points stay. -/
def lowerAscii (c : CodePoint) : CodePoint :=
  if c.isAsciiUpper then ofNat (c.toNat + 32) else c

end CodePoint

namespace Text

/-- Drops white space from both ends. -/
def strip (t : Text) : Text :=
  trim CodePoint.isBlank t

/-- Lower case of the ASCII letters; other code points stay. -/
def lowerAscii (t : Text) : Text :=
  t.map CodePoint.lowerAscii

/-- Upper case of the ASCII letters; other code points stay. -/
def upperAscii (t : Text) : Text :=
  t.map CodePoint.upperAscii

/-- The value of a text of digits read in base `base`, most significant first; `value` gives each
    digit. -/
def valueWith (value : CodePoint → Nat) (base : Nat) (t : Text) : Nat :=
  t.foldl (fun n c => n * base + value c) 0

/-- The value of a text of ASCII decimal digits. -/
def decimalValue (t : Text) : Nat :=
  valueWith CodePoint.hexValue 10 t

end Text

end IdlBridge
