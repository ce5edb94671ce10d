import IdlBridge.Decimal.Binary64
import IdlBridge.Text.Alphabet

/-! # Reading numbers

    The number grammars of source files and documents. Digits of every decimal system of Unicode
    count, white space around a number is dropped, and an underscore may stand between two digits.

    An integer in base ten has at most `maxDecimalDigits` digits; the bases that are powers of two
    know no limit.
-/

namespace IdlBridge

namespace Numeral

/-- The most digits a decimal integer may have, read or written. -/
def maxDecimalDigits : Nat := 4300

/-- Digits of other scripts are put into ASCII, and other blanks become spaces. -/
def normalize (t : Text) : Text :=
  t.map fun c =>
    match c.decimalValue? with
    | some v => CodePoint.ofNat (48 + v)
    | none => if c.isBlank then ' ' else c

/-- Splits off a sign. -/
def sign (t : Text) : Bool × Text :=
  match t with
  | c :: rest => if c = '-' then (true, rest) else if c = '+' then (false, rest) else (false, t)
  | [] => (false, [])

/-- The digits of a text in which single underscores may stand between digits; `none` where
    something else stands. -/
def digits? (isDigit : CodePoint → Bool) : Text → Option Text
  | [] => none
  | [c] => if isDigit c then some [c] else none
  | c :: d :: rest =>
    if isDigit c then
      if d = '_' then (digits? isDigit rest).map (c :: ·)
      else (digits? isDigit (d :: rest)).map (c :: ·)
    else none

/-- The letter after a leading zero and the base it announces. -/
def base? (c : CodePoint) : Option Nat :=
  if c.lowerAscii = 'x' then some 16
  else if c.lowerAscii = 'o' then some 8
  else if c.lowerAscii = 'b' then some 2
  else none

/-- A digit of a base that is at most sixteen. -/
def isDigitOf (base : Nat) (c : CodePoint) : Bool :=
  c.isHexDigit && c.hexValue < base

/-- The value of the digits of a base. -/
def natInBase? (base : Nat) (t : Text) : Option Nat :=
  match digits? (isDigitOf base) t with
  | some ds =>
    if base = 10 ∧ maxDecimalDigits < ds.length then none
    else some (Text.valueWith CodePoint.hexValue base ds)
  | none => none

/-- An unsigned integer literal: a prefixed one, or a decimal one without leading zeros (zero
    itself may have several). -/
def natLiteral? (t : Text) : Option Nat :=
  match t with
  | z :: x :: rest =>
    if z = '0' then
      match base? x with
      | some base => natInBase? base
          (match rest with | u :: r => if u = '_' then r else rest | [] => [])
      | none =>
        match natInBase? 10 t with
        | some 0 => some 0
        | _ => none
    else natInBase? 10 t
  | _ => natInBase? 10 t

/-- An integer literal of a source file. -/
def intLiteral? (t : Text) : Option Int :=
  let (negative, body) := sign (Text.trim (· == ' ') (normalize t))
  (natLiteral? body).map fun n => if negative then -(n : Int) else n

/-- An integer in base ten, leading zeros allowed. -/
def decimalInt? (t : Text) : Option Int :=
  let (negative, body) := sign (Text.trim (· == ' ') (normalize t))
  (natInBase? 10 body).map fun n => if negative then -(n : Int) else n

/-- An integer in a base; the letter that announces the base may stand before its digits. -/
def intInBase? (base : Nat) (t : Text) : Option Int :=
  let (negative, body) := sign (Text.trim (· == ' ') (normalize t))
  let digits :=
    match body with
    | z :: x :: rest =>
      if z = '0' ∧ base? x = some base then
        (match rest with | u :: r => if u = '_' then r else rest | [] => [])
      else body
    | _ => body
  (natInBase? base digits).map fun n => if negative then -(n : Int) else n

/-- The digits before and after the point, either of which may be missing but not both. -/
def mantissa? (t : Text) : Option (Text × Text) :=
  let digits := digits? CodePoint.isAsciiDigit
  match Text.cut? '.' t with
  | none => (digits t).map fun whole => (whole, [])
  | some ([], []) => none
  | some (whole, []) => (digits whole).map fun w => (w, [])
  | some ([], part) => (digits part).map fun p => ([], p)
  | some (whole, part) => (digits whole).bind fun w => (digits part).map fun p => (w, p)

/-- The letter before an exponent. -/
def isExponentMark (c : CodePoint) : Bool :=
  c = 'e' || c = 'E'

/-- An unsigned floating-point literal with its exponent. -/
def unsignedFloat? (negative : Bool) (t : Text) : Option Binary64 :=
  let body := t.takeWhile fun c => !isExponentMark c
  let tail := t.dropWhile fun c => !isExponentMark c
  let exponent : Option Int :=
    match tail with
    | [] => some 0
    | _ :: e =>
      let (down, ds) := sign e
      (digits? CodePoint.isAsciiDigit ds).map fun d =>
        let n := d.decimalValue
        if down then -(n : Int) else n
  match mantissa? body, exponent with
  | some (whole, part), some e =>
    some (.ofDecimal negative (whole ++ part).decimalValue (e - part.length))
  | _, _ => none

/-- A floating-point number, the words for infinity and for what is no number included. -/
def float? (t : Text) : Option Binary64 :=
  let (negative, body) := sign (Text.trim (· == ' ') (normalize t))
  let word := Text.lowerAscii body
  if word = "inf" ∨ word = "infinity" then some (.infinite negative)
  else if word = "nan" then some .nan
  else unsignedFloat? negative body

end Numeral

end IdlBridge
