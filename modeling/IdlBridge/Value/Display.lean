import IdlBridge.Decimal.Shortest
import IdlBridge.Decimal.Reading
import IdlBridge.Text.Quoted
import IdlBridge.Value.Basic

/-! # Data in messages

    How data appears inside a message. A scalar is *shown* as it reads (`display`), and *quoted*
    where a message has to tell texts from other data (`inspect`); inside a sequence or a mapping
    everything is quoted. An integer with more than `Numeral.maxDecimalDigits` digits has no text.
-/

namespace IdlBridge

namespace Date

/-- Year, month and day. -/
def toText (d : Date) : Text :=
  Text.padZeros 4 (Text.ofNat d.year) ++ "-" ++ Text.padZeros 2 (Text.ofNat d.month) ++ "-" ++
    Text.padZeros 2 (Text.ofNat d.day)

end Date

namespace Timestamp

/-- Date and time with `sep` between them. -/
def toText (sep : Text) (t : Timestamp) : Text :=
  let two (n : Nat) : Text := Text.padZeros 2 (Text.ofNat n)
  let fraction : Text :=
    if t.micro = 0 then "" else "." ++ Text.padZeros 6 (Text.ofNat t.micro)
  let offset : Text :=
    match t.offset with
    | none => ""
    | some m => (if m < 0 then "-" else "+") ++ two (m.natAbs / 60) ++ ":" ++ two (m.natAbs % 60)
  t.date.toText ++ sep ++ two t.hour ++ ":" ++ two t.minute ++ ":" ++ two t.second ++ fraction ++
    offset

end Timestamp

namespace Value

/-- The digits of an integer that is not too long to be written. -/
def intText? (i : Int) : Option Text :=
  if i.natAbs < Nat.pow 10 Numeral.maxDecimalDigits then some (Text.ofInt i) else none

/-- The kind of data, as messages name it. -/
def typeName : Value → Text
  | .null => "NoneType"
  | .bool _ => "bool"
  | .int _ => "int"
  | .float _ => "float"
  | .text _ => "str"
  | .date _ => "date"
  | .timestamp _ => "datetime"
  | .bytes _ => "bytes"
  | .list _ => "list"
  | .pair _ _ => "tuple"
  | .map _ => "dict"
  | .set _ => "set"

/-- An octet between the quotes of a quoted octet string. -/
def octetText (quote : CodePoint) (n : Nat) : Text :=
  let c := CodePoint.ofNat n
  if n < 0x7F then c.inQuotes quote else "\\x" ++ Text.hex 2 n

/-- A quoted octet string. -/
def inspectBytes (bs : List Nat) : Text :=
  let quote : CodePoint := if 39 ∈ bs ∧ 34 ∉ bs then '"' else '\''
  "b" ++ [quote] ++ bs.flatMap (octetText quote) ++ [quote]

/-- The numbers that describe a date. -/
def dateArguments (d : Date) : Text :=
  Text.join ", " [Text.ofNat d.year, Text.ofNat d.month, Text.ofNat d.day]

/-- A distance from universal time. -/
def inspectOffset (minutes : Int) : Text :=
  let days := minutes / 1440
  let seconds := Text.ofInt (minutes % 1440 * 60)
  if minutes = 0 then "datetime.timezone.utc"
  else if days = 0 then "datetime.timezone(datetime.timedelta(seconds=" ++ seconds ++ "))"
  else
    "datetime.timezone(datetime.timedelta(days=" ++ Text.ofInt days ++ ", seconds=" ++ seconds ++
      "))"

/-- A quoted time: trailing zero parts of the second are left out. -/
def inspectTimestamp (t : Timestamp) : Text :=
  let seconds : Text :=
    if t.micro ≠ 0 then ", " ++ Text.ofNat t.second ++ ", " ++ Text.ofNat t.micro
    else if t.second ≠ 0 then ", " ++ Text.ofNat t.second
    else ""
  let zone : Text :=
    match t.offset with
    | none => ""
    | some m => ", tzinfo=" ++ inspectOffset m
  "datetime.datetime(" ++ dateArguments t.date ++ ", " ++ Text.ofNat t.hour ++ ", " ++
    Text.ofNat t.minute ++ seconds ++ zone ++ ")"

/-- Data with its texts quoted. -/
def inspect? : Value → Option Text
  | .null => some "None"
  | .bool b => some (if b then "True" else "False")
  | .int i => intText? i
  | .float x => some (x.toText .plain)
  | .text t => some t.quoted
  | .date d => some ("datetime.date(" ++ dateArguments d ++ ")")
  | .timestamp t => some (inspectTimestamp t)
  | .bytes bs => some (inspectBytes bs)
  | .list xs => (items xs).map fun ts => "[" ++ Text.join ", " ts ++ "]"
  | .pair k v =>
    match k.inspect?, v.inspect? with
    | some s, some t => some ("(" ++ s ++ ", " ++ t ++ ")")
    | _, _ => none
  | .map es => (entries es).map fun ts => "\x7b" ++ Text.join ", " ts ++ "\x7d"
  | .set [] => some "set()"
  | .set (x :: xs) => (items (x :: xs)).map fun ts => "\x7b" ++ Text.join ", " ts ++ "\x7d"
where
  items : List Value → Option (List Text)
    | [] => some []
    | x :: rest =>
      match x.inspect?, items rest with
      | some t, some ts => some (t :: ts)
      | _, _ => none
  entries : List (Value × Value) → Option (List Text)
    | [] => some []
    | (k, v) :: rest =>
      match k.inspect?, v.inspect?, entries rest with
      | some s, some t, some ts => some ((s ++ ": " ++ t) :: ts)
      | _, _, _ => none

/-- Data as it reads. -/
def display? : Value → Option Text
  | .text t => some t
  | .date d => some d.toText
  | .timestamp t => some (t.toText " ")
  | v => v.inspect?

end Value

end IdlBridge
