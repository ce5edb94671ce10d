import IdlBridge.Text.Alphabet

/-! # Tags

    The tag of a node says what its content stands for. A plain scalar without a tag gets one from
    its form: `Tag.ofPlain` holds the forms of the truth values, numbers, points in time and null,
    and of the two special keys `<<` and `=`; everything else is a text.
-/

namespace IdlBridge.Yaml

/-- What the content of a node stands for. -/
inductive Tag where
  | null
  | bool
  | int
  | float
  | binary
  | timestamp
  | omap
  | pairs
  | set
  | str
  | seq
  | map
  /-- The key `<<`, whose value is merged into the mapping. -/
  | merge
  /-- The key `=`, whose value is the default of the mapping. -/
  | value
  | unknown
deriving DecidableEq

namespace Form

/-- A space or a tab. -/
def isGap (c : CodePoint) : Bool :=
  c = ' ' || c = '\t'

/-- One of the ASCII digits, or an underscore. -/
def isSpacedDigit (c : CodePoint) : Bool :=
  c.isAsciiDigit || c = '_'

/-- Drops a sign. -/
def unsigned (t : Text) : Text :=
  match t with
  | c :: rest => if c = '-' || c = '+' then rest else t
  | [] => []

/-- A digit, then digits and underscores. -/
def isWhole (t : Text) : Bool :=
  match t with
  | c :: rest => c.isAsciiDigit && rest.all isSpacedDigit
  | [] => false

/-- A part of a number in base sixty, at most `59`. -/
def isSixtieth (t : Text) : Bool :=
  match t with
  | [a] => a.isAsciiDigit
  | [a, b] => a.within '0' '5' && b.isAsciiDigit
  | _ => false

/-- Colons and parts of a number in base sixty, at least one, behind a first part of a form. -/
def isSexagesimal (first : Text → Bool) (t : Text) : Bool :=
  match Text.splitOn ':' t with
  | a :: b :: rest => first a && (b :: rest).all isSixtieth
  | _ => false

/-- A whole number in any of its bases. -/
def isInt (t : Text) : Bool :=
  let u := unsigned t
  let positive (w : Text) : Bool := isWhole w && w.head? ≠ some ('0' : CodePoint)
  match u with
  | z :: rest =>
    if z = '0' then
      match rest with
      | [] => true
      | x :: ds =>
        (x = 'b' && ds ≠ [] && ds.all fun c => c = '0' || c = '1' || c = '_') ||
        (x = 'x' && ds ≠ [] && ds.all fun c => c.isHexDigit || c = '_') ||
        rest.all fun c => c.within '0' '7' || c = '_'
    else positive u || isSexagesimal positive u
  | [] => false

/-- Nothing, or an exponent with its sign. -/
def isExponent (t : Text) : Bool :=
  match t with
  | [] => true
  | e :: sign :: ds =>
    (e = 'e' || e = 'E') && (sign = '-' || sign = '+') && ds ≠ [] && ds.all CodePoint.isAsciiDigit
  | _ => false

/-- A number with a point. -/
def isFloat (t : Text) : Bool :=
  let u := unsigned t
  let words : List Text := [".inf", ".Inf", ".INF"]
  let nans : List Text := [".nan", ".NaN", ".NAN"]
  words.contains u || nans.contains t ||
    match Text.cut? '.' u with
    | none => false
    | some (whole, part) =>
      let tail := part.dropWhile isSpacedDigit
      (isWhole whole && isExponent tail) ||
      (isSexagesimal isWhole whole && tail = []) ||
      (t.head? = some ('.' : CodePoint) && (part.headD ' ').isAsciiDigit && isExponent tail)

/-- One of the words for truth values. -/
def isBool (t : Text) : Bool :=
  let words : List Text :=
    ["yes", "Yes", "YES", "no", "No", "NO", "true", "True", "TRUE", "false", "False", "FALSE",
     "on", "On", "ON", "off", "Off", "OFF"]
  words.contains t

/-- One of the words for null. -/
def isNull (t : Text) : Bool :=
  let words : List Text := ["", "~", "null", "Null", "NULL"]
  words.contains t

end Form

/-! ## Points in time -/

/-- The digits of a point in time. -/
structure TimeDigits where
  year : Text
  month : Text
  day : Text
  /-- Hour, minute, second and fraction, if a time of the day is given. -/
  clock : Option (Text × Text × Text × Text)
  /-- The sign, hours and minutes of the distance from universal time, if it is given. -/
  zone : Option (Bool × Text × Text)

namespace TimeDigits

/-- Cuts off digits, between `least` and `most` of them. -/
def digits? (least most : Nat) (t : Text) : Option (Text × Text) :=
  let ds := (t.take most).takeWhile CodePoint.isAsciiDigit
  if least ≤ ds.length then some (ds, t.drop ds.length) else none

/-- Cuts off a character. -/
def char? (c : CodePoint) (t : Text) : Option Text :=
  match t with
  | x :: rest => if x = c then some rest else none
  | [] => none

/-- The distance from universal time that a text ends with. -/
def zone? (t : Text) : Option (Option (Bool × Text × Text)) :=
  match t.dropWhile Form.isGap with
  | [] => if t = [] then some none else none
  | x :: rest =>
    if x = 'Z' then (if rest = [] then some (some (false, "0", "")) else none)
    else if x = '-' || x = '+' then do
      let (hours, rest) ← digits? 1 2 rest
      match rest with
      | [] => return some (x = '-', hours, [])
      | _ =>
        let (minutes, rest) ← digits? 2 2 (← char? ':' rest)
        if rest = [] then return some (x = '-', hours, minutes) else none
    else none

/-- Reads the digits of a time of the day and of its distance from universal time. -/
def clock? (t : Text) : Option ((Text × Text × Text × Text) × Option (Bool × Text × Text)) := do
  let (hour, rest) ← digits? 1 2 t
  let (minute, rest) ← digits? 2 2 (← char? ':' rest)
  let (second, rest) ← digits? 2 2 (← char? ':' rest)
  let (fraction, rest) :=
    match char? '.' rest with
    | some r => (r.takeWhile CodePoint.isAsciiDigit, r.dropWhile CodePoint.isAsciiDigit)
    | none => ([], rest)
  let zone ← zone? rest
  return ((hour, minute, second, fraction), zone)

/-- The separator between a date and a time: a letter or blanks. -/
def separator? (t : Text) : Option Text :=
  match t with
  | [] => none
  | c :: rest =>
    if c = 'T' || c = 't' then some rest
    else if Form.isGap c then some (rest.dropWhile Form.isGap)
    else none

/-- Reads the digits of a date or of a date with a time. -/
def ofText? (t : Text) : Option TimeDigits := do
  let (year, rest) ← digits? 4 4 t
  let (month, rest) ← digits? 1 2 (← char? '-' rest)
  let (day, rest) ← digits? 1 2 (← char? '-' rest)
  match rest with
  | [] => return ⟨year, month, day, none, none⟩
  | _ =>
    let (clock, zone) ← clock? (← separator? rest)
    return ⟨year, month, day, some clock, zone⟩

/-- The digits need no tag: a date alone has all its digits. -/
def isPlain (d : TimeDigits) : Bool :=
  d.clock.isSome || (d.month.length = 2 && d.day.length = 2)

end TimeDigits

namespace Tag

/-- A text without one line feed at its end, which does not count for the form of a scalar. -/
def withoutFinalBreak (t : Text) : Text :=
  if t.getLast? = some ('\n' : CodePoint) then t.dropLast else t

/-- The tag of a plain scalar. A form that starts with a line feed is none. -/
def ofPlain (t : Text) : Tag :=
  let form := withoutFinalBreak t
  if t = "" then .null
  else if form = "" then .str
  else if Form.isBool form then .bool
  else if Form.isFloat form then .float
  else if Form.isInt form then .int
  else if form = "<<" then .merge
  else if Form.isNull form then .null
  else if (TimeDigits.ofText? form).any TimeDigits.isPlain then .timestamp
  else if form = "=" then .value
  else if form = "!" ∨ form = "&" ∨ form = "*" then .unknown
  else .str

/-- What the tags of the language start with. -/
def lead : Text := "tag:yaml.org,2002:"

/-- The names of the tags of the language. -/
def names : List (Text × Tag) :=
  [("null", .null), ("bool", .bool), ("int", .int), ("float", .float), ("binary", .binary),
   ("timestamp", .timestamp), ("omap", .omap), ("pairs", .pairs), ("set", .set), ("str", .str),
   ("seq", .seq), ("map", .map), ("merge", .merge), ("value", .value)]

/-- The tag of a name with its handle replaced. -/
def ofName (name : Text) : Tag :=
  if Text.startsWith name lead then
    ((names.find? fun e => e.1 = name.drop lead.length).map (·.2)).getD .unknown
  else .unknown

end Tag

end IdlBridge.Yaml
