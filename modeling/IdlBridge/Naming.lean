import IdlBridge.Text.Case

/-! # Names

    How names of one side become names of the other. Media types, header names and schema names
    are cut into *words*, the longest runs of ASCII letters and digits; the words are then put
    together as a type name (`camel`), a field name (`fieldName`) or a constant (`upperSnake`).
-/

namespace IdlBridge

namespace Naming

/-- The longest runs of ASCII letters and digits of a text. -/
def words : Text → List Text
  | [] => []
  | c :: rest =>
    if c.isAsciiAlnum then
      match rest with
      | d :: _ =>
        if d.isAsciiAlnum then
          match words rest with
          | w :: ws => (c :: w) :: ws
          | [] => [[c]]
        else [c] :: words rest
      | [] => [[c]]
    else words rest

/-- A word whose first letter is a capital; the other letters keep their case. -/
def capitalWord : Text → Text
  | [] => []
  | c :: rest => c.upperAscii :: rest

/-- A type name: the words of the text with capitals, nothing between them. -/
def camel (name : Text) : Text :=
  (words name).flatMap capitalWord

/-- A field name: the words of the text with underscores between them. A name that would be empty
    or start with a digit is put behind `field_`. -/
def fieldName (name : Text) : Text :=
  let s := Text.join "_" (words name)
  match s with
  | c :: _ => if c.isAsciiDigit then "field_" ++ s else s
  | [] => "field_"

/-- Puts an underscore between a small letter or digit and the capital that follows it. -/
def breakHumps : Text → Text
  | c :: d :: rest =>
    if (c.isAsciiLower || c.isAsciiDigit) && d.isAsciiUpper then
      c :: '_' :: breakHumps (d :: rest)
    else c :: breakHumps (d :: rest)
  | t => t

/-- A constant: the words of the text, cut at humps too, in capitals with underscores between
    them. -/
def upperSnake (name : Text) : Text :=
  Text.upperAscii (Text.join "_" (words (breakHumps name)))

/-- The last segment of a reference. -/
def ofReference (ref : Text) : Text :=
  Text.afterLast '/' ref

/-- The service of the operations without a tag. -/
def defaultService : Text := "DefaultService"

/-- The method name of an operation that has no identifier of its own. -/
def methodForVerb (verb : Text) : Text :=
  Text.capitalize (Text.lower verb) ++ "Method"

end Naming

end IdlBridge
