import IdlBridge.Idl.Lexer

/-! # The words of Protocol Buffers sources

    A string literal knows the usual escapes, and a backslash before any other character is
    dropped; line feeds inside a literal do not count as line ends. A name may be fully qualified
    by a point in front of it.
-/

namespace IdlBridge.Proto

open Idl

/-- The keywords. -/
inductive Word where
  | message | repeated | optional | required | syntaxWord | package | option | reserved | extensions
  | importWord | enum | oneof | map | service | rpc | returns | stream | extend
deriving DecidableEq

namespace Word

/-- The spelling of a keyword. -/
def spelling : Word → Text
  | .message => "message"
  | .repeated => "repeated"
  | .optional => "optional"
  | .required => "required"
  | .syntaxWord => "syntax"
  | .package => "package"
  | .option => "option"
  | .reserved => "reserved"
  | .extensions => "extensions"
  | .importWord => "import"
  | .enum => "enum"
  | .oneof => "oneof"
  | .map => "map"
  | .service => "service"
  | .rpc => "rpc"
  | .returns => "returns"
  | .stream => "stream"
  | .extend => "extend"

/-- All keywords. -/
def all : List Word :=
  [.message, .repeated, .optional, .required, .syntaxWord, .package, .option, .reserved,
    .extensions, .importWord, .enum, .oneof, .map, .service, .rpc, .returns, .stream, .extend]

end Word

instance : Keyword Word := ⟨Word.all, Word.spelling⟩

/-- A token of a source. -/
abbrev Token := Idl.Token Word

/-- What an escaped character stands for. -/
def unescape (c : CodePoint) : CodePoint :=
  if c = 'n' then '\n' else if c = 't' then '\t' else if c = 'r' then '\r' else c

/-- The lexical rules. -/
def lexicon : Lexicon where
  hashComments := false
  signedPoint := true
  leadingPoint := true
  escape? := fun _ c => some (unescape c)
  linesInLiterals := false

/-- The tokens of a source. -/
def tokens (source : Text) : List Token :=
  lexicon.tokens source

end IdlBridge.Proto
