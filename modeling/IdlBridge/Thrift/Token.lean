import IdlBridge.Idl.Lexer

/-! # The words of Thrift sources

    A string literal is kept as it stands, so that payloads inside annotations survive; only a
    backslash before the enclosing quote is dropped. Line feeds inside a literal count as line
    ends, and a number sign starts a comment.
-/

namespace IdlBridge.Thrift

open Idl

/-- The keywords. -/
inductive Word where
  | includeWord | cppInclude | namespaceWord | const | typedef | enum | senum | struct | union
  | exception | service | extendsWord | throws | oneway | void | required | optional
deriving DecidableEq

namespace Word

/-- The spelling of a keyword. -/
def spelling : Word → Text
  | .includeWord => "include"
  | .cppInclude => "cpp_include"
  | .namespaceWord => "namespace"
  | .const => "const"
  | .typedef => "typedef"
  | .enum => "enum"
  | .senum => "senum"
  | .struct => "struct"
  | .union => "union"
  | .exception => "exception"
  | .service => "service"
  | .extendsWord => "extends"
  | .throws => "throws"
  | .oneway => "oneway"
  | .void => "void"
  | .required => "required"
  | .optional => "optional"

/-- All keywords. -/
def all : List Word :=
  [.includeWord, .cppInclude, .namespaceWord, .const, .typedef, .enum, .senum, .struct, .union,
   .exception, .service, .extendsWord, .throws, .oneway, .void, .required, .optional]

end Word

instance : Keyword Word := ⟨Word.all, Word.spelling⟩

/-- A token of a source. -/
abbrev Token := Idl.Token Word

/-- The lexical rules. -/
def lexicon : Lexicon where
  hashComments := true
  signedPoint := false
  leadingPoint := false
  escape? := fun quote c => if c = quote then some quote else none
  linesInLiterals := true

/-- The tokens of a source. -/
def tokens (source : Text) : List Token :=
  lexicon.tokens source

end IdlBridge.Thrift
