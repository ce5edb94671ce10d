import IdlBridge.Text.Alphabet

/-! # Tokens of an interface definition

    The two interface languages share their delimiters, their literals and the way comments hang
    on tokens, and differ in their keywords. A token is therefore parametrised by the type of
    keywords; `Keyword` says how each one is spelled. Every token knows where it starts and which
    comments belong to it: the ones above it, and one that follows it on its line.
-/

namespace IdlBridge.Idl

/-- The one-character delimiters. -/
inductive Delimiter where
  | leftBrace | rightBrace | leftParen | rightParen | leftBracket | rightBracket
  | leftAngle | rightAngle | semicolon | colon | comma | equals
deriving DecidableEq

namespace Delimiter

/-- The delimiters with their characters and names. -/
def table : List (Delimiter × CodePoint × Text) :=
  [(.leftBrace, '{', "LBRACE"), (.rightBrace, '}', "RBRACE"),
   (.leftParen, '(', "LPAREN"), (.rightParen, ')', "RPAREN"),
   (.leftBracket, '[', "LBRACKET"), (.rightBracket, ']', "RBRACKET"),
   (.leftAngle, '<', "LANGLE"), (.rightAngle, '>', "RANGLE"),
   (.semicolon, ';', "SEMICOLON"), (.colon, ':', "COLON"),
   (.comma, ',', "COMMA"), (.equals, '=', "EQUALS")]

/-- The delimiter that a character is. -/
def ofCodePoint? (c : CodePoint) : Option Delimiter :=
  (table.find? (·.2.1 = c)).map (·.1)

/-- The character of a delimiter. -/
def codePoint (d : Delimiter) : CodePoint :=
  ((table.find? (·.1 = d)).map (·.2.1)).getD CodePoint.replacement

/-- The name of a delimiter in messages. -/
def name (d : Delimiter) : Text :=
  ((table.find? (·.1 = d)).map (·.2.2)).getD []

end Delimiter

/-- The keywords of a language: all of them, and how each is spelled. -/
class Keyword (κ : Type) where
  all : List κ
  spelling : κ → Text

namespace Keyword

variable {κ : Type} [Keyword κ]

/-- The keyword that a word spells. -/
def ofWord? (w : Text) : Option κ :=
  all.find? fun k => spelling k = w

end Keyword

/-- What a token is. -/
inductive Kind (κ : Type) where
  | keyword (k : κ)
  | delimiter (d : Delimiter)
  | ident
  | number
  | string
  | eof
deriving DecidableEq

namespace Kind

variable {κ : Type} [Keyword κ]

/-- The name of a kind of token in messages. -/
def name : Kind κ → Text
  | .keyword k => (Keyword.spelling k).upperAscii
  | .delimiter d => d.name
  | .ident => "IDENT"
  | .number => "NUMBER"
  | .string => "STRING_LIT"
  | .eof => "EOF"

/-- A keyword is a name wherever a name is expected. -/
def isName : Kind κ → Bool
  | .keyword _ => true
  | .ident => true
  | _ => false

end Kind

/-- A place in a source text; both numbers count from one. -/
structure Position where
  line : Nat
  col : Nat
deriving DecidableEq

namespace Position

/-- The start of a text. -/
def start : Position := ⟨1, 1⟩

/-- The place behind a character. -/
def step (p : Position) (c : CodePoint) : Position :=
  if c = '\n' then ⟨p.line + 1, 1⟩ else ⟨p.line, p.col + 1⟩

/-- The place behind a text. -/
def walk (p : Position) (t : Text) : Position :=
  t.foldl step p

/-- The place `n` columns further on the same line. -/
def along (p : Position) (n : Nat) : Position :=
  ⟨p.line, p.col + n⟩

end Position

/-- A token with its place and its comments. -/
structure Token (κ : Type) where
  kind : Kind κ
  value : Text
  pos : Position
  /-- The comments above the token, one per line. -/
  comment : Text := []
  /-- The comment that follows the token on its line. -/
  trailing : Text := []
deriving DecidableEq

namespace Token

variable {κ : Type}

/-- The comment above the token, or else the one behind it. -/
def remark (t : Token κ) : Text :=
  if t.comment.isEmpty then t.trailing else t.comment

end Token

end IdlBridge.Idl
