import IdlBridge.Idl.Token

/-! # From text to tokens

    A text is first cut into *lexemes*, which lie next to each other and make up the whole text:
    single characters that mean nothing, comments, and tokens. `Lexicon` holds what the two
    languages decide differently. The lexemes are then walked with a position, comments are handed
    to their tokens, and a token for the end of the text closes the list.

    A comment belongs to the token before it when that token starts on the line where the comment
    starts and no other comment is waiting for the next token; otherwise it waits. Of two such
    trailing comments the later one is kept.
-/

namespace IdlBridge.Idl

/-- What the lexers of the two languages decide differently. -/
structure Lexicon where
  /-- A number sign starts a comment that ends with its line. -/
  hashComments : Bool
  /-- A point may follow the sign of a number. -/
  signedPoint : Bool
  /-- A point before a letter starts a name. -/
  leadingPoint : Bool
  /-- What a backslash and a character stand for between two quotes; `none` where the backslash
      stands for itself. -/
  escape? : (quote c : CodePoint) → Option CodePoint
  /-- Line feeds inside a literal count as line ends. -/
  linesInLiterals : Bool

/-- What a lexeme is good for. -/
inductive Role (κ : Type) where
  | gap
  | lineComment
  /-- A block comment, with the text between its marks. -/
  | blockComment (body : Text)
  | token (kind : Kind κ) (value : Text)
deriving DecidableEq

/-- A piece of a text, and what it is good for. -/
structure Lexeme (κ : Type) where
  raw : Text
  role : Role κ
deriving DecidableEq

namespace Lexicon

variable {κ : Type} [Keyword κ]

/-- The text of a block comment up to its closing mark, or to the end of the text. -/
def blockBody : Text → Text
  | a :: b :: rest => if a = '*' ∧ b = '/' then [] else a :: blockBody (b :: rest)
  | t => t

/-- The value of a literal whose opening quote has been read, and the number of characters up to
    its closing quote, that one included. A literal that is not closed ends with the text. -/
def literal (lx : Lexicon) (quote : CodePoint) : Text → Text × Nat
  | [] => ([], 0)
  | c :: rest =>
    if c = quote then ([], 1)
    else if c = '\\' then
      match rest with
      | [] => ([c], 1)
      | d :: tail =>
        match lx.escape? quote d with
        | some e =>
          let p := literal lx quote tail
          (e :: p.1, p.2 + 2)
        | none =>
          -- The backslash stands for itself, so the character behind it may close the literal.
          let p := literal lx quote (d :: tail)
          (c :: p.1, p.2 + 1)
    else
      let p := literal lx quote rest
      (c :: p.1, p.2 + 1)

/-- A plus or minus sign. -/
def isSign (c : CodePoint) : Bool :=
  c = '-' || c = '+'

/-- The rest of a number behind the character `previous`: letters, numerals and points, and signs
    that follow an exponent mark. -/
def numberTail (previous : CodePoint) : Text → Text
  | [] => []
  | c :: rest =>
    if c.isAlnum || c = '.' || (isSign c && (previous = 'e' || previous = 'E')) then
      c :: numberTail c rest
    else []

/-- A character that continues a name. -/
def isNamePart (c : CodePoint) : Bool :=
  c.isAlnum || c = '_' || c = '.'

/-- The character and what follows it start a number. -/
def startsNumber (lx : Lexicon) (c : CodePoint) (rest : Text) : Bool :=
  c.isDigit ||
    (isSign c &&
      match rest with
      | d :: _ => d.isDigit || (lx.signedPoint && d = '.')
      | [] => false)

/-- The character and what follows it start a name. -/
def startsName (lx : Lexicon) (c : CodePoint) (rest : Text) : Bool :=
  c.isLetter || c = '_' ||
    (lx.leadingPoint && c = '.' &&
      match rest with
      | d :: _ => d.isLetter
      | [] => false)

/-- The kind of a word: a keyword, or else a name. -/
def wordKind (w : Text) : Kind κ :=
  match Keyword.ofWord? w with
  | some k => .keyword k
  | none => .ident

/-- The lexeme at the front of the text `c :: rest`. -/
def lexeme (lx : Lexicon) (c : CodePoint) (rest : Text) : Lexeme κ :=
  if (lx.hashComments && c = '#') || (c = '/' && rest.head? = some ('/' : CodePoint)) then
    ⟨c :: rest.takeWhile (· != '\n'), .lineComment⟩
  else if c = '/' && rest.head? = some ('*' : CodePoint) then
    let body := blockBody (rest.drop 1)
    ⟨c :: rest.take (1 + body.length + 2), .blockComment body⟩
  else
    match Delimiter.ofCodePoint? c with
    | some d => ⟨[c], .token (.delimiter d) [c]⟩
    | none =>
      if c = '"' ∨ c = '\'' then
        let (value, n) := lx.literal c rest
        ⟨c :: rest.take n, .token .string value⟩
      else if lx.startsNumber c rest then
        let number := c :: numberTail c rest
        ⟨number, .token .number number⟩
      else if lx.startsName c rest then
        let word := c :: rest.takeWhile isNamePart
        ⟨word, .token (wordKind word) word⟩
      else ⟨[c], .gap⟩

/-- The lexemes of a text behind its first `skip` characters, which belong to a lexeme before
    them. -/
def lexemesFrom (lx : Lexicon) : (skip : Nat) → Text → List (Lexeme κ)
  | _, [] => []
  | skip + 1, _ :: rest => lexemesFrom lx skip rest
  | 0, c :: rest =>
    let l := lx.lexeme c rest
    l :: lexemesFrom lx (l.raw.length - 1) rest

/-- The lexemes of a text. -/
def lexemes (lx : Lexicon) (t : Text) : List (Lexeme κ) :=
  lx.lexemesFrom 0 t

/-- The place behind a lexeme that starts at `p`. The marks of a block comment count as its last
    two columns. -/
def after (lx : Lexicon) (p : Position) (l : Lexeme κ) : Position :=
  match l.role with
  | .gap => p.walk l.raw
  | .lineComment => p.along l.raw.length
  | .blockComment body => (p.walk body).along 2
  | .token .string _ => if lx.linesInLiterals then p.walk l.raw else p.along l.raw.length
  | .token _ _ => p.along l.raw.length

/-- Places the tokens and hands them their comments. `last` is the token before the lexemes, which
    may still get a trailing comment; `waiting` are the comments for the next token. -/
def place (lx : Lexicon) (last : Option (Token κ)) (waiting : List Text) (p : Position) :
    List (Lexeme κ) → List (Token κ)
  | [] => last.toList ++ [{ kind := .eof, value := [], pos := p }]
  | l :: rest =>
    let next := lx.after p l
    match l.role with
    | .gap => place lx last waiting next rest
    | .token kind value =>
      last.toList ++
        place lx (some { kind, value, pos := p, comment := Text.join "\n" waiting }) [] next rest
    | _ =>
      match last with
      | some t =>
        if t.pos.line = p.line ∧ waiting = [] then
          -- The later of two trailing comments replaces the earlier one.
          place lx (some { t with trailing := l.raw }) [] next rest
        else place lx last (waiting ++ [l.raw]) next rest
      | none => place lx none (waiting ++ [l.raw]) next rest

/-- The tokens of a text, closed by the token for its end. -/
def tokens (lx : Lexicon) (t : Text) : List (Token κ) :=
  lx.place none [] .start (lx.lexemes t)

end Lexicon

end IdlBridge.Idl
