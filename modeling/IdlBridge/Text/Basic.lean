/-! # Text as a list of code points

    Every text of the library, source files and documents alike, is a list of code points. A code
    point is any number below `0x110000`, surrogates included: escapes such as `"\uD83D"` in a
    document put a lone surrogate into a text, and it has to survive until the text is written
    out again, so core's `Char` is too small a type.

    Literals are written as core strings and characters and coerced: `"type" : Text`,
    `'{' : CodePoint`. Both coercions reduce by evaluation, so equalities of literals are closed
    by `rfl` or `decide`.
-/

namespace IdlBridge

/-- A Unicode code point, surrogates included. -/
structure CodePoint where
  toNat : Nat
  isLt : toNat < 0x110000
deriving DecidableEq

namespace CodePoint

/-- The code point of a character. -/
def ofChar (c : Char) : CodePoint :=
  ⟨c.toNat, by
    have h : c.toNat = c.val.toNat := rfl
    rcases c.valid with hc | hc <;> omega⟩

instance : Coe Char CodePoint := ⟨ofChar⟩

/-- The replacement character, which stands for a number that is no code point. -/
def replacement : CodePoint := ⟨0xFFFD, by decide⟩

instance : Inhabited CodePoint := ⟨replacement⟩

/-- The code point of a number, if there is one. -/
def ofNat? (n : Nat) : Option CodePoint :=
  if h : n < 0x110000 then some ⟨n, h⟩ else none

/-- The code point of a number, and `replacement` where there is none. -/
def ofNat (n : Nat) : CodePoint :=
  (ofNat? n).getD replacement

instance : LT CodePoint := ⟨fun a b => a.toNat < b.toNat⟩
instance : LE CodePoint := ⟨fun a b => a.toNat ≤ b.toNat⟩

instance (a b : CodePoint) : Decidable (a < b) := inferInstanceAs (Decidable (a.toNat < b.toNat))
instance (a b : CodePoint) : Decidable (a ≤ b) := inferInstanceAs (Decidable (a.toNat ≤ b.toNat))

/-- The code point lies between two others, ends included. -/
def within (c lo hi : CodePoint) : Bool :=
  lo.toNat ≤ c.toNat && c.toNat ≤ hi.toNat

end CodePoint

/-- A text: its code points in order. -/
abbrev Text := List CodePoint

namespace Text

/-- The text of a core string. -/
def ofString (s : String) : Text :=
  s.toList.map CodePoint.ofChar

instance : Coe String Text := ⟨ofString⟩

/-- Texts that compare as equal are equal. -/
instance : LawfulBEq Text := List.instLawfulBEq

/-- Texts are ordered by their first different code point, a shorter one before its extensions. -/
def le (a b : Text) : Bool :=
  !decide (b < a)

/-! ## Cutting and joining -/

/-- The parts, one after the other, with `sep` between neighbours. -/
def join (sep : Text) (parts : List Text) : Text :=
  List.intercalate sep parts

/-- The parts of a text between the occurrences of `c`; there is always at least one. -/
def splitOn (c : CodePoint) (t : Text) : List Text :=
  List.splitOn c t

/-- The lines of a text, cut at each line feed. -/
def lines (t : Text) : List Text :=
  splitOn '\n' t

/-- The text starts with `p`. -/
def startsWith (t p : Text) : Bool :=
  p.isPrefixOf t

/-- The text ends with `p`. -/
def endsWith (t p : Text) : Bool :=
  p.isSuffixOf t

/-- Drops the `c`s in front of a text. -/
def dropLeading (c : CodePoint) (t : Text) : Text :=
  t.dropWhile (· == c)

/-- Drops the longest end whose code points all satisfy `p`. -/
def dropEndWhile (p : CodePoint → Bool) (t : Text) : Text :=
  (t.reverse.dropWhile p).reverse

/-- Drops code points that satisfy `p` from both ends. -/
def trim (p : CodePoint → Bool) (t : Text) : Text :=
  dropEndWhile p (t.dropWhile p)

/-- What follows the last `c`; the whole text where there is none. -/
def afterLast (c : CodePoint) (t : Text) : Text :=
  (t.reverse.takeWhile (· != c)).reverse

/-- What precedes and what follows the first `c`, if there is one. -/
def cut? (c : CodePoint) (t : Text) : Option (Text × Text) :=
  if c ∈ t then some (t.takeWhile (· != c), (t.dropWhile (· != c)).drop 1) else none

/-- Puts `new` in the place of each `old`. -/
def replaceChar (old : CodePoint) (new : Text) (t : Text) : Text :=
  t.flatMap fun c => if c = old then new else [c]

/-- Puts `new` in the place of each pair `a b`, from the left. -/
def replacePair (a b : CodePoint) (new : Text) : Text → Text
  | x :: y :: rest =>
    if x = a ∧ y = b then new ++ replacePair a b new rest
    else x :: replacePair a b new (y :: rest)
  | t => t

/-- The text occurs somewhere in `t`. -/
def occursIn (part : Text) : Text → Bool
  | [] => part.isEmpty
  | x :: rest => part.isPrefixOf (x :: rest) || occursIn part rest

/-- Adds a text to others unless it is one of them. -/
def insertNew (ts : List Text) (t : Text) : List Text :=
  if t ∈ ts then ts else ts ++ [t]

/-- `n` spaces. -/
def spaces (n : Nat) : Text :=
  List.replicate n ' '

/-! ## Numbers in decimal and hexadecimal -/

/-- The decimal digits of a natural number. -/
def ofNat (n : Nat) : Text :=
  (Nat.toDigits 10 n).map CodePoint.ofChar

/-- The decimal digits of an integer, after a minus sign if it is negative. -/
def ofInt : Int → Text
  | .ofNat n => ofNat n
  | .negSucc n => '-' :: ofNat (n + 1)

/-- The text, filled with zeros at its front up to `width`. -/
def padZeros (width : Nat) (t : Text) : Text :=
  List.replicate (width - t.length) ('0' : CodePoint) ++ t

/-- Lower-case hexadecimal digits, at least `width` of them. -/
def hex (width n : Nat) : Text :=
  padZeros width ((Nat.toDigits 16 n).map CodePoint.ofChar)

end Text

end IdlBridge
