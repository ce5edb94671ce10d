import IdlBridge.Text.Alphabet
import IdlBridge.Text.CaseMap

/-! # Lower case and capitals

    Case mappings of whole texts over all of Unicode. Two of them depend on more than the code
    point: the capital dotted I becomes two code points, and a capital sigma becomes a final sigma
    where a cased letter precedes it and none follows it, case-ignorable signs aside.
-/

namespace IdlBridge

namespace Charset

/-- The image of `n` under the first run that covers it. -/
def runImage? (runs : List (Nat × Nat × Nat × Nat)) (n : Nat) : Option Nat :=
  (runs.find? fun r => r.1 ≤ n && n ≤ r.2.1 && (n - r.1) % r.2.2.1 == 0).map
    fun r => r.2.2.2 + (n - r.1)

end Charset

namespace CodePoint

open Charset

/-- A letter that takes part in case, and is not case-ignorable. -/
def isCased (c : CodePoint) : Bool :=
  c.isAsciiLetter || (0x80 ≤ c.toNat && covers cased c.toNat)

/-- A sign that is looked through when the neighbours of a letter are examined. -/
def isCaseIgnorable (c : CodePoint) : Bool :=
  c = '\'' || c = '.' || c = ':' || c = '^' || c = '`' ||
    (0x80 ≤ c.toNat && covers caseIgnorable c.toNat)

/-- Lower case, the capital sigma apart. -/
def lower (c : CodePoint) : Text :=
  if c.toNat < 0x80 then [c.lowerAscii]
  else if c.toNat = 0x130 then [ofNat 0x69, ofNat 0x307]
  else
    match runImage? lowerRuns c.toNat with
    | some n => [ofNat n]
    | none => [c]

/-- Title case. -/
def title (c : CodePoint) : Text :=
  if c.toNat < 0x80 then [c.upperAscii]
  else
    match titleExpansions.find? (·.1 = c.toNat) with
    | some (_, image) => image.map ofNat
    | none =>
      match runImage? titleRuns c.toNat with
      | some n => [ofNat n]
      | none => [c]

end CodePoint

namespace Text

/-- The nearest code point that is not case-ignorable is a cased letter. -/
def leadsToCased (t : Text) : Bool :=
  match t.dropWhile CodePoint.isCaseIgnorable with
  | c :: _ => c.isCased
  | [] => false

/-- Lower case of a text whose part before it, nearest first, is `before`. -/
def lowerAfter (before : Text) : Text → Text
  | [] => []
  | c :: rest =>
    let image :=
      if c.toNat = 0x3A3 then
        if leadsToCased before && !leadsToCased rest then [CodePoint.ofNat 0x3C2]
        else [CodePoint.ofNat 0x3C3]
      else c.lower
    image ++ lowerAfter (c :: before) rest

/-- Lower case of a text. -/
def lower (t : Text) : Text :=
  lowerAfter [] t

/-- The first code point in title case, the others in lower case. -/
def capitalize (t : Text) : Text :=
  match t with
  | [] => []
  | c :: rest => c.title ++ lowerAfter [c] rest

end Text

end IdlBridge
