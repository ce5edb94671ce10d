import IdlBridge.Decimal.Binary64
import IdlBridge.Text.Basic

/-! # The shortest decimal text of a binary number

    The digits written for a binary number are the fewest that read back as the same number, and of
    several such the nearest to it. They are found by exact arithmetic: the reals that round to
    `m · 2 ^ q` form an interval around it (ends included iff `m` is even), and for 1, 2, … 17
    digits the two neighbours of the value on that decimal grid are tested against the interval.

    `NumberLayout` holds every decision on how the digits are then laid out.
-/

namespace IdlBridge

namespace Binary64

/-- The reals that round to `m · 2 ^ q`, in units of `2 ^ (q - 2)`: the two ends. Below a power of
    two the grid is twice as fine, so there the lower half is narrower. -/
def roundingEnds (m : Nat) (q : Int) : Nat × Nat :=
  if m = Nat.pow 2 52 ∧ leastExponent < q then (4 * m - 1, 4 * m + 2) else (4 * m - 2, 4 * m + 2)

/-- `c · 10 ^ j` rounds to `m · 2 ^ q`. -/
def readsBack (m : Nat) (q : Int) (c : Nat) (j : Int) : Bool :=
  let (lo, hi) := roundingEnds m q
  let (n, d) := unscale 2 (2 - q) 1 1
  let (n, d) := unscale 10 j n d
  if m % 2 = 0 then lo * n ≤ c * d && c * d ≤ hi * n else lo * n < c * d && c * d < hi * n

/-- The greatest `k` with `10 ^ k ≤ num / den`, for a positive ratio. -/
def floorLog10 (num den : Nat) : Int :=
  let guess := floorLog2 num den * 30103 / 100000
  let (n, d) := unscale 10 guess num den
  -- The guess from the binary exponent is off by one at most.
  if n < d then guess - 1
  else if 10 * d ≤ n then guess + 1
  else guess

/-- The neighbour of the value on the grid of `10 ^ j` that reads back and is nearest to it. -/
def nearestOnGrid? (m : Nat) (q j : Int) : Option Nat :=
  let (n, d) := unscale 2 (-q) m 1
  let (n, d) := unscale 10 j n d
  let below := n / d
  let rest := n % d
  -- `below` and the number after it are the neighbours of the value on the grid.
  let lowFits := readsBack m q below j
  let highFits := rest != 0 && readsBack m q (below + 1) j
  match lowFits, highFits with
  | true, true =>
    -- The nearer of the two, and the even one where the value lies half way between them.
    some (if d < 2 * rest ∨ (2 * rest = d ∧ below % 2 = 1) then below + 1 else below)
  | true, false => some below
  | false, true => some (below + 1)
  | false, false => none

/-- Searches the grids of `17 - more`, … 17 digits, `k` being the exponent of the first digit. -/
def searchGrids (m : Nat) (q k : Int) : Nat → Nat × Int
  | 0 => ((nearestOnGrid? m q (k - 16)).getD 0, k - 16)
  | more + 1 =>
    let j := k - 16 + (more + 1)
    match nearestOnGrid? m q j with
    | some c => (c, j)
    | none => searchGrids m q k more

/-- The digits `c` and the exponent `j` of the shortest decimal `c · 10 ^ j` for `m · 2 ^ q`. -/
def shortest (m : Nat) (q : Int) : Nat × Int :=
  let (n, d) := unscale 2 (-q) m 1
  searchGrids m q (floorLog10 n d) 16

end Binary64

/-- How digits become text: the decimal exponents that are written positionally, whether the
    exponent form has a fraction even when it has one digit, and the texts of the values that are
    no numbers. -/
structure NumberLayout where
  leastPositional : Int
  greatestPositional : Int
  fractionBeforeExponent : Bool
  nan : Text
  infinity : Text

namespace NumberLayout

/-- Numbers are positional from `10 ^ -4` up to below `10 ^ 16`. -/
def plain : NumberLayout := ⟨-4, 15, false, "nan", "inf"⟩

/-- Data strings spell the values that are no numbers in full. -/
def data : NumberLayout := { plain with nan := "NaN", infinity := "Infinity" }

/-- Documents need a point in every float and a point before the special words. -/
def document : NumberLayout := ⟨-4, 15, true, ".nan", ".inf"⟩

/-- Lays out digits whose first one stands for a multiple of `10 ^ e`. -/
def render (layout : NumberLayout) (digits : Text) (e : Int) : Text :=
  if layout.leastPositional ≤ e ∧ e ≤ layout.greatestPositional then
    match e with
    | .ofNat n =>
      if digits.length ≤ n + 1 then
        digits ++ List.replicate (n + 1 - digits.length) ('0' : CodePoint) ++ ".0"
      else digits.take (n + 1) ++ "." ++ digits.drop (n + 1)
    | .negSucc n => "0." ++ List.replicate n ('0' : CodePoint) ++ digits
  else
    let tail : Text :=
      if digits.length ≤ 1 then (if layout.fractionBeforeExponent then ".0" else "")
      else "." ++ digits.drop 1
    let mark : Text := if e < 0 then "e-" else "e+"
    digits.take 1 ++ tail ++ mark ++ Text.padZeros 2 (Text.ofNat e.natAbs)

end NumberLayout

/-- The text of a number in a layout. -/
def Binary64.toText (layout : NumberLayout) : Binary64 → Text
  | .nan => layout.nan
  | .infinite negative => (if negative then "-" else "") ++ layout.infinity
  | .finite negative m q =>
    let sign : Text := if negative then "-" else ""
    if m = 0 then sign ++ layout.render "0" 0
    else
      let (c, j) := Binary64.shortest m q
      let digits := Text.ofNat c
      let e := j + digits.length - 1
      sign ++ layout.render (Text.dropEndWhile (· == '0') digits) e

end IdlBridge
