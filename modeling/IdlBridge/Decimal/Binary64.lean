/-! # Binary floating-point numbers

    A number of the 64-bit binary format is `± m · 2 ^ q` with a significand below `2 ^ 53` and an
    exponent between `-1074` and `971`, or an infinity, or not a number. The values built here are
    canonical: the significand is at least `2 ^ 52` unless the exponent is the least one. So two
    finite values are equal as data exactly when they are the same number with the same sign.

    All arithmetic is done on exact ratios of natural numbers and rounded once, to the nearest
    value and on a tie to the even significand (`ofRatio`).
-/

namespace IdlBridge

/-- A number of the 64-bit binary floating-point format. -/
inductive Binary64 where
  /-- The number `± significand · 2 ^ exponent`. -/
  | finite (negative : Bool) (significand : Nat) (exponent : Int)
  | infinite (negative : Bool)
  | nan
deriving DecidableEq

namespace Binary64

/-- The exponent of the finest grid. -/
def leastExponent : Int := -1074

/-- The largest exponent of a finite number. -/
def greatestExponent : Int := 971

/-- Zero with a sign. -/
def zero (negative : Bool) : Binary64 :=
  .finite negative 0 leastExponent

/-- The quotient rounded to the nearest natural number, a half to the even neighbour. -/
def roundDiv (num den : Nat) : Nat :=
  let floor := num / den
  let rest := num % den
  if den < 2 * rest ∨ (2 * rest = den ∧ floor % 2 = 1) then floor + 1 else floor

/-- The ratio `num / den` divided by `base ^ e`, again as a ratio. -/
def unscale (base : Nat) (e : Int) (num den : Nat) : Nat × Nat :=
  match e with
  | .ofNat n => (num, den * Nat.pow base n)
  | .negSucc n => (num * Nat.pow base (n + 1), den)

/-- The greatest `e` with `2 ^ e ≤ num / den`, for a positive ratio. -/
def floorLog2 (num den : Nat) : Int :=
  let guess : Int := (num.log2 : Int) - (den.log2 : Int)
  let (n, d) := unscale 2 guess num den
  if d ≤ n then guess else guess - 1

/-- The number nearest to `± num / den`. -/
def ofRatio (negative : Bool) (num den : Nat) : Binary64 :=
  if num = 0 then zero negative
  else
    let q := max (floorLog2 num den - 52) leastExponent
    let (n, d) := unscale 2 q num den
    let m := roundDiv n d
    let (m, q) := if m = Nat.pow 2 53 then (Nat.pow 2 52, q + 1) else (m, q)
    if greatestExponent < q then .infinite negative else .finite negative m q

/-- The number nearest to `± digits · 10 ^ e`. A power of ten beyond the range of the format is not
    computed: the answer is known from the number of digits. -/
def ofDecimal (negative : Bool) (digits : Nat) (e : Int) : Binary64 :=
  if digits = 0 then zero negative
  else
    let magnitude := e + (Nat.toDigits 10 digits).length
    if 400 < magnitude then .infinite negative
    else if magnitude < -400 then zero negative
    else
      let (n, d) := unscale 10 (-e) digits 1
      ofRatio negative n d

/-- The number nearest to an integer. -/
def ofInt (i : Int) : Binary64 :=
  ofRatio (i < 0) i.natAbs 1

/-- The sign, set for negative zero too. -/
def isNegative : Binary64 → Bool
  | .finite negative _ _ => negative
  | .infinite negative => negative
  | .nan => false

/-- The number with the other sign. -/
def neg : Binary64 → Binary64
  | .finite negative m q => .finite (!negative) m q
  | .infinite negative => .infinite (!negative)
  | .nan => .nan

/-- The exact value of a finite number as a ratio with a signed numerator. -/
def ratio? : Binary64 → Option (Int × Nat)
  | .finite negative m q =>
    let (n, d) := unscale 2 (-q) m 1
    some (if negative then -(n : Int) else n, d)
  | _ => none

/-- The integer that equals the number, if there is one. -/
def toInt? (x : Binary64) : Option Int :=
  match x.ratio? with
  | some (n, d) => if n % d = 0 then some (n / d) else none
  | none => none

/-- The sum, rounded. An exact zero is negative only if both terms are. -/
def add (x y : Binary64) : Binary64 :=
  match x.ratio?, y.ratio? with
  | some (a, b), some (c, d) =>
    let n := a * d + c * b
    if n = 0 then zero (x.isNegative && y.isNegative)
    else ofRatio (n < 0) n.natAbs (b * d)
  | none, some _ => x
  | some _, none => y
  | none, none => if x = y then x else .nan

/-- The product, rounded. -/
def mul (x y : Binary64) : Binary64 :=
  let negative := x.isNegative != y.isNegative
  match x.ratio?, y.ratio? with
  | some (a, b), some (c, d) => ofRatio negative (a.natAbs * c.natAbs) (b * d)
  | _, _ =>
    if x = .nan ∨ y = .nan ∨ x.toInt? = some 0 ∨ y.toInt? = some 0 then .nan
    else .infinite negative

end Binary64

end IdlBridge
