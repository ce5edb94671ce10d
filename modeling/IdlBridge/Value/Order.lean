import IdlBridge.Value.Basic

/-! # Equality and order of data

    Two pieces of data are the *same* when their scalars are the same keys, their sequences agree
    item by item, and their mappings agree entry by entry in any order.

    Data of one kind is ordered: texts by their code points, numbers and truth values by what they
    count, days and times by the calendar, sequences by their first difference. Data of different
    kinds has no order, and neither have mappings, sets and null.
-/

namespace IdlBridge

namespace Value

/-- Equality of data. -/
def same : Value → Value → Bool
  | .list xs, .list ys => sameItems xs ys
  | .pair a b, .pair c d => same a c && same b d
  | .map es, .map fs => es.length = fs.length && sameEntries es fs
  | .set xs, .set ys => xs.length = ys.length && sameMembers xs ys
  | a, b => a.sameKey b
where
  sameItems : List Value → List Value → Bool
    | [], [] => true
    | x :: xs, y :: ys => same x y && sameItems xs ys
    | _, _ => false
  sameEntries : List (Value × Value) → List (Value × Value) → Bool
    | [], _ => true
    | (k, v) :: rest, fs => fs.any (fun f => k.sameKey f.1 && same v f.2) && sameEntries rest fs
  sameMembers : List Value → List Value → Bool
    | [], _ => true
    | x :: rest, ys => ys.any (x.sameKey ·) && sameMembers rest ys

/-- The data is not a number. -/
def isNaN : Value → Bool
  | .float .nan => true
  | _ => false

/-- Equality of data where the two are compared with each other: what is not a number is the same
    key as itself, but equal to nothing. -/
def equals (a b : Value) : Bool :=
  a.same b && !b.isNaN

/-- Lies beyond all floating-point numbers. -/
def beyondFloats : Int := Nat.pow 2 1100

/-- The value of a number or a truth value as a ratio; infinities lie beyond all floating-point
    numbers. -/
def ratio? : Value → Option (Int × Nat)
  | .bool b => some (if b then 1 else 0, 1)
  | .int i => some (i, 1)
  | .float (.infinite negative) => some (if negative then -beyondFloats else beyondFloats, 1)
  | .float x => x.ratio?
  | _ => none

/-- The first value comes before the second; `none` if they have no order. -/
def less? : Value → Value → Option Bool
  | .text s, .text t => some (decide (s < t))
  | .date s, .date t => some (s.dayNumber < t.dayNumber)
  | .timestamp s, .timestamp t =>
    match s.offset, t.offset with
    | none, none => some (s.clock < t.clock)
    | some a, some b => some (s.clock - a * 60000000 < t.clock - b * 60000000)
    | _, _ => none
  | .bytes s, .bytes t => some (decide (s < t))
  | .list xs, .list ys => lessItems? xs ys
  | a, b =>
    match a.ratio?, b.ratio? with
    | some (m, d), some (n, e) => some (m * e < n * d)
    | _, _ => none
where
  lessItems? : List Value → List Value → Option Bool
    | [], ys => some (!ys.isEmpty)
    | _ :: _, [] => some false
    | x :: xs, y :: ys => if same x y then lessItems? xs ys else less? x y

/-- All values have an order with each other. -/
def allOrdered : List Value → Bool
  | [] => true
  | v :: rest => rest.all (fun w => (less? v w).isSome) && allOrdered rest

/-- The first value does not come behind the second. -/
def notAfter (a b : Value) : Bool :=
  (less? b a) ≠ some true

/-- Sorts by values; there is no sorted list if two of the values have no order. -/
def sortBy? {α : Type} (key : α → Value) (xs : List α) : Option (List α) :=
  if allOrdered (xs.map key) then some (xs.mergeSort fun a b => notAfter (key a) (key b)) else none

end Value

end IdlBridge
