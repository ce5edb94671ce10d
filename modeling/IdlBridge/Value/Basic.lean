import IdlBridge.Decimal.Binary64
import IdlBridge.Text.Basic

/-! # Untyped data

    The data a document holds before anything is known about its shape: the scalars, sequences
    and mappings of the document language. Mappings keep the order in which their keys were first
    given, and a key given again replaces the value in its place. Keys are data too; two keys are
    the same when they are equal as data, and truth values and floating-point numbers count as the
    integers they equal.
-/

namespace IdlBridge

/-- A day of the calendar. -/
structure Date where
  year : Nat
  month : Nat
  day : Nat
deriving DecidableEq

namespace Date

/-- The days of a month. -/
def daysIn (year month : Nat) : Nat :=
  if month = 2 then
    if year % 4 = 0 ∧ (year % 100 ≠ 0 ∨ year % 400 = 0) then 29 else 28
  else if month = 4 ∨ month = 6 ∨ month = 9 ∨ month = 11 then 30
  else 31

/-- The day exists, in a year between 1 and 9999. -/
def isValid (d : Date) : Bool :=
  1 ≤ d.year && d.year ≤ 9999 && 1 ≤ d.month && d.month ≤ 12 && 1 ≤ d.day &&
    d.day ≤ daysIn d.year d.month

/-- The number of days before the date, counted from a fixed day. -/
def dayNumber (d : Date) : Int :=
  let y : Int := (if d.month ≤ 2 then d.year - 1 else d.year : Int)
  let m : Int := (if d.month ≤ 2 then d.month + 9 else d.month - 3 : Int)
  365 * y + y / 4 - y / 100 + y / 400 + (153 * m + 2) / 5 + d.day

end Date

/-- A time of a day, with the distance from universal time in minutes where it is known. -/
structure Timestamp where
  date : Date
  hour : Nat
  minute : Nat
  second : Nat
  micro : Nat
  offset : Option Int
deriving DecidableEq

namespace Timestamp

/-- The time exists, and lies less than a day from universal time. -/
def isValid (t : Timestamp) : Bool :=
  t.date.isValid && t.hour < 24 && t.minute < 60 && t.second < 60 && t.micro < 1000000 &&
    match t.offset with
    | some m => m.natAbs < 1440
    | none => true

/-- The microseconds of the time on its own clock. -/
def clock (t : Timestamp) : Int :=
  (((t.date.dayNumber * 24 + t.hour) * 60 + t.minute) * 60 + t.second) * 1000000 + t.micro

/-- Two times are the same moment. A time without a distance from universal time is never the same
    as one that has it. -/
def sameMoment (s t : Timestamp) : Bool :=
  match s.offset, t.offset with
  | none, none => s.clock = t.clock
  | some a, some b => s.clock - a * 60000000 = t.clock - b * 60000000
  | _, _ => false

end Timestamp

/-- Untyped data. -/
inductive Value where
  | null
  | bool (b : Bool)
  | int (i : Int)
  | float (x : Binary64)
  | text (t : Text)
  | date (d : Date)
  | timestamp (t : Timestamp)
  /-- A string of octets. -/
  | bytes (octets : List Nat)
  | list (items : List Value)
  /-- An entry of an ordered mapping that is kept as a list of entries. -/
  | pair (key value : Value)
  | map (entries : List (Value × Value))
  | set (members : List Value)
deriving Inhabited

namespace Value

/-- The entries of a mapping, whose keys are data. -/
abbrev Entries (α : Type := Value) := List (Value × α)

/-- The number that a truth value, an integer or a floating-point number stands for, as far as it is
    an integer. -/
def asInt? : Value → Option Int
  | .bool b => some (if b then 1 else 0)
  | .int i => some i
  | .float x => x.toInt?
  | _ => none

/-- Two scalars are the same key of a mapping. -/
def sameKey (a b : Value) : Bool :=
  match a, b with
  | .null, .null => true
  | .text s, .text t => s = t
  | .date s, .date t => s = t
  | .timestamp s, .timestamp t => s.sameMoment t
  | .bytes s, .bytes t => s = t
  | .float x, .float y => x = y || (x.toInt?.isSome && x.toInt? = y.toInt?)
  | a, b => a.asInt?.isSome && a.asInt? = b.asInt?

/-- A value that can be a key of a mapping: anything but a sequence, a mapping or a set. -/
def isScalar : Value → Bool
  | .list _ => false
  | .map _ => false
  | .set _ => false
  | .pair k v => k.isScalar && v.isScalar
  | _ => true

/-- The value counts as given: it is not null, false, zero or empty. -/
def isTruthy : Value → Bool
  | .null => false
  | .bool b => b
  | .int i => i ≠ 0
  | .float x => x.toInt? ≠ some 0
  | .text t => !t.isEmpty
  | .bytes bs => !bs.isEmpty
  | .list xs => !xs.isEmpty
  | .map es => !es.isEmpty
  | .set xs => !xs.isEmpty
  | .date _ => true
  | .timestamp _ => true
  | .pair _ _ => true

end Value

namespace Value.Entries

variable {α : Type}

/-- The value of a key. -/
def get? (es : Entries α) (k : Value) : Option α :=
  (es.find? fun e => e.1.sameKey k).map (·.2)

/-- The value of a key is smaller than the entries. -/
theorem sizeOf_lt_of_get? [SizeOf α] {es : Entries α} {k : Value} {v : α} (h : get? es k = some v) :
    sizeOf v < sizeOf es := by
  obtain ⟨e, he, rfl⟩ := Option.map_eq_some_iff.1 h
  have hm := List.sizeOf_lt_of_mem (List.mem_of_find?_eq_some he)
  cases e
  simp at hm ⊢
  omega

/-- Gives a key a value: in the place of the same key where there is one, else at the end. -/
def insert : Entries α → Value → α → Entries α
  | [], k, v => [(k, v)]
  | (k', v') :: rest, k, v =>
    if k'.sameKey k then (k', v) :: rest else (k', v') :: insert rest k v

/-- Gives keys their values one after the other. -/
def insertAll (es new : Entries α) : Entries α :=
  new.foldl (fun es e => insert es e.1 e.2) es

/-- The entries without repeated keys: each key in its first place with its last value. -/
def ofList (es : List (Value × α)) : Entries α :=
  insertAll [] es

end Value.Entries

namespace Value

/-- The value of a text key of a mapping; data that is no mapping has none. -/
def get? (v : Value) (key : Text) : Option Value :=
  match v with
  | .map es => Entries.get? es (.text key)
  | _ => none

end Value

end IdlBridge
