import IdlBridge.Text.Basic

/-! # Tables keyed by text

    A table is a list of entries in the order in which their keys were first given. A key given
    again replaces the value in its place.
-/

namespace IdlBridge

/-- A table with texts as keys. -/
abbrev Table (α : Type) := List (Text × α)

namespace Table

variable {α : Type}

/-- The value of a key. -/
def get? (t : Table α) (k : Text) : Option α :=
  (t.find? fun e => e.1 = k).map (·.2)

/-- The table has the key. -/
def has (t : Table α) (k : Text) : Bool :=
  t.any fun e => e.1 = k

/-- Gives a key a value: in its place where the key is there, else at the end. -/
def insert : Table α → Text → α → Table α
  | [], k, v => [(k, v)]
  | (k', v') :: rest, k, v => if k' = k then (k', v) :: rest else (k', v') :: insert rest k v

/-- Gives a key a value unless it has one. -/
def insertNew (t : Table α) (k : Text) (v : α) : Table α :=
  if has t k then t else t ++ [(k, v)]

/-- Gives keys their values one after the other. -/
def insertAll (t : Table α) (new : List (Text × α)) : Table α :=
  new.foldl (fun t e => insert t e.1 e.2) t

/-- The keys in order. -/
def keys (t : Table α) : List Text :=
  t.map (·.1)

/-- The values in the order of their keys. -/
def values (t : Table α) : List α :=
  t.map (·.2)

/-- The entries in the order of their keys as texts. -/
def sort (t : Table α) : Table α :=
  t.mergeSort fun a b => Text.le a.1 b.1

end Table

end IdlBridge
