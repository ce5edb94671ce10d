import IdlBridge.Value.Basic

/-! # Data with shared mappings

    A document can have one mapping at several places: an alias names a node that stands elsewhere,
    and the mapping of the node then lies at both places. What is put into it at one of them is in
    it at the other as well. So loaded data carries marks: two mappings with the same mark are one
    mapping, and a mapping without a mark lies at no other place.

    Keys are data that nothing is put into, and have no marks. A mapping never lies inside itself:
    data that contains itself has no counterpart here.
-/

namespace IdlBridge

/-- The mark of a mapping: the anchor of the node that it belongs to and its place in the node. The
    number of the load tells apart the mappings of documents that are loaded one by one. -/
structure Mark where
  load : Nat
  anchor : Text
  place : List Nat
deriving DecidableEq

/-- The value is neither a collection nor an entry of one. -/
def Value.isAtomic : Value → Bool
  | .list _ | .set _ | .pair _ _ | .map _ => false
  | _ => true

/-- Data as it has been loaded. -/
inductive Loaded where
  | atom (v : Value) (h : v.isAtomic = true)
  | list (items : List Loaded)
  | set (members : List Loaded)
  | pair (key value : Loaded)
  | map (mark : Option Mark) (entries : List (Value × Loaded))

namespace Loaded

/-! ## Data and values -/

/-- The data without its marks. -/
def plain : Loaded → Value
  | .atom v _ => v
  | .list xs => .list (items xs)
  | .set xs => .set (items xs)
  | .pair a b => .pair (plain a) (plain b)
  | .map _ es => .map (entries es)
where
  items : List Loaded → List Value
    | [] => []
    | x :: rest => plain x :: items rest
  entries : List (Value × Loaded) → List (Value × Value)
    | [] => []
    | (k, x) :: rest => (k, plain x) :: entries rest

instance : Coe Loaded Value := ⟨plain⟩

/-- A value as data in which nothing is shared. -/
def ofValue : Value → Loaded
  | .null => .atom .null rfl
  | .bool b => .atom (.bool b) rfl
  | .int i => .atom (.int i) rfl
  | .float x => .atom (.float x) rfl
  | .text t => .atom (.text t) rfl
  | .date d => .atom (.date d) rfl
  | .timestamp t => .atom (.timestamp t) rfl
  | .bytes octets => .atom (.bytes octets) rfl
  | .list xs => .list (items xs)
  | .set xs => .set (items xs)
  | .pair a b => .pair (ofValue a) (ofValue b)
  | .map es => .map none (entries es)
where
  items : List Value → List Loaded
    | [] => []
    | v :: rest => ofValue v :: items rest
  entries : List (Value × Value) → List (Value × Loaded)
    | [] => []
    | (k, v) :: rest => (k, ofValue v) :: entries rest

/-! ## Marks -/

/-- The marks of the mappings of the data, a mark once for each place of its mapping. -/
def marks : Loaded → List Mark
  | .atom _ _ => []
  | .list xs => items xs
  | .set xs => items xs
  | .pair a b => marks a ++ marks b
  | .map m es => m.toList ++ entries es
where
  items : List Loaded → List Mark
    | [] => []
    | x :: rest => marks x ++ items rest
  entries : List (Value × Loaded) → List Mark
    | [] => []
    | (_, x) :: rest => marks x ++ entries rest

/-- The data with its mappings made anew, those inside a mapping before the mapping itself. -/
def rebuild (f : Option Mark → Value.Entries Loaded → Loaded) : Loaded → Loaded
  | .atom v h => .atom v h
  | .list xs => .list (items xs)
  | .set xs => .set (items xs)
  | .pair a b => .pair (rebuild f a) (rebuild f b)
  | .map m es => f m (entries es)
where
  items : List Loaded → List Loaded
    | [] => []
    | x :: rest => rebuild f x :: items rest
  entries : List (Value × Loaded) → Value.Entries Loaded
    | [] => []
    | (k, x) :: rest => (k, rebuild f x) :: entries rest

/-- The data with other marks. -/
def mapMarks (g : Option Mark → Option Mark) : Loaded → Loaded :=
  rebuild fun m es => .map (g m) es

/-- The data with no mapping shared. -/
def unmarked : Loaded → Loaded :=
  mapMarks fun _ => none

/-- The data as that of a later load. -/
def later (loads : Nat) : Loaded → Loaded :=
  mapMarks (Option.map fun m => { m with load := m.load + loads })

/-! ## Shared updates -/

/-- Entries that are put into mappings with marks. -/
abbrev Additions := List (Mark × Value.Entries Loaded)

/-- The entries of a mapping with everything that is put into it. -/
def Additions.fill (as : Additions) (m : Option Mark) (es : Value.Entries Loaded) :
    Value.Entries Loaded :=
  as.foldl (fun es a => if some a.1 = m then es.insertAll a.2 else es) es

/-- The data with everything that is put into its mappings, at each of their places. -/
def refill (as : Additions) : Loaded → Loaded :=
  rebuild fun m es => .map m (as.fill m es)

/-- The places at which a mapping lies: the positions of the parts that lead to it. -/
def places (mark : Mark) : Loaded → List (List Nat)
  | .atom _ _ => []
  | .list xs => items 0 xs
  | .set _ => []
  | .pair a b => (places mark a).map (0 :: ·) ++ (places mark b).map (1 :: ·)
  | .map m es => if m = some mark then [[]] else entries 0 es
where
  items (i : Nat) : List Loaded → List (List Nat)
    | [] => []
    | x :: rest => (places mark x).map (i :: ·) ++ items (i + 1) rest
  entries (i : Nat) : List (Value × Loaded) → List (List Nat)
    | [] => []
    | (_, x) :: rest => (places mark x).map (i :: ·) ++ entries (i + 1) rest

end Loaded

end IdlBridge
