import IdlBridge.Text.Table
import IdlBridge.Value.Display

/-! # Option literals

    The value of an option in a Protocol Buffers file. A mapping is written as a block in braces,
    its entries sorted by key and indented one step deeper than the block.
-/

namespace IdlBridge.Draft

/-- The value of an option. -/
inductive Literal where
  | text (t : Text)
  | bool (b : Bool)
  | int (i : Int)
  | float (x : Binary64)
  | list (items : List Literal)
  | map (entries : List (Text × Literal))

namespace Literal

/-- Why data is no option literal. -/
inductive Misfit where
  /-- Data of this kind has no literal. -/
  | kind (name : Text)
  /-- A key is too long to be written. -/
  | key
deriving DecidableEq

/-- The literal of data. Keys are shown as texts, and the last of equal ones counts. -/
def ofValue : Value → Except Misfit Literal
  | .bool b => .ok (.bool b)
  | .int i => .ok (.int i)
  | .float x => .ok (.float x)
  | .text t => .ok (.text t)
  | .list xs => do return .list (← items xs)
  | .pair a b => do
    let a ← ofValue a
    return .list [a, ← ofValue b]
  | .map es => do return .map (Table.insertAll [] (← entries es))
  | .null => .error (.kind (Value.typeName .null))
  | .date d => .error (.kind (Value.typeName (.date d)))
  | .timestamp t => .error (.kind (Value.typeName (.timestamp t)))
  | .bytes bs => .error (.kind (Value.typeName (.bytes bs)))
  | .set xs => .error (.kind (Value.typeName (.set xs)))
where
  items : List Value → Except Misfit (List Literal)
    | [] => .ok []
    | x :: rest => do
      let x ← ofValue x
      return x :: (← items rest)
  entries : List (Value × Value) → Except Misfit (List (Text × Literal))
    | [] => .ok []
    | (k, v) :: rest => do
      match k.display? with
      | none => throw .key
      | some name =>
        let v ← ofValue v
        return (name, v) :: (← entries rest)

/-- One step of indentation. -/
def step : Text := "  "

/-- The text of a literal; `none` if an integer is too long to be written. -/
def toText? (indent : Text) : Literal → Option Text
  | .text t => some (t.dataString false)
  | .bool b => some (if b then "true" else "false")
  | .int i => Value.intText? i
  | .float x => some (x.toText .plain)
  | .list xs => (items indent xs).map fun ts => "[" ++ Text.join ", " ts ++ "]"
  | .map [] => some "\x7b\x7d"
  | .map (e :: es) =>
    (entries (indent ++ step) (e :: es)).map fun lines =>
      "\x7b\n" ++ Text.join "\n" (Table.sort lines).values ++ "\n" ++ indent ++ "\x7d"
where
  items (indent : Text) : List Literal → Option (List Text)
    | [] => some []
    | x :: rest =>
      match toText? indent x, items indent rest with
      | some t, some ts => some (t :: ts)
      | _, _ => none
  /-- The lines of the entries, each with its key. -/
  entries (indent : Text) : List (Text × Literal) → Option (Table Text)
    | [] => some []
    | (k, v) :: rest =>
      match toText? indent v, entries indent rest with
      | some t, some ts => some ((k, indent ++ k ++ ": " ++ t) :: ts)
      | _, _ => none

end Literal

/-- An option: its name and its value. -/
structure Setting where
  name : Text
  value : Literal

end IdlBridge.Draft
