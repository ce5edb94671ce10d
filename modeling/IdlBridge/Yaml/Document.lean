import IdlBridge.Decimal.Reading
import IdlBridge.Text.Base64
import IdlBridge.Text.Case
import IdlBridge.Value.Loaded
import IdlBridge.Yaml.Node

/-! # Documents as data

    The data that a node stands for. The value of the key `<<` is merged into the mapping: its
    entries come before the mapping's own, which win over them. A mapping keeps the mark of its
    node.

    Where a document has several faults, the one at the least depth counts, and of those the first:
    a `Late` fault carries the depth, and `both` keeps the one that counts.
-/

namespace IdlBridge.Yaml

/-! ## Scalars -/

namespace Node

/-- The text of a node that has to be a scalar. A mapping stands for the value of its key `=`. -/
def text? : Node → Option Text
  | .scalar _ t => some t
  | .sequence _ _ => none
  | .mapping _ entries _ => default? entries
where
  default? : List (Node × Node) → Option Text
    | [] => none
    | (k, v) :: rest => if k.tag = .value then v.text? else default? rest

/-- The words for truth values. -/
def truthWords : List (Text × Bool) :=
  [("yes", true), ("no", false), ("true", true), ("false", false), ("on", true), ("off", false)]

/-- The truth value of a word. -/
def bool? (t : Text) : Option Value :=
  let word := Text.lower t
  (truthWords.find? fun e => e.1 = word).map fun e => .bool e.2

/-- The value of the parts of a number in base sixty, the least one first. -/
def sixtieths : List Int → Int
  | [] => 0
  | d :: ds => d + 60 * sixtieths ds

/-- The parts of a number in base sixty, read one by one. -/
def parts? {α : Type} (read : Text → Option α) (t : Text) : Option (List α) :=
  (Text.splitOn ':' t).mapM read

/-- A number without a sign. -/
def natural? (t : Text) : Option Int :=
  if t = [] then none
  else if t = "0" then some 0
  else if Text.startsWith t "0b" then Numeral.intInBase? 2 (t.drop 2)
  else if Text.startsWith t "0x" then Numeral.intInBase? 16 (t.drop 2)
  else if Text.startsWith t "0" then Numeral.intInBase? 8 t
  else if t.contains ':' then
    (parts? Numeral.decimalInt? t).map fun ds => sixtieths ds.reverse
  else Numeral.decimalInt? t

/-- A text without its underscores. -/
def unspaced (t : Text) : Text :=
  Text.replaceChar '_' [] t

/-- A whole number. Underscores are dropped before it is read. -/
def int? (t : Text) : Option Value :=
  let (negative, body) := Numeral.sign (unspaced t)
  (natural? body).map fun n => .int (if negative then -n else n)

/-- Adds up the parts of a number with a point in base sixty, the least one first. There is no
    such number with a base beyond the range of floating-point numbers. -/
def sumSixtieths : List Binary64 → (base : Nat) → Binary64 → Option Binary64
  | [], _, sum => some sum
  | d :: ds, base, sum =>
    match Binary64.ofInt base with
    | .infinite _ => none
    | b => sumSixtieths ds (base * 60) (sum.add (d.mul b))

/-- A number with a point, without a sign. -/
def fraction? (t : Text) : Option Binary64 :=
  if t = ".inf" then some (.infinite false)
  else if t.contains ':' then
    (parts? Numeral.float? t).bind fun ds => sumSixtieths ds.reverse 1 (Binary64.zero false)
  else Numeral.float? t

/-- A number with a point. Underscores are dropped before it is read. -/
def float? (t : Text) : Option Value :=
  let plain := unspaced t
  let (negative, body) := Numeral.sign (Text.lower plain)
  if plain = [] then none
  else if body = ".nan" then some (.float .nan)
  else (fraction? body).map fun x => .float (if negative then x.neg else x)

/-- The microseconds of the digits behind a point; only six of them count. -/
def microseconds (t : Text) : Nat :=
  let ds := t.take 6
  Text.decimalValue (ds ++ List.replicate (6 - ds.length) ('0' : CodePoint))

/-- A day, or a time of a day. -/
def timestamp? (t : Text) : Option Value := do
  let d ← TimeDigits.ofText? (Tag.withoutFinalBreak t)
  let date : Date := ⟨d.year.decimalValue, d.month.decimalValue, d.day.decimalValue⟩
  match d.clock with
  | none => if date.isValid then return .date date else none
  | some (hour, minute, second, fraction) =>
    let offset := d.zone.map fun (negative, hours, minutes) =>
      let m : Int := Text.decimalValue hours * 60 + Text.decimalValue minutes
      if negative then -m else m
    let time : Timestamp :=
      ⟨date, Text.decimalValue hour, Text.decimalValue minute, Text.decimalValue second,
        microseconds fraction, offset⟩
    if time.isValid then return .timestamp time else none

/-- The data of a text that has to be read; what cannot be read is impossible. -/
def readAs (what : Impossible) (v : Option Value) : Except Fault Value :=
  match v with
  | some v => .ok v
  | none => .error (.impossible what)

/-- The octets of a text in base 64. -/
def binary (t : Text) : Except Fault Value :=
  if t.all fun c => c.toNat < 0x80 then
    match Base64.decode? t with
    | some octets => .ok (.bytes octets)
    | none => .error (.malformed .badBinary)
  else .error (.malformed .badBinary)

/-- A point in time. It cannot be the default of a mapping. -/
def pointInTime (n : Node) (t : Text) : Except Fault Value :=
  match n with
  | .scalar _ _ => readAs .timestamp (timestamp? t)
  | _ => .error (.impossible .timestamp)

/-- The data of a node whose tag makes it a scalar. -/
def scalarValue (n : Node) : Except Fault Value :=
  match n.text? with
  | none => .error (.malformed .wrongNodeKind)
  | some t =>
    match n.tag with
    | .null => .ok .null
    | .bool => readAs .truthValue (bool? t)
    | .int => readAs .number (int? t)
    | .float => readAs .number (float? t)
    | .binary => binary t
    | .timestamp => pointInTime n t
    | _ => .ok (.text t)

/-! ## Merging -/

/-- The entries of a mapping with the values of its merge keys put before them. -/
def flatten : (bound : Nat) → List (Node × Node) → Option (List (Node × Node))
  | 0, _ => none
  | bound + 1, entries => do
    let merged ← (entries.filter fun e => e.1.tag = .merge).mapM fun e => mergedBy bound e.2
    let own := entries.filter fun e => e.1.tag ≠ .merge
    -- A plain `=` is a text where it is a key.
    let plain := own.map fun e =>
      match e.1 with
      | .scalar .value t => (.scalar .str t, e.2)
      | .sequence .value items => (.sequence .str items, e.2)
      | .mapping .value es m => (.mapping .str es m, e.2)
      | k => (k, e.2)
    return merged.flatten ++ plain
  termination_by bound => (bound, 0)
where
  mergedBy (bound : Nat) : Node → Option (List (Node × Node))
    | .mapping _ es _ => flatten bound es
    | .sequence _ items => do
      let parts ← items.mapM fun
        | .mapping _ es _ => flatten bound es
        | _ => none
      return parts.reverse.flatten
    | .scalar _ _ => none
  termination_by (bound, 1)

end Node

/-! ## Faults by depth -/

/-- A fault and the depth at which it is found. -/
structure Late where
  depth : Nat
  fault : Fault

/-- Two results, or the fault that counts. -/
def both {α β : Type} (a : Except Late α) (b : Except Late β) : Except Late (α × β) :=
  match a, b with
  | .ok x, .ok y => .ok (x, y)
  | .error e, .ok _ => .error e
  | .ok _, .error f => .error f
  | .error e, .error f => .error (if f.depth < e.depth then f else e)

/-- All results, or the fault that counts. -/
def all {α : Type} : List (Except Late α) → Except Late (List α)
  | [] => .ok []
  | a :: rest => (both a (all rest)).map fun (x, xs) => x :: xs

/-! ## Nodes -/

namespace Node

/-- The depth at which the content of a node is looked at, for a node inside a collection that is
    looked at at a depth: scalars at once, collections one step later. -/
def contentDepth (n : Node) (depth : Nat) : Nat :=
  match n.tag with
  | .omap | .pairs | .set | .seq | .map => depth + 1
  | _ => depth

/-- The entries that a mapping node has after merging. -/
def entriesOf (n : Node) (bound : Nat) : Except Fault (List (Node × Node)) :=
  match n with
  | .mapping _ entries _ =>
    match flatten bound entries with
    | some es => .ok es
    | none => .error (.malformed .badMerge)
  | _ => .error (.malformed .wrongNodeKind)

/-- The only entry of a mapping node, as ordered mappings have it. -/
def singleEntry (n : Node) : Except Fault (Node × Node) :=
  match n with
  | .mapping _ [e] _ => .ok e
  | _ => .error (.malformed .wrongNodeKind)

/-- The data of a node inside a collection that is looked at at a depth. -/
def value (bound : Nat) (depth : Nat) (n : Node) : Except Late Loaded :=
  match bound with
  | 0 => .error ⟨depth, .malformed .unexpectedToken⟩
  | bound + 1 =>
    let inner := n.contentDepth depth
    let late {α : Type} (r : Except Fault α) : Except Late α := r.mapError (Late.mk inner)
    match n.tag with
    | .seq =>
      match n with
      | .sequence _ items => (all (items.map (value bound inner))).map .list
      | _ => late (.error (.malformed .wrongNodeKind))
    | .map => do
      let es ← late (n.entriesOf bound)
      let pairs ← all (es.map fun e => both (key bound inner e.1) (value bound inner e.2))
      return .map n.mark? (Value.Entries.ofList pairs)
    | .set => do
      let es ← late (n.entriesOf bound)
      let pairs ← all (es.map fun e => both (key bound inner e.1) (value bound inner e.2))
      return .set ((Value.Entries.ofList pairs).map fun e => .ofValue e.1)
    | .omap | .pairs =>
      match n with
      | .sequence _ items =>
        (all (items.map fun i => do
          let e ← late i.singleEntry
          let (k, v) ← both (value bound inner e.1) (value bound inner e.2)
          return .pair k v)).map .list
      | _ => late (.error (.malformed .wrongNodeKind))
    | .merge | .value | .unknown => late (.error (.malformed .unknownTag))
    | _ => (late n.scalarValue).map .ofValue
termination_by (bound, 0)
where
  /-- The data of a key, which has to be a scalar. -/
  key (bound : Nat) (depth : Nat) (n : Node) : Except Late Value :=
    match n.tag with
    | .seq | .map | .set | .omap | .pairs => .error ⟨depth, .malformed .containerAsKey⟩
    | _ => (value bound depth n).map Loaded.plain
  termination_by (bound, 1)

end Node

/-- The data of a document. An empty one is null. -/
def read (t : Text) : Except Fault Loaded := do
  let lexed := Lexed.ofText t
  match ← Node.ofTokens? lexed with
  | none => return .ofValue .null
  | some n =>
    match n.value (lexed.tokens.length + 2) 0 with
    | .ok v => return v
    | .error e => throw e.fault

end IdlBridge.Yaml
