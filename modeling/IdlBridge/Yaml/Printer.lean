import IdlBridge.Text.Base64
import IdlBridge.Value.Display
import IdlBridge.Yaml.Style

/-! # Writing documents

    Data as the text of a document, in block style: an entry of a mapping and an item of a sequence
    stand on lines of their own, and sequences are indented like mappings. Only empty collections
    are written in brackets. The order of entries is kept.

    A key is simple when it fits on one line of fewer than `simpleKeyLimit` columns, its tag
    included; other keys stand behind a question mark.
-/

namespace IdlBridge.Yaml

/-- A scalar that is written: its tag, its text, and whether it is written as a block if
    possible. -/
structure ScalarNode where
  tag : Tag
  text : Text
  block : Bool

/-- The styles of a scalar. -/
inductive Style where
  | plain
  | singleQuoted
  | doubleQuoted
  | literal
deriving DecidableEq

/-- The columns that a simple key and its tag stay below. -/
def simpleKeyLimit : Nat := 128

namespace ScalarNode

/-- The scalar that data is written as; collections are none. -/
def ofValue? : Value → Option ScalarNode
  | .null => some ⟨.null, "null", false⟩
  | .bool b => some ⟨.bool, if b then "true" else "false", false⟩
  | .int i => some ⟨.int, Text.ofInt i, false⟩
  | .float x => some ⟨.float, x.toText .document, false⟩
  | .text t => some ⟨.str, t, t.contains '\n'⟩
  | .date d => some ⟨.timestamp, d.toText, false⟩
  | .timestamp t => some ⟨.timestamp, t.toText " ", false⟩
  | .bytes octets => some ⟨.binary, Base64.encode octets, true⟩
  | .list _ | .pair _ _ | .map _ | .set _ => none

/-- The tag as it would be written. -/
def tagText (s : ScalarNode) : Text :=
  "!!" ++ ((Tag.names.find? (·.2 = s.tag)).map (·.1)).getD []

/-- The scalar can be a simple key. -/
def isSimpleKey (s : ScalarNode) : Bool :=
  s.tagText.length + s.text.length < simpleKeyLimit && s.text ≠ [] && !(Shape.of s.text).multiline

/-- The style of the scalar. -/
def style (s : ScalarNode) : Style :=
  let shape := Shape.of s.text
  if s.block then (if s.text ≠ [] && shape.allowsBlock then .literal else .doubleQuoted)
  else if Tag.ofPlain s.text = s.tag ∧ shape.allowsPlain then .plain
  else if shape.allowsSingle then .singleQuoted
  else .doubleQuoted

/-- The tag is written: nothing else tells what the scalar stands for. -/
def isTagged (s : ScalarNode) : Bool :=
  s.style ≠ .plain && s.tag ≠ .str

/-- The scalar from a column on, without the line end behind it. A literal block has its own. -/
def write (indent column : Nat) (fold : Bool) (s : ScalarNode) : Text :=
  let mark : Text := if s.isTagged then s.tagText ++ " " else ""
  let column := column + mark.length
  mark ++
    match s.style with
    | .plain => Plain.write indent fold column (runs s.text)
    | .singleQuoted => SingleQuoted.scalar indent column fold s.text
    | .doubleQuoted => DoubleQuoted.scalar indent column fold s.text
    | .literal => Literal.scalar indent s.text

/-- The scalar from a column on, with the line end behind it. -/
def writeLine (indent column : Nat) (s : ScalarNode) : Text :=
  s.write indent column true ++ (if s.style = .literal then "" else "\n")

/-- The scalar ends with a block that keeps all line ends. -/
def endsOpen (s : ScalarNode) : Bool :=
  s.style = .literal && Literal.keepsEnd s.text

end ScalarNode

namespace Printer

/-- The mark of a collection that is no plain sequence or mapping. -/
def tagMark : Value → Text
  | .set _ => " !!set"
  | _ => ""

/-- The brackets of an empty collection. -/
def brackets? : Value → Option Text
  | .list [] => some "[]"
  | .map [] => some "\x7b\x7d"
  | .set [] => some "\x7b\x7d"
  | _ => none

/-- What follows the colon of a simple key: a scalar or brackets on the same line, other collections
    on the next lines. `column` is the column behind the colon, `lines` the lines of the value. -/
def afterColon (indent column : Nat) (v : Value) (lines : Text) : Text :=
  match ScalarNode.ofValue? v with
  | some s => " " ++ s.writeLine (indent + indentStep) (column + 1)
  | none =>
    match brackets? v with
    | some b => tagMark v ++ " " ++ b ++ "\n"
    | none => tagMark v ++ "\n" ++ lines

/-- What follows a dash, a question mark or the colon of a key that is not simple: everything starts
    on the same line, unless the collection has a mark. -/
def afterDash (indent : Nat) (v : Value) (lines : Text) : Text :=
  match ScalarNode.ofValue? v with
  | some s => " " ++ s.writeLine (indent + indentStep) (indent + indentStep)
  | none =>
    match brackets? v with
    | some b => tagMark v ++ " " ++ b ++ "\n"
    | none =>
      if tagMark v = [] then " " ++ lines.drop (indent + indentStep)
      else tagMark v ++ "\n" ++ lines

/-- An entry of a mapping, the lines of its key and its value given. -/
def entry (indent : Nat) (k v : Value) (keyLines valueLines : Text) : Text :=
  let simple := (ScalarNode.ofValue? k).filter ScalarNode.isSimpleKey
  Text.spaces indent ++
    match simple with
    | some s =>
      let name := s.write indent indent false
      name ++ ":" ++ afterColon indent (indent + name.length + 1) v valueLines
    | none =>
      "?" ++ afterDash indent k keyLines ++ Text.spaces indent ++ ":" ++
        afterDash indent v valueLines

/-- An item of a sequence, its lines given. -/
def item (indent : Nat) (v : Value) (lines : Text) : Text :=
  Text.spaces indent ++ "-" ++ afterDash indent v lines

/-- The lines of a collection. -/
def lines (indent : Nat) : Value → Text
  | .list xs => items indent xs
  | .map es => entries indent es
  | .set xs => members indent xs
  | .pair k v =>
    item indent k (lines (indent + indentStep) k) ++ item indent v (lines (indent + indentStep) v)
  | _ => []
where
  items (indent : Nat) : List Value → Text
    | [] => []
    | x :: rest => item indent x (lines (indent + indentStep) x) ++ items indent rest
  entries (indent : Nat) : List (Value × Value) → Text
    | [] => []
    | (k, v) :: rest =>
      entry indent k v (lines (indent + indentStep) k) (lines (indent + indentStep) v) ++
        entries indent rest
  members (indent : Nat) : List Value → Text
    | [] => []
    | x :: rest => entry indent x .null (lines (indent + indentStep) x) [] ++ members indent rest

/-- The last scalar of the data keeps all line ends, so that the end of the document would be read
    as one of them. -/
def endsOpen : Value → Bool
  | .list xs => lastItem xs
  | .map es => lastEntry es
  | .pair _ v => endsOpen v
  | .set _ => false
  | v => ((ScalarNode.ofValue? v).map ScalarNode.endsOpen).getD false
where
  lastItem : List Value → Bool
    | [] => false
    | [x] => endsOpen x
    | _ :: y :: rest => lastItem (y :: rest)
  lastEntry : List (Value × Value) → Bool
    | [] => false
    | [(_, v)] => endsOpen v
    | _ :: e :: rest => lastEntry (e :: rest)

/-- The mark of the end of a document. -/
def endMark : Text := "...\n"

/-- The text of a document. -/
def document (v : Value) : Text :=
  match ScalarNode.ofValue? v with
  | some s =>
    s.writeLine indentStep 0 ++ (if s.style = .plain || s.endsOpen then endMark else "")
  | none =>
    let mark : Text := (tagMark v).drop 1
    match brackets? v with
    | some b =>
      let front : Text := if mark = [] then "" else mark ++ " "
      front ++ b ++ "\n"
    | none =>
      let front : Text := if mark = [] then "" else mark ++ "\n"
      front ++ lines 0 v ++ (if endsOpen v then endMark else "")

end Printer

/-- No integer of the data is too long to be written. -/
def isPrintable : Value → Bool
  | .int i => (Value.intText? i).isSome
  | .list xs => items xs
  | .set xs => items xs
  | .pair k v => isPrintable k && isPrintable v
  | .map es => entries es
  | _ => true
where
  items : List Value → Bool
    | [] => true
    | x :: rest => isPrintable x && items rest
  entries : List (Value × Value) → Bool
    | [] => true
    | (k, v) :: rest => isPrintable k && isPrintable v && entries rest

/-- The comment of a document, line by line. -/
def comment (t : Text) : Text :=
  (Text.lines t).flatMap fun line =>
    if line = [] then ("#\n" : Text) else ("# " : Text) ++ line ++ ("\n" : Text)

/-- The text of a document under a comment; `none` if an integer is too long to be written. -/
def print? (heading : Text) (v : Value) : Option Text :=
  if isPrintable v then some (comment heading ++ "\n" ++ Printer.document v) else none

end IdlBridge.Yaml
