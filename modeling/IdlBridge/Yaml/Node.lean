import IdlBridge.Text.Table
import IdlBridge.Value.Loaded
import IdlBridge.Yaml.Lexer
import IdlBridge.Yaml.Tag

/-! # Nodes of a document

    A document is a tree of nodes, each with its tag. An alias stands for the node that carries the
    anchor; the anchor has to end before the alias. The mappings of a node with an anchor carry
    marks, so that those of its aliases are known to be the same. An alias inside the node that it
    names would make the data contain itself; it counts as a fault here, as no such data is
    described.

    The reader goes through the tokens once. When they run out it fails with the fault that the
    tokens end with, so a fault of the grammar counts before a fault of a later token. Its bound
    grows with the number of tokens: of two calls inside each other one consumes a token. There is
    no other limit to how deeply nodes nest, as that of a stack would be.
-/

namespace IdlBridge.Yaml

/-- A node of a document. -/
inductive Node where
  | scalar (tag : Tag) (text : Text)
  | sequence (tag : Tag) (items : List Node)
  | mapping (tag : Tag) (entries : List (Node × Node)) (mark : Option Mark := none)

namespace Node

/-- The tag of a node. -/
def tag : Node → Tag
  | .scalar t _ => t
  | .sequence t _ => t
  | .mapping t _ _ => t

/-- The mark of a node. -/
def mark? : Node → Option Mark
  | .mapping _ _ m => m
  | _ => none

/-- The node of an anchor, with marks at the mappings in it that have none. -/
def marked (anchor : Text) (place : List Nat) : Node → Node
  | .scalar t x => .scalar t x
  | .sequence t xs => .sequence t (items 0 xs)
  | .mapping t es m => .mapping t (entries 0 es) (m.or (some ⟨0, anchor, place⟩))
where
  items (i : Nat) : List Node → List Node
    | [] => []
    | x :: rest => marked anchor (i :: place) x :: items (i + 1) rest
  entries (i : Nat) : List (Node × Node) → List (Node × Node)
    | [] => []
    | (k, v) :: rest =>
      (marked anchor (0 :: i :: place) k, marked anchor (1 :: i :: place) v) :: entries (i + 1) rest

/-- A node that is left out. -/
def empty : Node :=
  .scalar .null []

/-- What is known while tokens are read: the tokens ahead, the fault behind them, what tag handles
    stand for, and the nodes with anchors. The node of an anchor is missing as long as it is
    read. -/
structure Reader where
  rest : List Token
  fault : Option Fault
  handles : Table Text
  anchors : Table (Option Node)

/-- A step of reading. -/
abbrev Reading := StateT Reader (Except Fault)

namespace Reader

/-- The handles that need no directive. -/
def commonHandles : Table Text :=
  [("!", "!"), ("!!", Tag.lead)]

/-- Fails with a broken rule. -/
def reject {α : Type} (why : Malformed) : Reading α :=
  throw (.malformed why)

/-- The next token. -/
def peek : Reading Token := do
  let r ← get
  match r.rest with
  | t :: _ => return t
  | [] => throw (r.fault.getD (.malformed .unexpectedToken))

/-- Goes behind the next token. -/
def skip : Reading Unit :=
  modify fun r => { r with rest := r.rest.drop 1 }

/-- Goes behind a token that has to be there. -/
def expect (t : Token) : Reading Unit := do
  if (← peek) = t then skip else reject .unexpectedToken

/-! ## Properties of nodes -/

/-- An anchor, if one is ahead. -/
def anchor? : Reading (Option Text) := do
  match ← peek with
  | .anchor name => skip; return some name
  | _ => return none

/-- A tag, if one is ahead. -/
def tag? : Reading (Option RawTag) := do
  match ← peek with
  | .tag t => skip; return some t
  | _ => return none

/-- The anchor and the tag of a node, in either order. -/
def properties : Reading (Option Text × Option RawTag) := do
  match ← anchor? with
  | some name => return (some name, ← tag?)
  | none =>
    match ← tag? with
    | some t => return (← anchor?, some t)
    | none => return (none, none)

/-- The name of a tag. -/
def tagName (t : RawTag) : Reading Text := do
  match t.handle with
  | none => return t.suffix
  | some h =>
    match (← get).handles.get? h with
    | some lead => return lead ++ t.suffix
    | none => reject .unknownTagHandle

/-- The name of a tag that was left out, or written as a lone exclamation mark. -/
def isOpen (name : Option Text) : Bool :=
  name = none || name = some ("!" : Text)

/-- The tag of a scalar. -/
def scalarTag (name : Option Text) (t : Text) (plain : Bool) : Tag :=
  match name with
  | none => if plain then .ofPlain t else .str
  | some n => if n = "!" then .ofPlain t else .ofName n

/-- The tag of a collection. -/
def collectionTag (name : Option Text) (otherwise : Tag) : Tag :=
  if isOpen name then otherwise else .ofName (name.getD [])

/-- Remembers that the node of an anchor is read from here on. -/
def declare (name : Option Text) : Reading Unit := do
  match name with
  | none => return ()
  | some a =>
    if (← get).anchors.has a then reject .repeatedAnchor
    else modify fun r => { r with anchors := r.anchors.insert a none }

/-- Remembers the node of an anchor. -/
def define (name : Option Text) (n : Node) : Reading Node := do
  match name with
  | none => return n
  | some a =>
    let n := n.marked a []
    modify fun r => { r with anchors := r.anchors.insert a (some n) }
    return n

/-- The node of an alias. -/
def resolve (name : Text) : Reading Node := do
  match (← get).anchors.get? name with
  | some (some n) => return n
  | _ => reject .unknownAlias

/-! ## Nodes -/

/-- A node of which nothing but its properties is there. -/
def bare (anchor name : Option Text) : Reading Node := do
  if anchor = none ∧ name = none then reject .unexpectedToken
  else
    declare anchor
    define anchor (.scalar (scalarTag name [] true) [])

mutual

/-- A node. `block` tells whether it may be a block collection, `indentless` whether it may be a
    sequence that is not indented. -/
def node (bound : Nat) (block indentless : Bool) : Reading Node := do
  match bound with
  | 0 => reject .unexpectedToken
  | bound + 1 =>
    match ← peek with
    | .aliasOf name =>
      skip
      resolve name
    | _ =>
      let (anchor, raw) ← properties
      let name ← raw.mapM tagName
      match ← peek with
      | .blockEntry =>
        -- The items of a key's value may stand at the column of the key.
        if indentless then
          declare anchor
          let items ← looseEntries bound
          define anchor (.sequence (collectionTag name .seq) items)
        else bare anchor name
      | .scalar t plain =>
        skip
        declare anchor
        define anchor (.scalar (scalarTag name t plain) t)
      | .flowSequenceStart =>
        skip
        declare anchor
        let items ← flowItems bound true
        define anchor (.sequence (collectionTag name .seq) items)
      | .flowMappingStart =>
        skip
        declare anchor
        let entries ← flowEntries bound true
        define anchor (.mapping (collectionTag name .map) entries)
      | .blockSequenceStart =>
        if block then
          skip
          declare anchor
          let items ← blockItems bound
          define anchor (.sequence (collectionTag name .seq) items)
        else bare anchor name
      | .blockMappingStart =>
        if block then
          skip
          declare anchor
          let entries ← blockEntries bound
          define anchor (.mapping (collectionTag name .map) entries)
        else bare anchor name
      | _ => bare anchor name

/-- A node that is left out if one of some tokens is ahead. -/
def nodeUnless (bound : Nat) (stops : List Token) (block indentless : Bool) : Reading Node := do
  match bound with
  | 0 => reject .unexpectedToken
  | bound + 1 =>
    if stops.contains (← peek) then return empty
    else node bound block indentless

/-- The items of a block sequence and its end. -/
def blockItems (bound : Nat) : Reading (List Node) := do
  match bound with
  | 0 => reject .unexpectedToken
  | bound + 1 =>
    match ← peek with
    | .blockEntry =>
      skip
      let item ← nodeUnless bound [.blockEntry, .blockEnd] true false
      return item :: (← blockItems bound)
    | _ =>
      expect .blockEnd
      return []

/-- The items of a sequence that is not indented; nothing marks its end. -/
def looseEntries (bound : Nat) : Reading (List Node) := do
  match bound with
  | 0 => reject .unexpectedToken
  | bound + 1 =>
    match ← peek with
    | .blockEntry =>
      skip
      let item ← nodeUnless bound [.blockEntry, .key, .value, .blockEnd] true false
      return item :: (← looseEntries bound)
    | _ => return []

/-- The entries of a block mapping and its end. -/
def blockEntries (bound : Nat) : Reading (List (Node × Node)) := do
  match bound with
  | 0 => reject .unexpectedToken
  | bound + 1 =>
    match ← peek with
    | .key =>
      skip
      let key ← nodeUnless bound [.key, .value, .blockEnd] true true
      let value ← valueUnless bound [.key, .value, .blockEnd] true
      return (key, value) :: (← blockEntries bound)
    | _ =>
      expect .blockEnd
      return []

/-- The value behind a key, left out where no mark or nothing behind the mark stands. -/
def valueUnless (bound : Nat) (stops : List Token) (block : Bool) : Reading Node := do
  match bound with
  | 0 => reject .unexpectedToken
  | bound + 1 =>
    match ← peek with
    | .value =>
      skip
      nodeUnless bound stops block block
    | _ => return empty

/-- The items of a sequence in brackets and its end. A key among them is a mapping of its own. -/
def flowItems (bound : Nat) (first : Bool) : Reading (List Node) := do
  match bound with
  | 0 => reject .unexpectedToken
  | bound + 1 =>
    match ← peek with
    | .flowSequenceEnd =>
      skip
      return []
    | _ =>
      if !first then expect .flowEntry
      match ← peek with
      | .key =>
        skip
        let key ← nodeUnless bound [.value, .flowEntry, .flowSequenceEnd] false false
        let value ← valueUnless bound [.flowEntry, .flowSequenceEnd] false
        return .mapping .map [(key, value)] :: (← flowItems bound false)
      -- A comma may be the last thing in the brackets.
      | .flowSequenceEnd =>
        skip
        return []
      | _ =>
        let item ← node bound false false
        return item :: (← flowItems bound false)

/-- The entries of a mapping in braces and its end. A node without a mark is a key without a
    value. -/
def flowEntries (bound : Nat) (first : Bool) : Reading (List (Node × Node)) := do
  match bound with
  | 0 => reject .unexpectedToken
  | bound + 1 =>
    match ← peek with
    | .flowMappingEnd =>
      skip
      return []
    | _ =>
      if !first then expect .flowEntry
      match ← peek with
      | .key =>
        skip
        let key ← nodeUnless bound [.value, .flowEntry, .flowMappingEnd] false false
        let value ← valueUnless bound [.flowEntry, .flowMappingEnd] false
        return (key, value) :: (← flowEntries bound false)
      -- A comma may be the last thing in the braces.
      | .flowMappingEnd =>
        skip
        return []
      | _ =>
        let key ← node bound false false
        return (key, empty) :: (← flowEntries bound false)

end

/-! ## Documents -/

/-- The directives of a document; of each kind and handle there is one. -/
def directives (bound : Nat) (versioned : Bool) (handles : Table Text) : Reading (Table Text) := do
  match bound with
  | 0 => reject .badDirective
  | bound + 1 =>
    match ← peek with
    | .directive (.version major) =>
      skip
      if versioned ∨ major ≠ 1 then reject .badDirective
      directives bound true handles
    | .directive (.tag handle lead) =>
      skip
      if handles.has handle then reject .badDirective
      directives bound versioned (handles.insert handle lead)
    | .directive .other =>
      skip
      directives bound versioned handles
    | _ => return handles

/-- Goes behind end marks of documents. -/
def skipEnds (bound : Nat) : Reading Unit := do
  match bound with
  | 0 => return ()
  | bound + 1 =>
    match ← peek with
    | .documentEnd =>
      skip
      skipEnds bound
    | _ => return ()

/-- The start of a document that is marked, its directives included. -/
def documentStart : Reading Unit := do
  let handles ← directives ((← get).rest.length + 1) false []
  expect .documentStart
  let missing := commonHandles.filter fun e => !handles.has e.1
  modify fun r => { r with handles := handles ++ missing }

/-- The node of a document whose start mark has been read. -/
def content (bound : Nat) : Reading Node := do
  match ← peek with
  | .directive _ | .documentStart | .documentEnd | .streamEnd => return empty
  | _ => node bound true false

/-- Nothing but end marks follows the document. -/
def finish : Reading Unit := do
  skipEnds ((← get).rest.length + 1)
  if (← peek) ≠ .streamEnd then
    documentStart
    reject .severalDocuments

/-- The only document, if there is one. -/
def stream : Reading (Option Node) := do
  let bound := 3 * (← get).rest.length + 3
  match ← peek with
  | .streamEnd => return none
  | .directive _ | .documentStart =>
    documentStart
    let n ← content bound
    finish
    return some n
  | _ =>
    let n ← node bound true false
    finish
    return some n

end Reader

/-- The only document of a stream of tokens; `none` if the stream is empty. -/
def ofTokens? (l : Lexed) : Except Fault (Option Node) :=
  (Reader.stream.run ⟨l.tokens, l.fault, Reader.commonHandles, []⟩).map (·.1)

end Node

end IdlBridge.Yaml
