import IdlBridge.Proofs.Idl.Grammar
import IdlBridge.Proofs.Proto.Atoms

/-! # The grammar of Protocol Buffers sources

    `Written` says for each declaration which atoms spell it.  The choices that a spelling leaves
    open are alternatives of the relations: the literal of a number, how a text is cut into string
    literals, the colons, commas and semicolons of aggregates, the labels of fields that are not
    repeated, statements that are skipped, and the order of the parts of a declaration.  A tree can
    be spelled if its names can stand where they have to, its numbers have literals, and it has no
    comments.
-/

namespace IdlBridge.Proto

open Idl

/-! ## Constants -/

/-- An item of a list, and whether a comma stands behind it. -/
structure ListItem where
  value : Value
  constant : List Atom
  comma : Bool

/-- An entry of an aggregate, whether a colon stands in it, and the separator behind it. -/
structure AggregateEntry where
  key : Text
  colon : Bool
  value : Value
  constant : List Atom
  separator : List Atom

def ListItem.atoms (i : ListItem) : List Atom :=
  i.constant ++ if i.comma then [.mark .comma] else []

def AggregateEntry.atoms (e : AggregateEntry) : List Atom :=
  .word e.key :: ((if e.colon then [.mark .colon] else []) ++ (e.constant ++ e.separator))

def AggregateEntry.entry (e : AggregateEntry) : Value × Value := (.text e.key, e.value)

/-- Between two items of a list there is a comma, or the second one does not start with a string,
    which would go on with the first one. -/
def ListItem.Apart (i j : ListItem) : Prop := i.comma = true ∨ nextKind j.constant ≠ .string

/-- A constant. -/
inductive ConstantWritten : Value → List Atom → Prop
  | bool (b : Bool) : ConstantWritten (.bool b) [.word (if b then "true" else "false")]
  | int {i : Int} {t : Text} (h : Numeral.intLiteral? t = some i) :
    ConstantWritten (.int i) [.number t]
  | float {x : Binary64} {t : Text} (hint : Numeral.intLiteral? t = none)
      (h : Numeral.float? t = some x) : ConstantWritten (.float x) [.number t]
  | text {parts : List Text} (hparts : parts ≠ []) :
    ConstantWritten (.text parts.flatten) (parts.map .string)
  | name {w : Text} (htrue : w ≠ "true") (hfalse : w ≠ "false") :
    ConstantWritten (.text w) [.word w]
  | list {items : List ListItem} (hvalues : ∀ i ∈ items, ConstantWritten i.value i.constant)
      (hapart : items.IsChain ListItem.Apart) :
    ConstantWritten (.list (items.map ListItem.value))
      (.mark .leftBracket :: (items.flatMap ListItem.atoms ++ [.mark .rightBracket]))
  | map {entries : List AggregateEntry}
      (hvalues : ∀ e ∈ entries, ConstantWritten e.value e.constant)
      (hseparators : ∀ e ∈ entries, Separator e.separator)
      (hkeys : (entries.map AggregateEntry.key).Nodup) :
    ConstantWritten (.map (entries.map AggregateEntry.entry))
      (.mark .leftBrace :: (entries.flatMap AggregateEntry.atoms ++ [.mark .rightBrace]))

/-- Constants with commas between them are the items of a list. -/
theorem exists_items {xs : List Value} {atoms : Value → List Atom}
    (h : ∀ x ∈ xs, ConstantWritten x (atoms x)) :
    ∃ items : List ListItem, items.map ListItem.value = xs ∧
      items.flatMap ListItem.atoms = listed (xs.map atoms) ∧
      (∀ i ∈ items, ConstantWritten i.value i.constant) ∧ items.IsChain ListItem.Apart := by
  induction xs with
  | nil => exact ⟨[], rfl, rfl, by simp, .nil⟩
  | cons x xs ih =>
    obtain ⟨hx, hxs⟩ := List.forall_mem_cons.1 h
    cases xs with
    | nil =>
      refine ⟨[⟨x, atoms x, false⟩], rfl, ?_, by simpa using hx, .singleton _⟩
      simp [ListItem.atoms]
    | cons y xs =>
      obtain ⟨items, hvalues, hatoms, hitems, hapart⟩ := ih hxs
      refine ⟨⟨x, atoms x, true⟩ :: items, ?_, ?_, List.forall_mem_cons.2 ⟨hx, hitems⟩, ?_⟩
      · rw [List.map_cons, hvalues]
      · rw [List.flatMap_cons, hatoms]
        simp only [List.map_cons, listed_cons_cons]
        simp [ListItem.atoms]
      · -- An item with a comma behind it stands apart from any other.
        cases items with
        | nil => exact .singleton _
        | cons j items => exact List.isChain_cons_cons.2 ⟨Or.inl rfl, hapart⟩

namespace ConstantWritten

/-- A list with commas between its items. -/
theorem listed {xs : List Value} {atoms : Value → List Atom}
    (h : ∀ x ∈ xs, ConstantWritten x (atoms x)) :
    ConstantWritten (.list xs)
      (.mark .leftBracket :: (Proto.listed (xs.map atoms) ++ [.mark .rightBracket])) := by
  obtain ⟨items, rfl, hatoms, hitems, hapart⟩ := exists_items h
  rw [← hatoms]
  exact .list hitems hapart

/-- An aggregate with a colon in each entry and no separators. -/
theorem entries {es : List (Text × Value)} {atoms : Text × Value → List Atom}
    (hkeys : (es.map Prod.fst).Nodup) (h : ∀ e ∈ es, ConstantWritten e.2 (atoms e)) :
    ConstantWritten (.map (es.map fun e => (.text e.1, e.2)))
      (.mark .leftBrace :: (es.flatMap (fun e => .word e.1 :: .mark .colon :: atoms e) ++
        [.mark .rightBrace])) := by
  let entry (e : Text × Value) : AggregateEntry := ⟨e.1, true, e.2, atoms e, []⟩
  have hmap : ConstantWritten (.map ((es.map entry).map AggregateEntry.entry))
      (.mark .leftBrace ::
        ((es.map entry).flatMap AggregateEntry.atoms ++ [.mark .rightBrace])) := by
    apply ConstantWritten.map
    · intro a ha
      obtain ⟨e, he, rfl⟩ := List.mem_map.1 ha
      exact h e he
    · intro a ha
      obtain ⟨e, _, rfl⟩ := List.mem_map.1 ha
      exact .none
    · rw [List.map_map]
      exact hkeys
  have hatoms : (es.map entry).flatMap AggregateEntry.atoms =
      es.flatMap fun e => .word e.1 :: .mark .colon :: atoms e := by
    rw [List.flatMap_map]
    congr 1
    funext e
    simp [entry, AggregateEntry.atoms]
  rw [List.map_map, hatoms] at hmap
  exact hmap

end ConstantWritten

/-! ## Options -/

/-- The name of an option.  The points in front of the name of a custom option are dropped, and a
    part of it may follow the parentheses. -/
inductive OptionName : Text → List Atom → Prop
  | plain (n : Text) : OptionName n [.word n]
  | custom (n : Text) :
    OptionName (Text.dropLeading '.' n) [.mark .leftParen, .word n, .mark .rightParen]
  | part (n : Text) {suffix : Text} (hpoint : suffix.head? = some ('.' : CodePoint))
      (hname : IsName suffix) :
    OptionName (Text.dropLeading '.' n ++ suffix)
      [.mark .leftParen, .word n, .mark .rightParen, .word suffix]

/-- An option. -/
inductive Setting.Written : Setting → List Atom → Prop
  | mk {s : Setting} {name us : List Atom} (hname : OptionName s.name name)
      (hvalue : ConstantWritten s.value us) : Written s (name ++ .mark .equals :: us)

/-- An option statement. -/
inductive Setting.Stated : Setting → List Atom → Prop
  | mk {s : Setting} {us : List Atom} (h : s.Written us) :
    Stated s (.keyword .option :: (us ++ [.mark .semicolon]))

/-- Options with commas between them. -/
inductive SettingsListed : List Setting → List Atom → Prop
  | one {s : Setting} {us : List Atom} (h : s.Written us) : SettingsListed [s] us
  | cons {s : Setting} {ss : List Setting} {us vs : List Atom} (h : s.Written us)
      (hrest : SettingsListed ss vs) : SettingsListed (s :: ss) (us ++ .mark .comma :: vs)

/-- The options of a field between brackets. -/
inductive FieldOptions : List Setting → List Atom → Prop
  | none : FieldOptions [] []
  | bracketed {ss : List Setting} {us : List Atom} (h : SettingsListed ss us) :
    FieldOptions ss (.mark .leftBracket :: (us ++ [.mark .rightBracket]))

/-! ## Skipped statements -/

/-- A statement that is skipped up to its semicolon. -/
inductive SkippedStatement (k : Word) : List Atom → Prop
  | mk {us : List Atom} (h : Without .semicolon us) :
    SkippedStatement k (.keyword k :: (us ++ [.mark .semicolon]))

/-- An extension of another message, which is skipped up to its closing brace. -/
inductive ExtendBlock : List Atom → Prop
  | mk {header body : List Atom} (hheader : Without .leftBrace header) (hbody : Balanced body) :
    ExtendBlock (.keyword .extend ::
      (header ++ .mark .leftBrace :: (body ++ [.mark .rightBrace])))

/-! ## Fields and enumerations -/

/-- The label of a field, which says whether it is repeated. -/
inductive Label : Bool → List Atom → Prop
  | none : Label false []
  | optional : Label false [.keyword .optional]
  | required : Label false [.keyword .required]
  | repeated : Label true [.keyword .repeated]

/-- The end of a field or a value: its name, its number and its options. -/
inductive NumberedWritten (name : Text) (number : Int) (options : List Setting) : List Atom → Prop
  | mk {t : Text} {us : List Atom} (hnumber : Numeral.intLiteral? t = some number)
      (hoptions : FieldOptions options us) :
    NumberedWritten name number options
      (.word name :: .mark .equals :: .number t :: (us ++ [.mark .semicolon]))

/-- A field in a group of alternatives, or in none. -/
inductive Field.Written (group : Option Text) : Field → List Atom → Prop
  | plain {f : Field} {label us : List Atom} (hmap : f.mapKey = none) (hgroup : f.oneof = group)
      (hcomment : f.comment = []) (hlabel : Label f.repeated label) (htype : IsName f.typeName)
      (hend : NumberedWritten f.name f.number f.options us) :
    Written group f (label ++ .word f.typeName :: us)
  | map {f : Field} {key : Text} {us : List Atom} (hmap : f.mapKey = some key)
      (hgroup : f.oneof = none) (hnone : group = none) (hcomment : f.comment = [])
      (hrepeated : f.repeated = false)
      (hend : NumberedWritten f.name f.number f.options us) :
    Written group f (.keyword .map :: .mark .leftAngle :: .word key :: .mark .comma ::
      .word f.typeName :: .mark .rightAngle :: us)

/-- A part of an enumeration. -/
inductive EnumPart where
  | value (v : EnumValue)
  | option (s : Setting)
  | skipped

/-- The enumeration with a part at the end of its list. -/
def EnumPart.addTo (e : Enum) : EnumPart → Enum
  | .value v => { e with values := e.values ++ [v] }
  | .option s => { e with options := e.options ++ [s] }
  | .skipped => e

inductive EnumPart.Written : EnumPart → List Atom → Prop
  | value {v : EnumValue} {us : List Atom} (hname : IsName v.name)
      (h : NumberedWritten v.name v.number v.options us) : Written (.value v) us
  | option {s : Setting} {us : List Atom} (h : s.Stated us) : Written (.option s) us
  | reserved {us : List Atom} (h : SkippedStatement .reserved us) : Written .skipped us
  | semicolon : Written .skipped [.mark .semicolon]

/-- An enumeration: parts, in whatever order, that make it up. -/
inductive Enum.Written : Enum → List Atom → Prop
  | mk {name : Text} {parts : List EnumPart} {us : List Atom} (h : Each EnumPart.Written parts us) :
    Written (parts.foldl EnumPart.addTo ⟨name, [], [], []⟩)
      (.keyword .enum :: .word name :: .mark .leftBrace :: (us ++ [.mark .rightBrace]))

/-! ## Messages -/

/-- A part of a group of alternatives: a field, or something that is skipped. -/
inductive GroupPart where
  | field (f : Field)
  | skipped

/-- What may be skipped in a message. -/
inductive MessageSkip : List Atom → Prop
  | reserved {us : List Atom} (h : SkippedStatement .reserved us) : MessageSkip us
  | extensions {us : List Atom} (h : SkippedStatement .extensions us) : MessageSkip us
  | extend {us : List Atom} (h : ExtendBlock us) : MessageSkip us
  | semicolon : MessageSkip [.mark .semicolon]

inductive GroupPart.Written (group : Text) : GroupPart → List Atom → Prop
  | field {f : Field} {us : List Atom} (hplain : f.mapKey = none) (h : f.Written (some group) us) :
    Written group (.field f) us
  | skipped {us : List Atom} (h : MessageSkip us) : Written group .skipped us

/-- A part of a message.  A group of alternatives adds all its fields. -/
inductive MessagePart where
  | field (f : Field)
  | group (parts : List GroupPart)
  | message (m : Message)
  | enum (e : Enum)
  | option (s : Setting)
  | skipped

/-- The message with a part of a group at the end of its fields. -/
def GroupPart.addTo (m : Message) : GroupPart → Message
  | .field f => { m with fields := m.fields ++ [f] }
  | .skipped => m

/-- The message with a part at the end of its list. -/
def MessagePart.addTo (m : Message) : MessagePart → Message
  | .field f => { m with fields := m.fields ++ [f] }
  | .group parts => parts.foldl GroupPart.addTo m
  | .message n => { m with messages := m.messages ++ [n] }
  | .enum e => { m with enums := m.enums ++ [e] }
  | .option s => { m with options := m.options ++ [s] }
  | .skipped => m

/-- The parts of a message, where `W` spells the messages in it. -/
inductive MessagePart.Written (W : Message → List Atom → Prop) : MessagePart → List Atom → Prop
  | field {f : Field} {us : List Atom} (h : f.Written none us) : Written W (.field f) us
  | group {name : Text} {parts : List GroupPart} {us : List Atom}
      (h : Each (GroupPart.Written name) parts us) :
    Written W (.group parts)
      (.keyword .oneof :: .word name :: .mark .leftBrace :: (us ++ [.mark .rightBrace]))
  | message {m : Message} {us : List Atom} (h : W m us) : Written W (.message m) us
  | enum {e : Enum} {us : List Atom} (h : e.Written us) : Written W (.enum e) us
  | option {s : Setting} {us : List Atom} (h : s.Stated us) : Written W (.option s) us
  | skipped {us : List Atom} (h : MessageSkip us) : Written W .skipped us

/-- A message: parts, in whatever order, that make it up. -/
inductive Message.Written : Message → List Atom → Prop
  | mk {name : Text} {parts : List MessagePart} {us : List Atom}
      (h : Each (MessagePart.Written Message.Written) parts us) :
    Written (parts.foldl MessagePart.addTo ⟨name, [], [], [], [], []⟩)
      (.keyword .message :: .word name :: .mark .leftBrace :: (us ++ [.mark .rightBrace]))

/-! ## Services -/

/-- The type of a remote procedure's input or output.  It is not the word that marks a stream. -/
inductive RpcType (streaming : Bool) (type : Text) : List Atom → Prop
  | mk (h : type ≠ Word.stream.spelling) :
    RpcType streaming type (.mark .leftParen ::
      ((if streaming then [.keyword .stream] else []) ++ [.word type, .mark .rightParen]))

/-- A part of a block of options. -/
inductive OptionPart where
  | option (s : Setting)
  | skipped

def OptionPart.addTo (options : List Setting) : OptionPart → List Setting
  | .option s => options ++ [s]
  | .skipped => options

inductive OptionPart.Written : OptionPart → List Atom → Prop
  | option {s : Setting} {us : List Atom} (h : s.Stated us) : Written (.option s) us
  | semicolon : Written .skipped [.mark .semicolon]

/-- The end of a remote procedure: a semicolon, or a block of options. -/
inductive RpcEnd : List Setting → List Atom → Prop
  | semicolon : RpcEnd [] [.mark .semicolon]
  | block {parts : List OptionPart} {us : List Atom} (h : Each OptionPart.Written parts us) :
    RpcEnd (parts.foldl OptionPart.addTo []) (.mark .leftBrace :: (us ++ [.mark .rightBrace]))

/-- A remote procedure. -/
inductive Rpc.Written : Rpc → List Atom → Prop
  | mk {r : Rpc} {input output us : List Atom} (hinput : RpcType r.clientStreaming r.input input)
      (houtput : RpcType r.serverStreaming r.output output) (hend : RpcEnd r.options us)
      (hcomment : r.comment = []) :
    Written r (.keyword .rpc :: .word r.name :: (input ++ .keyword .returns :: (output ++ us)))

/-- A part of a service. -/
inductive ServicePart where
  | rpc (r : Rpc)
  | option (s : Setting)
  | skipped

/-- The service with a part at the end of its list. -/
def ServicePart.addTo (s : Service) : ServicePart → Service
  | .rpc r => { s with rpcs := s.rpcs ++ [r] }
  | .option o => { s with options := s.options ++ [o] }
  | .skipped => s

inductive ServicePart.Written : ServicePart → List Atom → Prop
  | rpc {r : Rpc} {us : List Atom} (h : r.Written us) : Written (.rpc r) us
  | option {s : Setting} {us : List Atom} (h : s.Stated us) : Written (.option s) us
  | semicolon : Written .skipped [.mark .semicolon]

/-- A service: parts, in whatever order, that make it up. -/
inductive Service.Written : Service → List Atom → Prop
  | mk {name : Text} {parts : List ServicePart} {us : List Atom}
      (h : Each ServicePart.Written parts us) :
    Written (parts.foldl ServicePart.addTo ⟨name, [], [], []⟩)
      (.keyword .service :: .word name :: .mark .leftBrace :: (us ++ [.mark .rightBrace]))

/-! ## Files -/

/-- A part of a file. -/
inductive FilePart where
  | syntaxName (t : Text)
  | package (n : Text)
  | importFile (path : Text)
  | option (s : Setting)
  | message (m : Message)
  | enum (e : Enum)
  | service (s : Service)
  | skipped

/-- The file with a part in its place, or at the end of its list. -/
def FilePart.addTo (f : File) : FilePart → File
  | .syntaxName t => { f with syntaxName := t }
  | .package n => { f with package := n }
  | .importFile path => { f with imports := f.imports ++ [path] }
  | .option s => { f with options := f.options ++ [s] }
  | .message m => { f with messages := f.messages ++ [m] }
  | .enum e => { f with enums := f.enums ++ [e] }
  | .service s => { f with services := f.services ++ [s] }
  | .skipped => f

/-- Whether an imported file is seen by those that import this one, which is dropped. -/
inductive ImportMark : List Atom → Prop
  | none : ImportMark []
  | isPublic : ImportMark [.word "public"]
  | isWeak : ImportMark [.word "weak"]

inductive FilePart.Written : FilePart → List Atom → Prop
  | syntaxName (t : Text) :
    Written (.syntaxName t) [.keyword .syntaxWord, .mark .equals, .string t, .mark .semicolon]
  | package (n : Text) : Written (.package n) [.keyword .package, .word n, .mark .semicolon]
  | importFile (path : Text) {us : List Atom} (hmark : ImportMark us) :
    Written (.importFile path) (.keyword .importWord :: (us ++ [.string path, .mark .semicolon]))
  | option {s : Setting} {us : List Atom} (h : s.Stated us) : Written (.option s) us
  | message {m : Message} {us : List Atom} (h : m.Written us) : Written (.message m) us
  | enum {e : Enum} {us : List Atom} (h : e.Written us) : Written (.enum e) us
  | service {s : Service} {us : List Atom} (h : s.Written us) : Written (.service s) us
  | extend {us : List Atom} (h : ExtendBlock us) : Written .skipped us
  | semicolon : Written .skipped [.mark .semicolon]

/-- A file: parts, in whatever order, that make it up. -/
def File.Written (f : File) (us : List Atom) : Prop :=
  ∃ parts, Each FilePart.Written parts us ∧ parts.foldl FilePart.addTo .empty = f

/-! ## Parts of a tree

    The parts of a declaration, one kind after the other, make it up again.
-/

def Enum.parts (e : Enum) : List EnumPart := e.options.map .option ++ e.values.map .value

theorem Enum.foldl_parts (e : Enum) (h : e.comment = []) :
    e.parts.foldl EnumPart.addTo ⟨e.name, [], [], []⟩ = e := by
  obtain ⟨name, values, options, comment⟩ := e
  cases h
  simp only [Enum.parts, List.foldl_append]
  rw [foldl_map_eq EnumPart.addTo .option (fun e ss => { e with options := e.options ++ ss })
      (by simp) (by simp [EnumPart.addTo]),
    foldl_map_eq EnumPart.addTo .value (fun e vs => { e with values := e.values ++ vs })
      (by simp) (by simp [EnumPart.addTo])]
  rfl

theorem Enum.written_parts {e : Enum} {us : List Atom} (h : e.comment = [])
    (hparts : Each EnumPart.Written e.parts us) :
    e.Written (.keyword .enum :: .word e.name :: .mark .leftBrace ::
      (us ++ [.mark .rightBrace])) := by
  have hwritten : Enum.Written (e.parts.foldl EnumPart.addTo ⟨e.name, [], [], []⟩) _ := .mk hparts
  rwa [e.foldl_parts h] at hwritten

/-- A field as a part of a message; one in a group of alternatives stands in a group alone. -/
def MessagePart.ofField (f : Field) : MessagePart :=
  match f.oneof with
  | none => .field f
  | some _ => .group [.field f]

theorem MessagePart.addTo_ofField (m : Message) (f : Field) :
    (MessagePart.ofField f).addTo m = { m with fields := m.fields ++ [f] } := by
  unfold MessagePart.ofField
  cases f.oneof <;> rfl

def Message.parts (m : Message) : List MessagePart :=
  m.options.map .option ++ (m.enums.map .enum ++ (m.fields.map .ofField ++ m.messages.map .message))

theorem Message.foldl_parts (m : Message) (h : m.comment = []) :
    m.parts.foldl MessagePart.addTo ⟨m.name, [], [], [], [], []⟩ = m := by
  obtain ⟨name, fields, messages, enums, options, comment⟩ := m
  cases h
  simp only [Message.parts, List.foldl_append]
  rw [foldl_map_eq MessagePart.addTo .option (fun m ss => { m with options := m.options ++ ss })
      (by rintro ⟨⟩; simp) (by simp [MessagePart.addTo]),
    foldl_map_eq MessagePart.addTo .enum (fun m es => { m with enums := m.enums ++ es })
      (by rintro ⟨⟩; simp) (by simp [MessagePart.addTo]),
    foldl_map_eq MessagePart.addTo .ofField (fun m fs => { m with fields := m.fields ++ fs })
      (by rintro ⟨⟩; simp) (by simp [MessagePart.addTo_ofField]),
    foldl_map_eq MessagePart.addTo .message (fun m ms => { m with messages := m.messages ++ ms })
      (by rintro ⟨⟩; simp) (by simp [MessagePart.addTo])]
  rfl

theorem Message.written_parts {m : Message} {us : List Atom} (h : m.comment = [])
    (hparts : Each (MessagePart.Written Message.Written) m.parts us) :
    m.Written
      (.keyword .message :: .word m.name :: .mark .leftBrace :: (us ++ [.mark .rightBrace])) := by
  have hwritten : Message.Written
      (m.parts.foldl MessagePart.addTo ⟨m.name, [], [], [], [], []⟩) _ := .mk hparts
  rwa [m.foldl_parts h] at hwritten

theorem OptionPart.foldl_map_option (ss : List Setting) :
    (ss.map .option).foldl OptionPart.addTo [] = ss :=
  foldl_map_eq OptionPart.addTo .option (fun s ss => s ++ ss) (by simp) (by simp [OptionPart.addTo])
    ss []

theorem RpcEnd.of_options {options : List Setting} {us : List Atom}
    (h : Each OptionPart.Written (options.map .option) us) :
    RpcEnd options (.mark .leftBrace :: (us ++ [.mark .rightBrace])) := by
  have hend := RpcEnd.block h
  rwa [OptionPart.foldl_map_option] at hend

def Service.parts (s : Service) : List ServicePart := s.options.map .option ++ s.rpcs.map .rpc

theorem Service.foldl_parts (s : Service) (h : s.comment = []) :
    s.parts.foldl ServicePart.addTo ⟨s.name, [], [], []⟩ = s := by
  obtain ⟨name, rpcs, options, comment⟩ := s
  cases h
  simp only [Service.parts, List.foldl_append]
  rw [foldl_map_eq ServicePart.addTo .option (fun s os => { s with options := s.options ++ os })
      (by simp) (by simp [ServicePart.addTo]),
    foldl_map_eq ServicePart.addTo .rpc (fun s rs => { s with rpcs := s.rpcs ++ rs })
      (by simp) (by simp [ServicePart.addTo])]
  rfl

theorem Service.written_parts {s : Service} {us : List Atom} (h : s.comment = [])
    (hparts : Each ServicePart.Written s.parts us) :
    s.Written
      (.keyword .service :: .word s.name :: .mark .leftBrace :: (us ++ [.mark .rightBrace])) := by
  have hwritten : Service.Written (s.parts.foldl ServicePart.addTo ⟨s.name, [], [], []⟩) _ :=
    .mk hparts
  rwa [s.foldl_parts h] at hwritten

/-- A file without a package has no part for it. -/
def File.packageParts (package : Text) : List FilePart :=
  if package = [] then [] else [.package package]

def File.parts (f : File) : List FilePart :=
  .syntaxName f.syntaxName :: (packageParts f.package ++ (f.imports.map .importFile ++
    (f.options.map .option ++ (f.enums.map .enum ++ (f.messages.map .message ++
      f.services.map .service)))))

theorem File.foldl_packageParts (f : File) (h : f.package = []) (package : Text) :
    (packageParts package).foldl FilePart.addTo f = { f with package } := by
  unfold packageParts
  split
  · next hnil =>
    rw [hnil, ← h]
    rfl
  · rfl

theorem File.foldl_parts (f : File) : f.parts.foldl FilePart.addTo .empty = f := by
  simp only [File.parts, List.foldl_cons, List.foldl_append]
  rw [File.foldl_packageParts _ rfl,
    foldl_map_eq FilePart.addTo .importFile (fun f ps => { f with imports := f.imports ++ ps })
      (by simp) (by simp [FilePart.addTo]),
    foldl_map_eq FilePart.addTo .option (fun f ss => { f with options := f.options ++ ss })
      (by simp) (by simp [FilePart.addTo]),
    foldl_map_eq FilePart.addTo .enum (fun f es => { f with enums := f.enums ++ es })
      (by simp) (by simp [FilePart.addTo]),
    foldl_map_eq FilePart.addTo .message (fun f ms => { f with messages := f.messages ++ ms })
      (by simp) (by simp [FilePart.addTo]),
    foldl_map_eq FilePart.addTo .service (fun f ss => { f with services := f.services ++ ss })
      (by simp) (by simp [FilePart.addTo])]
  rfl

/-! ## Trees that can be spelled -/

/-- A constant that can be spelled: its numbers have literals, and no aggregate in it has a key
    twice. -/
inductive Spellable : Value → Prop
  | bool (b : Bool) : Spellable (.bool b)
  | int (i : Int) : Spellable (.int i)
  | float {x : Binary64} {t : Text} (hint : Numeral.intLiteral? t = none)
      (h : Numeral.float? t = some x) : Spellable (.float x)
  | text (t : Text) : Spellable (.text t)
  | list {xs : List Value} (hxs : ∀ x ∈ xs, Spellable x) : Spellable (.list xs)
  | map {es : List (Text × Value)} (hkeys : (es.map Prod.fst).Nodup)
      (hes : ∀ e ∈ es, Spellable e.2) : Spellable (.map (es.map fun e => (.text e.1, e.2)))

def Setting.Spellable (s : Setting) : Prop := Proto.Spellable s.value

/-- A field whose type is no keyword, with a type that goes with its place: a map is neither
    repeated nor in a group of alternatives. -/
structure Field.Spellable (f : Field) : Prop where
  type : f.mapKey = none → IsName f.typeName
  repeated : f.mapKey ≠ none → f.repeated = false
  oneof : f.mapKey ≠ none → f.oneof = none
  options : ∀ s ∈ f.options, s.Spellable
  comment : f.comment = []

structure EnumValue.Spellable (v : EnumValue) : Prop where
  name : IsName v.name
  options : ∀ s ∈ v.options, s.Spellable

structure Enum.Spellable (e : Enum) : Prop where
  values : ∀ v ∈ e.values, v.Spellable
  options : ∀ s ∈ e.options, s.Spellable
  comment : e.comment = []

inductive Message.Spellable : Message → Prop
  | mk {m : Message} (fields : ∀ f ∈ m.fields, f.Spellable)
      (messages : ∀ n ∈ m.messages, Spellable n) (enums : ∀ e ∈ m.enums, e.Spellable)
      (options : ∀ s ∈ m.options, s.Spellable) (comment : m.comment = []) : Spellable m

/-- Neither type reads as the mark of a stream. -/
structure Rpc.Spellable (r : Rpc) : Prop where
  input : r.input ≠ Word.stream.spelling
  output : r.output ≠ Word.stream.spelling
  options : ∀ s ∈ r.options, s.Spellable
  comment : r.comment = []

structure Service.Spellable (s : Service) : Prop where
  rpcs : ∀ r ∈ s.rpcs, r.Spellable
  options : ∀ o ∈ s.options, o.Spellable
  comment : s.comment = []

/-- A file whose names can stand where they have to and whose constants can be spelled, without
    comments. -/
structure File.Spellable (f : File) : Prop where
  options : ∀ s ∈ f.options, s.Spellable
  enums : ∀ e ∈ f.enums, e.Spellable
  messages : ∀ m ∈ f.messages, m.Spellable
  services : ∀ s ∈ f.services, s.Spellable

theorem Spellable.exists_written {v : Value} (h : Spellable v) : ∃ us, ConstantWritten v us := by
  induction h with
  | bool b => exact ⟨_, .bool b⟩
  | int i =>
    obtain ⟨t, ht⟩ := Numeral.exists_intLiteral i
    exact ⟨_, .int ht⟩
  | float hint h => exact ⟨_, .float hint h⟩
  | text t =>
    have htext : ConstantWritten (.text [t].flatten) _ := .text (List.cons_ne_nil t [])
    rw [List.flatten_singleton] at htext
    exact ⟨_, htext⟩
  | list _ ih =>
    choose! atoms hatoms using ih
    exact ⟨_, .listed hatoms⟩
  | map hkeys _ ih =>
    choose! atoms hatoms using ih
    exact ⟨_, .entries hkeys hatoms⟩

theorem Setting.Spellable.exists_written {s : Setting} (h : s.Spellable) : ∃ us, s.Written us := by
  obtain ⟨us, hus⟩ := Proto.Spellable.exists_written h
  exact ⟨_, .mk (.plain s.name) hus⟩

theorem Setting.Spellable.exists_stated {s : Setting} (h : s.Spellable) : ∃ us, s.Stated us := by
  obtain ⟨us, hus⟩ := h.exists_written
  exact ⟨_, .mk hus⟩

theorem exists_settingsListed {s : Setting} {ss : List Setting} (h : ∀ o ∈ s :: ss, o.Spellable) :
    ∃ us, SettingsListed (s :: ss) us := by
  induction ss generalizing s with
  | nil =>
    obtain ⟨us, hus⟩ := (h s List.mem_cons_self).exists_written
    exact ⟨us, .one hus⟩
  | cons o ss ih =>
    obtain ⟨hs, hss⟩ := List.forall_mem_cons.1 h
    obtain ⟨us, hus⟩ := hs.exists_written
    obtain ⟨vs, hvs⟩ := ih hss
    exact ⟨_, .cons hus hvs⟩

theorem exists_numberedWritten (name : Text) (number : Int) {options : List Setting}
    (h : ∀ s ∈ options, s.Spellable) : ∃ us, NumberedWritten name number options us := by
  obtain ⟨t, ht⟩ := Numeral.exists_intLiteral number
  cases options with
  | nil => exact ⟨_, .mk ht .none⟩
  | cons s ss =>
    obtain ⟨us, hus⟩ := exists_settingsListed h
    exact ⟨_, .mk ht (.bracketed hus)⟩

theorem Field.Spellable.exists_written {f : Field} (h : f.Spellable) :
    ∃ us, f.Written f.oneof us := by
  obtain ⟨us, hend⟩ := exists_numberedWritten f.name f.number h.options
  cases hmap : f.mapKey with
  | none =>
    have hlabel : ∃ label, Label f.repeated label := by
      cases f.repeated with
      | false => exact ⟨_, .none⟩
      | true => exact ⟨_, .repeated⟩
    obtain ⟨label, hlabel⟩ := hlabel
    exact ⟨_, .plain hmap rfl h.comment hlabel (h.type hmap) hend⟩
  | some key =>
    have hkey : f.mapKey ≠ none := by simp [hmap]
    exact ⟨_, .map hmap (h.oneof hkey) (h.oneof hkey) h.comment (h.repeated hkey) hend⟩

theorem Enum.Spellable.exists_written {e : Enum} (h : e.Spellable) : ∃ us, e.Written us := by
  have hpart : ∀ part ∈ e.parts, ∃ us, EnumPart.Written part us := by
    intro part hpart
    simp only [Enum.parts, List.mem_append, List.mem_map] at hpart
    rcases hpart with ⟨s, hs, rfl⟩ | ⟨v, hv, rfl⟩
    · obtain ⟨us, hus⟩ := (h.options s hs).exists_stated
      exact ⟨us, .option hus⟩
    · obtain ⟨us, hus⟩ := exists_numberedWritten v.name v.number (h.values v hv).options
      exact ⟨us, .value (h.values v hv).name hus⟩
  obtain ⟨us, hus⟩ := Each.exists_each hpart
  exact ⟨_, Enum.written_parts h.comment hus⟩

/-- A field in a group of alternatives is spelled as a group of its own. -/
theorem Field.Spellable.exists_part {f : Field} (h : f.Spellable) :
    ∃ us, MessagePart.Written Message.Written (.ofField f) us := by
  obtain ⟨us, hus⟩ := h.exists_written
  unfold MessagePart.ofField
  cases hgroup : f.oneof with
  | none =>
    rw [hgroup] at hus
    exact ⟨_, .field hus⟩
  | some group =>
    rw [hgroup] at hus
    have hplain : f.mapKey = none := by
      by_contra hmap
      rw [h.oneof hmap] at hgroup
      cases hgroup
    exact ⟨_, .group (.cons (.field hplain hus) .nil)⟩

theorem Message.Spellable.exists_written {m : Message} (h : m.Spellable) : ∃ us, m.Written us := by
  induction h with
  | @mk m fields messages enums options comment ih =>
    have hpart : ∀ part ∈ m.parts, ∃ us, MessagePart.Written Message.Written part us := by
      intro part hpart
      simp only [Message.parts, List.mem_append, List.mem_map] at hpart
      rcases hpart with ⟨s, hs, rfl⟩ | ⟨e, he, rfl⟩ | ⟨f, hf, rfl⟩ | ⟨n, hn, rfl⟩
      · obtain ⟨us, hus⟩ := (options s hs).exists_stated
        exact ⟨us, .option hus⟩
      · obtain ⟨us, hus⟩ := (enums e he).exists_written
        exact ⟨us, .enum hus⟩
      · exact (fields f hf).exists_part
      · obtain ⟨us, hus⟩ := ih n hn
        exact ⟨us, .message hus⟩
    obtain ⟨us, hus⟩ := Each.exists_each hpart
    exact ⟨_, Message.written_parts comment hus⟩

theorem Rpc.Spellable.exists_written {r : Rpc} (h : r.Spellable) : ∃ us, r.Written us := by
  have hpart : ∀ part ∈ r.options.map .option, ∃ us, OptionPart.Written part us := by
    intro part hpart
    obtain ⟨s, hs, rfl⟩ := List.mem_map.1 hpart
    obtain ⟨us, hus⟩ := (h.options s hs).exists_stated
    exact ⟨us, .option hus⟩
  obtain ⟨us, hus⟩ := Each.exists_each hpart
  exact ⟨_, .mk (.mk h.input) (.mk h.output) (RpcEnd.of_options hus) h.comment⟩

theorem Service.Spellable.exists_written {s : Service} (h : s.Spellable) : ∃ us, s.Written us := by
  have hpart : ∀ part ∈ s.parts, ∃ us, ServicePart.Written part us := by
    intro part hpart
    simp only [Service.parts, List.mem_append, List.mem_map] at hpart
    rcases hpart with ⟨o, ho, rfl⟩ | ⟨r, hr, rfl⟩
    · obtain ⟨us, hus⟩ := (h.options o ho).exists_stated
      exact ⟨us, .option hus⟩
    · obtain ⟨us, hus⟩ := (h.rpcs r hr).exists_written
      exact ⟨us, .rpc hus⟩
  obtain ⟨us, hus⟩ := Each.exists_each hpart
  exact ⟨_, Service.written_parts h.comment hus⟩

theorem File.Spellable.exists_written {f : File} (h : f.Spellable) : ∃ us, f.Written us := by
  have hpart : ∀ part ∈ f.parts, ∃ us, FilePart.Written part us := by
    intro part hpart
    simp only [File.parts, List.mem_cons, List.mem_append, List.mem_map] at hpart
    rcases hpart with rfl | hpackage | ⟨path, _, rfl⟩ | ⟨s, hs, rfl⟩ | ⟨e, he, rfl⟩ | ⟨m, hm, rfl⟩ |
      ⟨s, hs, rfl⟩
    · exact ⟨_, .syntaxName f.syntaxName⟩
    · unfold packageParts at hpackage
      split at hpackage
      · cases hpackage
      · rw [List.mem_singleton.1 hpackage]
        exact ⟨_, .package f.package⟩
    · exact ⟨_, .importFile path .none⟩
    · obtain ⟨us, hus⟩ := (h.options s hs).exists_stated
      exact ⟨us, .option hus⟩
    · obtain ⟨us, hus⟩ := (h.enums e he).exists_written
      exact ⟨us, .enum hus⟩
    · obtain ⟨us, hus⟩ := (h.messages m hm).exists_written
      exact ⟨us, .message hus⟩
    · obtain ⟨us, hus⟩ := (h.services s hs).exists_written
      exact ⟨us, .service hus⟩
  obtain ⟨us, hus⟩ := Each.exists_each hpart
  exact ⟨us, f.parts, hus, f.foldl_parts⟩

end IdlBridge.Proto
