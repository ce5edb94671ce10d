import IdlBridge.Draft.Printer
import IdlBridge.Proofs.Proto.Atoms
import IdlBridge.Proofs.Proto.Lexing
import IdlBridge.Proofs.Text

/-! # Drafts as sources

    The source that the text of a draft declares.  Everything is in the order in which it is
    written: declarations by name, the values of an enumeration by number, the entries of a
    mapping by key, and the fields of a message by name, which is how they get their numbers.

    A draft is *regular* if its names are words and its constants can be written.  Names may be
    given twice, and only types and values of enumerations must not be keywords.
-/

namespace IdlBridge.Draft

open Idl.Lexicon

/-- Items in the order of their names. -/
def byName {α : Type} (name : α → Text) (xs : List α) : List α :=
  xs.mergeSort fun a b => Text.le (name a) (name b)

/-- Sorting by names goes along with functions that keep them. -/
theorem map_byName {α β : Type} (name : α → Text) (name' : β → Text) (f : α → β) {xs : List α}
    (h : ∀ x ∈ xs, name' (f x) = name x) : (byName name xs).map f = byName name' (xs.map f) :=
  List.map_mergeSort fun a ha b hb => by rw [h a ha, h b hb]

/-- The text has no control characters other than tabs and line ends. -/
def IsPlainText (t : Text) : Prop := ∀ c ∈ t, Proto.isControl c = false

/-- The name is a word. -/
def IsWordName (n : Name) : Prop := n = .text n.asText ∧ isWord n.asText = true

/-- The word is no keyword. -/
def IsTypeName (w : Text) : Prop := isWord w = true ∧ Proto.IsName w

instance (t : Text) : Decidable (IsPlainText t) := inferInstanceAs (Decidable (∀ _ ∈ _, _))

instance (w : Text) : Decidable (IsTypeName w) := inferInstanceAs (Decidable (_ ∧ _))

/-! ## Options -/

namespace Literal

/-- The data that a literal is. -/
def toValue : Literal → Value
  | .text t => .text t
  | .bool b => .bool b
  | .int i => .int i
  | .float x => .float x
  | .list xs => .list (items xs)
  | .map es => .map (entries es)
where
  items : List Literal → List Value
    | [] => []
    | x :: rest => toValue x :: items rest
  entries : List (Text × Literal) → Value.Entries
    | [] => []
    | (k, v) :: rest => (.text k, toValue v) :: entries rest

theorem toValue_list (xs : List Literal) : toValue (.list xs) = .list (xs.map toValue) := by
  have hitems : ∀ xs : List Literal, toValue.items xs = xs.map toValue := fun xs => by
    induction xs with
    | nil => rfl
    | cons x xs ih => rw [toValue.items, ih, List.map_cons]
  rw [toValue, hitems]

theorem toValue_map (es : List (Text × Literal)) :
    toValue (.map es) = .map (es.map fun e => (.text e.1, e.2.toValue)) := by
  have hentries : ∀ es : List (Text × Literal),
      toValue.entries es = es.map fun e => (.text e.1, e.2.toValue) := fun es => by
    induction es with
    | nil => rfl
    | cons e es ih =>
      obtain ⟨k, v⟩ := e
      rw [toValue.entries, ih, List.map_cons]
  rw [toValue, hentries]

end Literal

namespace Setting

/-- The option as it is read. -/
def source (s : Setting) : Proto.Setting := ⟨s.name, s.value.toValue.arranged⟩

structure Regular (s : Setting) : Prop where
  name : isWord s.name = true
  value : s.value.toValue.IsConstant IsPlainText

end Setting

/-! ## Fields -/

/-- The type of a map field. -/
def mapType (key value : Text) : Text := "map<" ++ key ++ ", " ++ value ++ ">"

/-- The types of keys and values, if the type is that of a map field. -/
def mapTypes? (type : Text) : Option (Text × Text) :=
  if Text.startsWith type "map<" then
    (Text.cut? ',' (type.drop 4)).map fun (key, rest) => (key, (rest.drop 1).dropLast)
  else none

theorem mapTypes?_of_isWord {type : Text} (h : isWord type = true) : mapTypes? type = none := by
  have hstarts : Text.startsWith type "map<" = false := by
    rw [Text.startsWith, Bool.eq_false_iff, ne_eq, List.isPrefixOf_iff_prefix]
    intro hstarts
    have := isNamePart_of_isWord h '<' (hstarts.subset (by decide))
    revert this
    decide
  rw [mapTypes?, hstarts]
  rfl

theorem mapTypes?_mapType {key value : Text} (hkey : isWord key = true) :
    mapTypes? (mapType key value) = some (key, value) := by
  -- The key has no comma, so the first comma is the one between the types.
  have hcomma : (',' : CodePoint) ∉ key := by
    intro hc
    have := isNamePart_of_isWord hkey _ hc
    revert this
    decide
  have htype : mapType key value = "map<" ++ (key ++ ("," ++ (" " ++ (value ++ ">")))) := by
    simp only [mapType, List.append_assoc]
    rfl
  have hstarts : Text.startsWith (mapType key value) "map<" = true := by
    rw [htype, Text.startsWith, List.isPrefixOf_iff_prefix]
    exact List.prefix_append _ _
  have hdrop : (mapType key value).drop 4 = key ++ ("," ++ (" " ++ (value ++ ">"))) := by
    rw [htype]
    rfl
  have hcut : Text.cut? ',' (key ++ ("," ++ (" " ++ (value ++ ">")))) =
      some (key, " " ++ (value ++ ">")) := Text.cut?_append hcomma _
  rw [mapTypes?, hstarts, if_pos rfl, hdrop, hcut]
  have hlast : (value ++ (">" : Text)).dropLast = value := List.dropLast_concat
  exact congrArg (fun t => some (key, t)) hlast

namespace Field

/-- The field as it is read. -/
def source (f : Field) (number : Nat) : Proto.Field where
  typeName := ((mapTypes? f.type).map (·.2)).getD f.type
  name := f.name.asText
  number := number
  repeated := f.repeated
  mapKey := (mapTypes? f.type).map (·.1)
  oneof := none
  options := f.settings.map Setting.source
  comment := []

/-- The type is a word that is no keyword or, unless the field is repeated, a map of such. -/
structure Regular (f : Field) : Prop where
  name : IsWordName f.name
  type : IsTypeName f.type ∨ f.repeated = false ∧
    ∃ key value, f.type = mapType key value ∧ IsTypeName key ∧ IsTypeName value
  settings : ∀ s ∈ f.settings, s.Regular

end Field

/-- Fields in the order of their names, numbered from one. -/
def numbered (fs : List Field) : List Proto.Field :=
  ((byName (fun f => f.name.asText) fs).zipIdx 1).map fun (f, n) => f.source n

/-! ## Declarations -/

namespace Enum

/-- The enumeration as it is read. -/
def source (e : Enum) : Proto.Enum where
  name := e.name
  values := (e.values.mergeSort fun a b => a.number ≤ b.number).map fun v => ⟨v.name, v.number, []⟩
  options := []
  comment := []

structure Regular (e : Enum) : Prop where
  name : isWord e.name = true
  values : ∀ v ∈ e.values, IsTypeName v.name ∧
    v.number.natAbs < Nat.pow 10 Numeral.maxDecimalDigits

end Enum

namespace Message

/-- The message as it is read. -/
def source : Message → Proto.Message
  | { name, fields, messages := nested, enums, settings } =>
    { name := name.asText
      fields := numbered fields
      messages := byName Proto.Message.name (messages nested)
      enums := (byName Enum.name enums).map Enum.source
      options := settings.map Setting.source
      comment := [] }
where
  messages : List Message → List Proto.Message
    | [] => []
    | m :: rest => source m :: messages rest

theorem name_source (m : Message) : m.source.name = m.name.asText := by
  cases m
  rfl

theorem messages_source (m : Message) :
    m.source.messages = (byName (fun n => n.name.asText) m.messages).map source := by
  have hmessages : ∀ ms : List Message, source.messages ms = ms.map source := fun ms => by
    induction ms with
    | nil => rfl
    | cons m ms ih => rw [source.messages, ih, List.map_cons]
  cases m
  rw [source, hmessages, map_byName _ Proto.Message.name _ fun n _ => name_source n]

inductive Regular : Message → Prop
  | mk {m : Message} (name : IsWordName m.name) (fields : ∀ f ∈ m.fields, f.Regular)
      (count : m.fields.length < Nat.pow 10 Numeral.maxDecimalDigits)
      (messages : ∀ n ∈ m.messages, Regular n) (enums : ∀ e ∈ m.enums, e.Regular)
      (settings : ∀ s ∈ m.settings, s.Regular) : Regular m

end Message

namespace Method

/-- The method as it is read. -/
def source (m : Method) : Proto.Rpc where
  name := m.name.asText
  input := m.input
  output := m.output.asText
  clientStreaming := false
  serverStreaming := false
  options := m.settings.map Setting.source
  comment := []

/-- The types are words other than `stream`. -/
structure Regular (m : Method) : Prop where
  name : IsWordName m.name
  input : isWord m.input = true ∧ m.input ≠ "stream"
  output : IsWordName m.output ∧ m.output.asText ≠ "stream"
  settings : ∀ s ∈ m.settings, s.Regular

end Method

namespace Service

/-- The service as it is read. -/
def source (s : Service) : Proto.Service where
  name := s.name.asText
  rpcs := (byName (fun m => m.name.asText) s.methods).map Method.source
  options := []
  comment := []

structure Regular (s : Service) : Prop where
  name : IsWordName s.name
  methods : ∀ m ∈ s.methods, m.Regular

end Service

namespace File

/-- The file as it is read. -/
def source (f : File) : Proto.File where
  syntaxName := "proto3"
  package := f.package
  imports := byName id f.imports
  options := (Table.sort f.settings).map fun e => ⟨e.1, e.2.arranged⟩
  messages := (byName (fun m => m.name.asText) f.messages).map Message.source
  enums := (byName Enum.name f.enums).map Enum.source
  services := (byName (fun s => s.name.asText) f.services).map Service.source

structure Regular (f : File) : Prop where
  package : f.package = [] ∨ isWord f.package = true
  imports : ∀ p ∈ f.imports, ∀ c ∈ p, c ≠ '"' ∧ c ≠ '\\'
  settings : ∀ e ∈ f.settings, isWord e.1 = true ∧ e.2.IsConstant IsPlainText
  messages : ∀ m ∈ f.messages, m.Regular
  enums : ∀ e ∈ f.enums, e.Regular
  services : ∀ s ∈ f.services, s.Regular

end File

end IdlBridge.Draft
