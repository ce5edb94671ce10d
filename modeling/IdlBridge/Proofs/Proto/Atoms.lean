import IdlBridge.Proofs.Idl.Constant
import IdlBridge.Proto.Source
import IdlBridge.Proto.Token

/-! # Atoms of Protocol Buffers sources

    The atoms that spell a source.  Inside a declaration options come first, then enumerations,
    fields and messages; a file has its enumerations before its messages.  A source is *regular*
    if nothing in it is lost in its atoms and nothing in its atoms reads as something else.
-/

namespace IdlBridge.Proto

open Idl

/-- An atom of this language. -/
abbrev Atom := Idl.Atom Word

/-- A keyword. -/
def keywordAtom (k : Word) : Atom := .word k.spelling

theorem kind_keyword (k : Word) : (keywordAtom k).kind = .keyword k := by
  have hspelling : (Keyword.ofWord? k.spelling : Option Word) = some k := by
    cases k <;> decide
  show Lexicon.wordKind k.spelling = _
  unfold Lexicon.wordKind
  rw [hspelling]

/-- The word is no keyword. -/
def IsName (w : Text) : Prop := (Keyword.ofWord? w : Option Word) = none

instance (w : Text) : Decidable (IsName w) := inferInstanceAs (Decidable (_ = none))

theorem kind_word {w : Text} (h : IsName w) : (Idl.Atom.word w : Atom).kind = .ident := by
  show Lexicon.wordKind w = _
  unfold Lexicon.wordKind
  rw [h]

theorem eq_spelling_of_kind_word {w : Text} {k : Word}
    (h : (Idl.Atom.word w : Atom).kind = .keyword k) : w = k.spelling := by
  have hkind : Lexicon.wordKind w = Kind.keyword k := h
  unfold Lexicon.wordKind at hkind
  split at hkind
  · next k' hk' =>
    cases hkind
    have := List.find?_some hk'
    rw [decide_eq_true_eq] at this
    exact this.symm
  · cases hkind

/-- Parts with commas between them. -/
def listed (parts : List (List Atom)) : List Atom := [Atom.mark .comma].intercalate parts

@[simp] theorem listed_singleton (a : List Atom) : listed [a] = a := by
  simp [listed]

theorem listed_cons_cons (a b : List Atom) (parts : List (List Atom)) :
    listed (a :: b :: parts) = a ++ .mark .comma :: listed (b :: parts) := by
  simp [listed, List.intercalate]

/-! ## Constants and options -/

/-- The atoms of a constant. -/
def constantAtoms : Value → List Atom
  | .bool b => [.word (if b then "true" else "false")]
  | .int i => [.int i]
  | .text t => [.string t]
  | .list xs => .mark .leftBracket :: (listed (items xs) ++ [.mark .rightBracket])
  | .map es => .mark .leftBrace :: ((entries es).flatten ++ [.mark .rightBrace])
  | _ => []
where
  items : List Value → List (List Atom)
    | [] => []
    | x :: rest => constantAtoms x :: items rest
  entries : List (Value × Value) → List (List Atom)
    | [] => []
    | (k, v) :: rest => (.word k.asText :: .mark .colon :: constantAtoms v) :: entries rest

/-- The atoms of an entry of an aggregate. -/
def entryAtoms (e : Value × Value) : List Atom :=
  .word e.1.asText :: .mark .colon :: constantAtoms e.2

theorem constantAtoms_list (xs : List Value) :
    constantAtoms (.list xs) =
      .mark .leftBracket :: (listed (xs.map constantAtoms) ++ [.mark .rightBracket]) := by
  have hitems : ∀ xs : List Value, constantAtoms.items xs = xs.map constantAtoms := fun xs => by
    induction xs with
    | nil => rfl
    | cons x xs ih => rw [constantAtoms.items, ih, List.map_cons]
  rw [constantAtoms, hitems]

theorem constantAtoms_map (es : Value.Entries) :
    constantAtoms (.map es) =
      .mark .leftBrace :: (es.flatMap entryAtoms ++ [.mark .rightBrace]) := by
  have hentries : ∀ es : List (Value × Value), constantAtoms.entries es = es.map entryAtoms :=
    fun es => by
      induction es with
      | nil => rfl
      | cons e es ih =>
        obtain ⟨k, v⟩ := e
        rw [constantAtoms.entries, ih, List.map_cons]
        rfl
  rw [constantAtoms, hentries, List.flatMap_def]

namespace Setting

/-- The atoms of an option; the name of a custom one stands in parentheses. -/
def atoms (custom : Bool) (s : Setting) : List Atom :=
  (if custom then [.mark .leftParen, .word s.name, .mark .rightParen] else [.word s.name]) ++
    .mark .equals :: constantAtoms s.value

/-- The atoms of an option statement. -/
def statementAtoms (custom : Bool) (s : Setting) : List Atom :=
  keywordAtom .option :: (s.atoms custom ++ [.mark .semicolon])

/-- No points stand in front of the name. -/
structure Regular (s : Setting) : Prop where
  name : s.name.head? ≠ some ('.' : CodePoint)
  value : s.value.IsConstant fun _ => True

end Setting

/-- The atoms of the options between brackets. -/
def bracketedAtoms (ss : List Setting) : List Atom :=
  if ss = [] then []
  else .mark .leftBracket :: (listed (ss.map (Setting.atoms true)) ++ [.mark .rightBracket])

/-! ## Fields and values of enumerations -/

namespace Field

/-- The atoms of the type of a field, with its label. -/
def typeAtoms (f : Field) : List Atom :=
  match f.mapKey with
  | some k => [keywordAtom .map, .mark .leftAngle, .word k, .mark .comma, .word f.typeName,
      .mark .rightAngle]
  | none => (if f.repeated then [keywordAtom .repeated] else []) ++ [.word f.typeName]

/-- The atoms of a field. -/
def atoms (f : Field) : List Atom :=
  f.typeAtoms ++ .word f.name :: .mark .equals :: .int f.number ::
    (bracketedAtoms f.options ++ [.mark .semicolon])

/-- The field stands in no group and has no comment, and its type is no keyword. -/
structure Regular (f : Field) : Prop where
  type : f.mapKey = none → IsName f.typeName
  repeated : f.mapKey ≠ none → f.repeated = false
  oneof : f.oneof = none
  number : f.number.natAbs < Nat.pow 10 Numeral.maxDecimalDigits
  options : ∀ s ∈ f.options, s.Regular
  comment : f.comment = []

end Field

namespace EnumValue

/-- The atoms of a value of an enumeration. -/
def atoms (v : EnumValue) : List Atom :=
  .word v.name :: .mark .equals :: .int v.number :: (bracketedAtoms v.options ++ [.mark .semicolon])

/-- The name is no keyword. -/
structure Regular (v : EnumValue) : Prop where
  name : IsName v.name
  number : v.number.natAbs < Nat.pow 10 Numeral.maxDecimalDigits
  options : ∀ s ∈ v.options, s.Regular

end EnumValue

/-! ## Declarations -/

/-- The atoms of a block in braces. -/
def blockAtoms (k : Word) (name : Text) (body : List Atom) : List Atom :=
  keywordAtom k :: .word name :: .mark .leftBrace :: (body ++ [.mark .rightBrace])

namespace Enum

/-- The atoms of an enumeration. -/
def atoms (e : Enum) : List Atom :=
  blockAtoms .enum e.name
    (e.options.flatMap (Setting.statementAtoms true) ++ e.values.flatMap EnumValue.atoms)

structure Regular (e : Enum) : Prop where
  values : ∀ v ∈ e.values, v.Regular
  options : ∀ s ∈ e.options, s.Regular
  comment : e.comment = []

end Enum

namespace Message

/-- The atoms of a message. -/
def atoms : Message → List Atom
  | { name, fields, messages := nested, enums, options, .. } =>
    blockAtoms .message name
      (options.flatMap (Setting.statementAtoms true) ++ (enums.flatMap Enum.atoms ++
        (fields.flatMap Field.atoms ++ (messages nested).flatten)))
where
  messages : List Message → List (List Atom)
    | [] => []
    | m :: rest => atoms m :: messages rest

theorem atoms_eq (m : Message) : m.atoms =
    blockAtoms .message m.name
      (m.options.flatMap (Setting.statementAtoms true) ++ (m.enums.flatMap Enum.atoms ++
        (m.fields.flatMap Field.atoms ++ m.messages.flatMap atoms))) := by
  have hmessages : ∀ ms : List Message, atoms.messages ms = ms.map atoms := fun ms => by
    induction ms with
    | nil => rfl
    | cons m ms ih => rw [atoms.messages, ih, List.map_cons]
  obtain ⟨name, fields, messages, enums, options, comment⟩ := m
  rw [atoms, hmessages, List.flatMap_def (f := atoms)]

inductive Regular : Message → Prop
  | mk {m : Message} (fields : ∀ f ∈ m.fields, f.Regular) (messages : ∀ n ∈ m.messages, Regular n)
      (enums : ∀ e ∈ m.enums, e.Regular) (options : ∀ s ∈ m.options, s.Regular)
      (comment : m.comment = []) : Regular m

end Message

namespace Rpc

/-- The atoms of a type of a remote procedure. -/
def typeAtoms (streaming : Bool) (type : Text) : List Atom :=
  .mark .leftParen :: ((if streaming then [keywordAtom .stream] else []) ++
    [.word type, .mark .rightParen])

/-- The atoms of the end of a remote procedure. -/
def endAtoms (options : List Setting) : List Atom :=
  if options = [] then [.mark .semicolon]
  else .mark .leftBrace :: (options.flatMap (Setting.statementAtoms true) ++ [.mark .rightBrace])

/-- The atoms of a remote procedure. -/
def atoms (r : Rpc) : List Atom :=
  keywordAtom .rpc :: .word r.name :: (typeAtoms r.clientStreaming r.input ++
    keywordAtom .returns :: (typeAtoms r.serverStreaming r.output ++ endAtoms r.options))

/-- Neither type reads as the mark of a stream. -/
structure Regular (r : Rpc) : Prop where
  input : r.input ≠ Word.stream.spelling
  output : r.output ≠ Word.stream.spelling
  options : ∀ s ∈ r.options, s.Regular
  comment : r.comment = []

end Rpc

namespace Service

/-- The atoms of a service. -/
def atoms (s : Service) : List Atom :=
  blockAtoms .service s.name
    (s.options.flatMap (Setting.statementAtoms true) ++ s.rpcs.flatMap Rpc.atoms)

structure Regular (s : Service) : Prop where
  rpcs : ∀ r ∈ s.rpcs, r.Regular
  options : ∀ o ∈ s.options, o.Regular
  comment : s.comment = []

end Service

namespace File

/-- The atoms of an import. -/
def importAtoms (path : Text) : List Atom :=
  [keywordAtom .importWord, .string path, .mark .semicolon]

/-- The atoms of the package of a file, if it has one. -/
def packageAtoms (package : Text) : List Atom :=
  if package = [] then [] else [keywordAtom .package, .word package, .mark .semicolon]

/-- The atoms of a file. -/
def atoms (f : File) : List Atom :=
  [keywordAtom .syntaxWord, .mark .equals, .string f.syntaxName, .mark .semicolon] ++
    (packageAtoms f.package ++ (f.imports.flatMap importAtoms ++
      (f.options.flatMap (Setting.statementAtoms false) ++ (f.enums.flatMap Enum.atoms ++
        (f.messages.flatMap Message.atoms ++ f.services.flatMap Service.atoms)))))

structure Regular (f : File) : Prop where
  options : ∀ s ∈ f.options, s.Regular
  enums : ∀ e ∈ f.enums, e.Regular
  messages : ∀ m ∈ f.messages, m.Regular
  services : ∀ s ∈ f.services, s.Regular

end File

end IdlBridge.Proto
