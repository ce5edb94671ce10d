import IdlBridge.Proofs.Idl.Grammar
import IdlBridge.Thrift.Source
import IdlBridge.Thrift.Token

/-! # The grammar of Thrift sources

    `Written` says for each declaration which atoms spell it.  The choices that a spelling leaves
    open are alternatives of the relations: separators, default values, the literal of a number,
    the number of an enumeration's value that follows the one before it, annotations without a
    value, and the order of the declarations of a document.  A tree is *regular* if its names can
    stand where they have to, its containers have the right number of element types, and it has
    no comments; every regular tree has a spelling.
-/

namespace IdlBridge.Thrift

open Idl

/-- An atom of this language. -/
abbrev Atom := Idl.Atom Word

/-- The word is not a keyword. -/
def IsIdent (w : Text) : Prop := (Keyword.ofWord? w : Option Word) = none

instance (w : Text) : Decidable (IsIdent w) := inferInstanceAs (Decidable (_ = none))

/-- The word can stand where a type or something else can: it is not a keyword, and not the word
    that introduces what a type is in C++. -/
structure IsName (w : Text) : Prop where
  ident : IsIdent w
  ne : w ≠ "cpp_type"

theorem IsIdent.kind {w : Text} (h : IsIdent w) : (Idl.Atom.word w : Atom).kind = .ident := by
  show Lexicon.wordKind w = _
  unfold Lexicon.wordKind
  rw [h]

/-! ## Constant values -/

/-- An item of a list, and the separator behind it. -/
structure Item where
  value : List Atom
  separator : List Atom

/-- An entry of a map, and the separator behind it. -/
structure Entry where
  key : List Atom
  value : List Atom
  separator : List Atom

def Item.atoms (i : Item) : List Atom := i.value ++ i.separator

def Entry.atoms (e : Entry) : List Atom := e.key ++ .mark .colon :: (e.value ++ e.separator)

/-- A constant value: a literal, a name, a list of values, or a map. -/
inductive ConstantValue : List Atom → Prop
  | string (t : Text) : ConstantValue [.string t]
  | number (t : Text) : ConstantValue [.number t]
  | name {w : Text} (h : IsIdent w) : ConstantValue [.word w]
  | list {items : List Item} (hvalues : ∀ i ∈ items, ConstantValue i.value)
      (hseparators : ∀ i ∈ items, Separator i.separator) :
    ConstantValue (.mark .leftBracket :: (items.flatMap Item.atoms ++ [.mark .rightBracket]))
  | map {entries : List Entry} (hkeys : ∀ e ∈ entries, ConstantValue e.key)
      (hvalues : ∀ e ∈ entries, ConstantValue e.value)
      (hseparators : ∀ e ∈ entries, Separator e.separator) :
    ConstantValue (.mark .leftBrace :: (entries.flatMap Entry.atoms ++ [.mark .rightBrace]))

/-- A default value, which may be left out. -/
inductive Default : List Atom → Prop
  | none : Default []
  | value {us : List Atom} (h : ConstantValue us) : Default (.mark .equals :: us)

/-! ## Annotations and types -/

/-- An annotation; without a value it means `1`. -/
inductive Annotation.Written : Text × Text → List Atom → Prop
  | bare (key : Text) {us : List Atom} (hus : Separator us) : Written (key, "1") (.word key :: us)
  | valued (key : Text) (value : Atom) {us : List Atom}
      (hvalue : value.kind = .string ∨ value.kind = .number ∨ value.kind = .ident)
      (hus : Separator us) :
    Written (key, value.value) (.word key :: .mark .equals :: value :: us)

/-- The annotations of a declaration between parentheses; if there are none, the parentheses may
    be left out. -/
inductive Annotations.Written : Annotations → List Atom → Prop
  | absent : Written [] []
  | listed {notes : Annotations} {us : List Atom} (h : Each Annotation.Written notes us) :
    Written notes (.mark .leftParen :: (us ++ [.mark .rightParen]))

/-- What a type is in C++, which may be left out. -/
inductive CppType : List Atom → Prop
  | none : CppType []
  | named (t : Text) : CppType [.word "cpp_type", .string t]

/-- A type: a name, a list or a set, or a map.  The names of containers may stand alone. -/
inductive TypeRef.Written : TypeRef → List Atom → Prop
  | named {name : Text} {notes : Annotations} {cpp us : List Atom} (hname : IsName name)
      (hcpp : CppType cpp) (hnotes : Annotations.Written notes us) :
    Written ⟨name, [], notes⟩ (.word name :: (cpp ++ us))
  | element {name : Text} {type : TypeRef} {notes : Annotations} {ts cpp us : List Atom}
      (hname : name = "list" ∨ name = "set") (htype : Written type ts) (hcpp : CppType cpp)
      (hnotes : Annotations.Written notes us) :
    Written ⟨name, [type], notes⟩
      (.word name :: .mark .leftAngle :: (ts ++ .mark .rightAngle :: (cpp ++ us)))
  | entry {key value : TypeRef} {notes : Annotations} {ks vs cpp us : List Atom}
      (hkey : Written key ks) (hvalue : Written value vs) (hcpp : CppType cpp)
      (hnotes : Annotations.Written notes us) :
    Written ⟨"map", [key, value], notes⟩
      (.word "map" :: .mark .leftAngle ::
        (ks ++ .mark .comma :: (vs ++ .mark .rightAngle :: (cpp ++ us))))

/-! ## Declarations -/

/-- The number of a field in front of it; any literal of the number will do. -/
inductive FieldId : Option Int → List Atom → Prop
  | none : FieldId none []
  | literal {i : Int} {t : Text} (h : Numeral.intLiteral? t = some i) :
    FieldId (some i) [.number t, .mark .colon]

/-- The mark of a field. -/
def Requiredness.atoms : Requiredness → List Atom
  | .unmarked => []
  | .required => [.keyword .required]
  | .optional => [.keyword .optional]

/-- A field. -/
inductive Field.Written : Field → List Atom → Prop
  | mk {f : Field} {id type value notes us : List Atom} (hid : FieldId f.id id)
      (htype : f.type.Written type) (hname : IsName f.name) (hvalue : Default value)
      (hnotes : Annotations.Written f.annotations notes) (hus : Separator us)
      (hcomment : f.comment = []) :
    Written f
      (id ++ (f.requiredness.atoms ++ (type ++ .word f.name :: (value ++ (notes ++ us)))))

/-- The number of an enumeration's value, which may be left out if it is the next one. -/
inductive EnumNumber (next : Int) : Int → List Atom → Prop
  | next : EnumNumber next next []
  | literal {i : Int} {t : Text} (h : Numeral.intLiteral? t = some i) :
    EnumNumber next i [.mark .equals, .number t]

/-- The values of an enumeration, when `next` is the number of the first one if it has none of its
    own.  Annotations of values are read and dropped. -/
inductive EnumValues : (next : Int) → List EnumValue → List Atom → Prop
  | nil (next : Int) : EnumValues next [] []
  | cons {next : Int} {v : EnumValue} {values : List EnumValue} {dropped : Annotations}
      {number notes us vs : List Atom} (hnumber : EnumNumber next v.value number)
      (hnotes : Annotations.Written dropped notes) (hus : Separator us)
      (hrest : EnumValues (v.value + 1) values vs) :
    EnumValues next (v :: values) (.word v.name :: (number ++ (notes ++ (us ++ vs))))

/-- An enumeration. -/
inductive Enum.Written : Enum → List Atom → Prop
  | mk {e : Enum} {values notes : List Atom} (hvalues : EnumValues 0 e.values values)
      (hnotes : Annotations.Written e.annotations notes) (hcomment : e.comment = []) :
    Written e (.keyword .enum :: .word e.name :: .mark .leftBrace ::
      (values ++ .mark .rightBrace :: notes))

/-- The keyword of a struct, a union or an exception. -/
def StructKind.word : StructKind → Word
  | .struct => .struct
  | .union => .union
  | .exception => .exception

/-- The mark of a struct for XML, which is dropped. -/
inductive XsdAll : List Atom → Prop
  | none : XsdAll []
  | marked : XsdAll [.word "xsd_all"]

/-- A struct, a union or an exception. -/
inductive Struct.Written : Struct → List Atom → Prop
  | mk {s : Struct} {xsd fields notes : List Atom} (hxsd : XsdAll xsd)
      (hfields : Each Field.Written s.fields fields)
      (hnotes : Annotations.Written s.annotations notes) (hcomment : s.comment = []) :
    Written s (.keyword s.kind.word :: .word s.name ::
      (xsd ++ .mark .leftBrace :: (fields ++ .mark .rightBrace :: notes)))

/-- The result of a function. -/
inductive ResultWritten : Option TypeRef → List Atom → Prop
  | void : ResultWritten none [.keyword .void]
  | type {type : TypeRef} {us : List Atom} (h : type.Written us) : ResultWritten (some type) us

/-- The exceptions of a function between parentheses; if there are none, all of it may be left
    out. -/
inductive Throws : List Field → List Atom → Prop
  | none : Throws [] []
  | listed {fields : List Field} {us : List Atom} (h : Each Field.Written fields us) :
    Throws fields (.keyword .throws :: .mark .leftParen :: (us ++ [.mark .rightParen]))

/-- The mark of a function that is not answered. -/
def onewayAtoms (oneway : Bool) : List Atom :=
  if oneway then [.keyword .oneway] else []

/-- A function. -/
inductive Function.Written : Function → List Atom → Prop
  | mk {f : Function} {result arguments throws notes us : List Atom}
      (hresult : ResultWritten f.result result) (hname : IsName f.name)
      (harguments : Each Field.Written f.arguments arguments) (hthrows : Throws f.throws throws)
      (hnotes : Annotations.Written f.annotations notes) (hus : Separator us)
      (hcomment : f.comment = []) :
    Written f (onewayAtoms f.oneway ++ (result ++ .word f.name :: .mark .leftParen ::
      (arguments ++ .mark .rightParen :: (throws ++ (notes ++ us)))))

/-- The service that a service extends. -/
def parentAtoms : Option Text → List Atom
  | none => []
  | some parent => [.keyword .extendsWord, .word parent]

/-- A service. -/
inductive Service.Written : Service → List Atom → Prop
  | mk {s : Service} {functions notes : List Atom}
      (hfunctions : Each Function.Written s.functions functions)
      (hnotes : Annotations.Written s.annotations notes) (hcomment : s.comment = []) :
    Written s (.keyword .service :: .word s.name :: (parentAtoms s.parent ++ .mark .leftBrace ::
      (functions ++ .mark .rightBrace :: notes)))

/-! ## Documents -/

/-- A statement of a document: one that declares something, or one that is dropped. -/
inductive Statement where
  | includeFile (path : Text)
  | namespaceFor (scope target : Text)
  | typedef (t : Typedef)
  | constant (name : Text)
  | enum (e : Enum)
  | struct (s : Struct)
  | service (s : Service)
  | dropped

/-- The document with what a statement declares at the end of its list. -/
def Statement.addTo (d : Document) : Statement → Document
  | .includeFile path => { d with includes := d.includes ++ [path] }
  | .namespaceFor scope target => { d with namespaces := d.namespaces ++ [(scope, target)] }
  | .typedef t => { d with typedefs := d.typedefs ++ [t] }
  | .constant name => { d with constants := d.constants ++ [name] }
  | .enum e => { d with enums := d.enums ++ [e] }
  | .struct s => { d with structs := d.structs ++ [s] }
  | .service s => { d with services := d.services ++ [s] }
  | .dropped => d

/-- The spellings of statements, without what may stand behind them. -/
inductive Statement.Written : Statement → List Atom → Prop
  | includeFile (path : Text) :
    Written (.includeFile path) [.keyword .includeWord, .string path]
  | namespaceText (scope target : Text) {dropped : Annotations} {notes : List Atom}
      (hnotes : Annotations.Written dropped notes) :
    Written (.namespaceFor scope target)
      (.keyword .namespaceWord :: .word scope :: .string target :: notes)
  | namespaceName (scope target : Text) {dropped : Annotations} {notes : List Atom}
      (hnotes : Annotations.Written dropped notes) :
    Written (.namespaceFor scope target)
      (.keyword .namespaceWord :: .word scope :: .word target :: notes)
  | typedef {t : Typedef} {type notes : List Atom} (htype : t.type.Written type)
      (hname : IsName t.name) (hnotes : Annotations.Written t.annotations notes) :
    Written (.typedef t) (.keyword .typedef :: (type ++ .word t.name :: notes))
  | constant {name : Text} {t : TypeRef} {type value : List Atom} (htype : t.Written type)
      (hname : IsName name) (hvalue : ConstantValue value) :
    Written (.constant name) (.keyword .const :: (type ++ .word name :: .mark .equals :: value))
  | enum {e : Enum} {us : List Atom} (h : e.Written us) : Written (.enum e) us
  | struct {s : Struct} {us : List Atom} (h : s.Written us) : Written (.struct s) us
  | service {s : Service} {us : List Atom} (h : s.Written us) : Written (.service s) us
  | cppInclude (path : Text) : Written .dropped [.keyword .cppInclude, .string path]
  | senum {header body : List Atom} (hheader : Without .leftBrace header) (hbody : Balanced body) :
    Written .dropped (.keyword .senum ::
      (header ++ .mark .leftBrace :: (body ++ [.mark .rightBrace])))

/-- A statement with what stands behind it. -/
inductive Statement.Separated : Statement → List Atom → Prop
  | mk {s : Statement} {us vs : List Atom} (h : s.Written us) (hvs : Separator vs) :
    Separated s (us ++ vs)

/-- The document that statements declare. -/
def Document.ofStatements (statements : List Statement) : Document :=
  statements.foldl Statement.addTo .empty

/-- The atoms spell statements, in whatever order, that make up the document. -/
def Document.Written (d : Document) (us : List Atom) : Prop :=
  ∃ statements, Each Statement.Separated statements us ∧ Document.ofStatements statements = d

/-! ## Regular trees -/

/-- A type that can be spelled. -/
inductive TypeRef.Regular : TypeRef → Prop
  | named {name : Text} {notes : Annotations} (hname : IsName name) : Regular ⟨name, [], notes⟩
  | element {name : Text} {type : TypeRef} {notes : Annotations}
      (hname : name = "list" ∨ name = "set") (htype : Regular type) :
    Regular ⟨name, [type], notes⟩
  | entry {key value : TypeRef} {notes : Annotations} (hkey : Regular key)
      (hvalue : Regular value) : Regular ⟨"map", [key, value], notes⟩

structure Field.Regular (f : Field) : Prop where
  type : f.type.Regular
  name : IsName f.name
  comment : f.comment = []

structure Typedef.Regular (t : Typedef) : Prop where
  type : t.type.Regular
  name : IsName t.name

structure Struct.Regular (s : Struct) : Prop where
  fields : ∀ f ∈ s.fields, f.Regular
  comment : s.comment = []

structure Function.Regular (f : Function) : Prop where
  result : ∀ t ∈ f.result, t.Regular
  name : IsName f.name
  arguments : ∀ a ∈ f.arguments, a.Regular
  throws : ∀ a ∈ f.throws, a.Regular
  comment : f.comment = []

structure Service.Regular (s : Service) : Prop where
  functions : ∀ f ∈ s.functions, f.Regular
  comment : s.comment = []

/-- A document whose names can stand where they have to, with one namespace for each scope and
    without comments. -/
structure Document.Regular (d : Document) : Prop where
  scopes : d.namespaces.keys.Nodup
  typedefs : ∀ t ∈ d.typedefs, t.Regular
  constants : ∀ name ∈ d.constants, IsName name
  enums : ∀ e ∈ d.enums, e.comment = []
  structs : ∀ s ∈ d.structs, s.Regular
  services : ∀ s ∈ d.services, s.Regular

theorem Annotations.exists_written (notes : Annotations) : ∃ us, Annotations.Written notes us := by
  have hnote : ∀ note ∈ notes, ∃ u, Annotation.Written note u := by
    intro note _
    obtain ⟨key, value⟩ := note
    exact ⟨_, .valued key (.string value) (Or.inl rfl) .none⟩
  obtain ⟨us, hus⟩ := Each.exists_each hnote
  exact ⟨_, .listed hus⟩

theorem TypeRef.Regular.exists_written {type : TypeRef} (h : type.Regular) :
    ∃ us, type.Written us := by
  induction h with
  | @named name notes hname =>
    obtain ⟨us, hus⟩ := Annotations.exists_written notes
    exact ⟨_, .named hname .none hus⟩
  | @element name type notes hname _ ih =>
    obtain ⟨ts, hts⟩ := ih
    obtain ⟨us, hus⟩ := Annotations.exists_written notes
    exact ⟨_, .element hname hts .none hus⟩
  | @entry key value notes _ _ ihkey ihvalue =>
    obtain ⟨ks, hks⟩ := ihkey
    obtain ⟨vs, hvs⟩ := ihvalue
    obtain ⟨us, hus⟩ := Annotations.exists_written notes
    exact ⟨_, .entry hks hvs .none hus⟩

theorem Field.Regular.exists_written {f : Field} (h : f.Regular) : ∃ us, f.Written us := by
  obtain ⟨type, htype⟩ := h.type.exists_written
  obtain ⟨notes, hnotes⟩ := Annotations.exists_written f.annotations
  have hid : ∃ id, FieldId f.id id := by
    cases f.id with
    | none => exact ⟨_, .none⟩
    | some i =>
      obtain ⟨t, ht⟩ := Numeral.exists_intLiteral i
      exact ⟨_, .literal ht⟩
  obtain ⟨id, hid⟩ := hid
  exact ⟨_, .mk hid htype h.name .none hnotes .none h.comment⟩

theorem exists_enumValues (next : Int) (values : List EnumValue) :
    ∃ us, EnumValues next values us := by
  induction values generalizing next with
  | nil => exact ⟨_, .nil next⟩
  | cons v values ih =>
    obtain ⟨t, ht⟩ := Numeral.exists_intLiteral v.value
    obtain ⟨vs, hvs⟩ := ih (v.value + 1)
    exact ⟨_, .cons (.literal ht) .absent .none hvs⟩

theorem Enum.exists_written {e : Enum} (h : e.comment = []) : ∃ us, e.Written us := by
  obtain ⟨values, hvalues⟩ := exists_enumValues 0 e.values
  obtain ⟨notes, hnotes⟩ := Annotations.exists_written e.annotations
  exact ⟨_, .mk hvalues hnotes h⟩

theorem Struct.Regular.exists_written {s : Struct} (h : s.Regular) : ∃ us, s.Written us := by
  obtain ⟨fields, hfields⟩ := Each.exists_each fun f hf => (h.fields f hf).exists_written
  obtain ⟨notes, hnotes⟩ := Annotations.exists_written s.annotations
  exact ⟨_, .mk .none hfields hnotes h.comment⟩

theorem Function.Regular.exists_written {f : Function} (h : f.Regular) : ∃ us, f.Written us := by
  have hresult : ∃ us, ResultWritten f.result us := by
    cases hr : f.result with
    | none => exact ⟨_, .void⟩
    | some type =>
      obtain ⟨us, hus⟩ := (h.result type hr).exists_written
      exact ⟨_, .type hus⟩
  obtain ⟨result, hresult⟩ := hresult
  obtain ⟨arguments, harguments⟩ := Each.exists_each fun a ha => (h.arguments a ha).exists_written
  obtain ⟨throws, hthrows⟩ := Each.exists_each fun a ha => (h.throws a ha).exists_written
  obtain ⟨notes, hnotes⟩ := Annotations.exists_written f.annotations
  exact ⟨_, .mk hresult h.name harguments (.listed hthrows) hnotes .none h.comment⟩

theorem Service.Regular.exists_written {s : Service} (h : s.Regular) : ∃ us, s.Written us := by
  obtain ⟨functions, hfunctions⟩ := Each.exists_each fun f hf => (h.functions f hf).exists_written
  obtain ⟨notes, hnotes⟩ := Annotations.exists_written s.annotations
  exact ⟨_, .mk hfunctions hnotes h.comment⟩

/-- The declarations of a document as statements, one kind after the other. -/
def Document.statements (d : Document) : List Statement :=
  d.includes.map .includeFile ++ (d.namespaces.map (fun e => .namespaceFor e.1 e.2) ++
    (d.typedefs.map .typedef ++ (d.constants.map .constant ++ (d.enums.map .enum ++
      (d.structs.map .struct ++ d.services.map .service)))))

theorem Document.ofStatements_statements (d : Document) :
    Document.ofStatements d.statements = d := by
  unfold Document.ofStatements Document.statements
  simp only [List.foldl_append]
  rw [foldl_map_eq Statement.addTo .includeFile
    (fun d xs => { d with includes := d.includes ++ xs })
      (by simp) (by simp [Statement.addTo]),
    foldl_map_eq Statement.addTo (fun e : Text × Text => .namespaceFor e.1 e.2)
      (fun d xs => { d with namespaces := d.namespaces ++ xs }) (by simp)
      (by simp [Statement.addTo]),
    foldl_map_eq Statement.addTo .typedef (fun d xs => { d with typedefs := d.typedefs ++ xs })
      (by simp) (by simp [Statement.addTo]),
    foldl_map_eq Statement.addTo .constant (fun d xs => { d with constants := d.constants ++ xs })
      (by simp) (by simp [Statement.addTo]),
    foldl_map_eq Statement.addTo .enum (fun d xs => { d with enums := d.enums ++ xs })
      (by simp) (by simp [Statement.addTo]),
    foldl_map_eq Statement.addTo .struct (fun d xs => { d with structs := d.structs ++ xs })
      (by simp) (by simp [Statement.addTo]),
    foldl_map_eq Statement.addTo .service (fun d xs => { d with services := d.services ++ xs })
      (by simp) (by simp [Statement.addTo])]
  rfl

theorem Document.Regular.exists_written {d : Document} (h : d.Regular) : ∃ us, d.Written us := by
  have hstatement : ∀ s ∈ d.statements, ∃ us, s.Written us := by
    intro s hs
    simp only [Document.statements, List.mem_append, List.mem_map] at hs
    rcases hs with ⟨path, _, rfl⟩ | ⟨e, _, rfl⟩ | ⟨t, ht, rfl⟩ | ⟨name, hname, rfl⟩ | ⟨e, he, rfl⟩ |
      ⟨s, hs, rfl⟩ | ⟨s, hs, rfl⟩
    · exact ⟨_, .includeFile path⟩
    · exact ⟨_, .namespaceText e.1 e.2 .absent⟩
    · obtain ⟨type, htype⟩ := (h.typedefs t ht).type.exists_written
      obtain ⟨notes, hnotes⟩ := Annotations.exists_written t.annotations
      exact ⟨_, .typedef htype (h.typedefs t ht).name hnotes⟩
    · have htype : TypeRef.Written ⟨"i32", [], []⟩ _ :=
        .named ⟨by decide, by decide⟩ .none .absent
      exact ⟨_, .constant htype (h.constants name hname) (.number "0")⟩
    · obtain ⟨us, hus⟩ := Enum.exists_written (h.enums e he)
      exact ⟨_, .enum hus⟩
    · obtain ⟨us, hus⟩ := (h.structs s hs).exists_written
      exact ⟨_, .struct hus⟩
    · obtain ⟨us, hus⟩ := (h.services s hs).exists_written
      exact ⟨_, .service hus⟩
  have hseparated : ∀ s ∈ d.statements, ∃ us, s.Separated us := by
    intro s hs
    obtain ⟨us, hus⟩ := hstatement s hs
    exact ⟨_, .mk hus .none⟩
  obtain ⟨us, hus⟩ := Each.exists_each hseparated
  exact ⟨us, d.statements, hus, d.ofStatements_statements⟩

end IdlBridge.Thrift
