import IdlBridge.Proofs.Draft.Accounted
import IdlBridge.Proofs.Draft.FromSchema

/-! # Types from schemas

    A schema is converted in the context of a parent, which is the message that will hold the field
    the schema becomes.  What the conversion declares on the way goes into that parent, or into the
    file where there is none, so the type of the field is accounted for in the parent that is handed
    back.
-/

namespace IdlBridge.Draft

variable {refs : List Text} {f g : File}

/-- What filling a message leads to: a message of the same name that is accounted for. -/
structure Message.Filled (refs : List Text) (m : Message) (f : File) (m' : Message) : Prop where
  name : m'.name = m.name
  accounted : m'.Accounted refs f

theorem Message.Filled.trans {m m' m'' : Message} (h : m.Filled refs f m')
    (h' : m'.Filled refs g m'') : m.Filled refs g m'' :=
  ⟨h'.name.trans h.name, h'.accounted⟩

namespace Piece

open Conversion

/-- The schema refers to last segments of the references, and has scalars of the table. -/
abbrev Mentions (refs : List Text) (s : Spec.Schema) : Prop :=
  s.Within (fun type => ∃ ref ∈ refs, type = Naming.ofReference ref) Spec.Schema.IsScalarType

/-- The message that stands for a missing parent declares nothing. -/
def noParent : Message := { name := .null }

theorem within_of_noParent (m : Message) : noParent.Within m where
  messages := fun _ h => absurd h List.not_mem_nil
  enums := fun _ h => absurd h List.not_mem_nil

/-- What is said of a piece of the given name whose parent is `holder`: a field may be put into the
    parent, and a message is accounted for by itself. -/
def Accounted (refs : List Text) (f : File) (name : Name) (holder : Option Message) : Piece → Prop
  | .field fd => TypeAccounted refs f (holder.getD noParent) fd.type
  | .message m => m.name = name ∧ m.Accounted refs f
  | .enum _ => True

/-- The parent that is handed back is accounted for, and it goes by the name of the one that has
    been handed in. -/
def HolderAccounted (refs : List Text) (f : File) (parent holder : Option Message) : Prop :=
  ∀ h, holder = some h → h.Accounted refs f ∧ ∃ m, parent = some m ∧ h.name = m.name

/-- What a schema of a name becomes in the context of a parent. -/
structure Settles (refs : List Text) (name : Name) (parent : Option Message) (f : File)
    (r : Piece × Option Message) : Prop where
  piece : r.1.Accounted refs f name r.2
  holder : HolderAccounted refs f parent r.2

theorem HolderAccounted.mono {parent holder : Option Message}
    (h : HolderAccounted refs f parent holder) (hf : f.Extends g) :
    HolderAccounted refs g parent holder := by
  intro m hm
  obtain ⟨haccounted, hname⟩ := h m hm
  exact ⟨haccounted.mono hf, hname⟩

theorem holderAccounted_self {parent : Option Message}
    (h : ∀ m, parent = some m → m.Accounted refs f) : HolderAccounted refs f parent parent :=
  fun m hm => ⟨h m hm, m, hm, rfl⟩

/-- With a parent handed in, the parent that counts afterwards is the one handed back, if there is
    one, and else the same. -/
theorem HolderAccounted.getD {m : Message} {holder : Option Message}
    (h : HolderAccounted refs f (some m) holder) (hm : m.Accounted refs f) :
    m.Filled refs f (holder.getD m) := by
  cases holder with
  | none => exact ⟨rfl, hm⟩
  | some p =>
    obtain ⟨haccounted, _, hsame, hname⟩ := h p rfl
    cases hsame
    exact ⟨hname, haccounted⟩

theorem within_getD (holder : Option Message) (m : Message) :
    (holder.getD noParent).Within (holder.getD m) := by
  cases holder with
  | none => exact within_of_noParent m
  | some p => exact .refl p

/-! ## Adding pieces -/

theorem brings_attach {p : Progress} (hp : p.file.Accounted refs) {m : Message}
    (hm : m.Accounted refs p.file) {name : Name} {holder : Option Message} {piece : Piece}
    (hwithin : (holder.getD noParent).Within m)
    (hpiece : piece.Accounted refs p.file name holder) :
    Brings (File.Accounted refs) (attach m name piece) p (m.Filled refs) := by
  cases piece with
  | field fd =>
    exact brings_pure hp ⟨rfl, hm.addField (TypeAccounted.mono hpiece (.refl _) hwithin)⟩
  | message nested =>
    obtain ⟨hname, hnested⟩ := hpiece
    unfold attach
    refine (brings_textual hp name).bind fun t q _ hq ht => brings_pure hq ⟨rfl, ?_⟩
    obtain ⟨hfile, rfl⟩ := ht
    rw [hfile]
    -- The field of the nested message has the name of the message that has just been declared.
    refine (hm.addMessage hnested).addField (.inner (Or.inl ?_))
    exact Message.text_mem_messageNames_addMessage m hname
  | enum e => exact brings_pure hp ⟨rfl, hm.addEnum e⟩

theorem accounted_addTo {m : Message} (hm : m.Accounted refs f) {name : Name}
    {holder : Option Message} {piece : Piece} (hwithin : (holder.getD noParent).Within m)
    (hpiece : piece.Accounted refs f name holder) : m.Filled refs f (piece.addTo m) := by
  cases piece with
  | field fd => exact ⟨rfl, hm.addField (TypeAccounted.mono hpiece (.refl _) hwithin)⟩
  | message nested => exact ⟨rfl, hm.addMessage hpiece.2⟩
  | enum e => exact ⟨rfl, hm.addEnum e⟩

/-- The message of array items is declared where the field of the array can see it. -/
theorem brings_placeItems {p : Progress} (hp : p.file.Accounted refs) {m : Message} {t : Text}
    (hname : m.name = .text t) (hm : m.Accounted refs p.file) {parent holder : Option Message}
    (hholder : HolderAccounted refs p.file parent holder) :
    Brings (File.Accounted refs) (placeItems m holder) p fun f h =>
      HolderAccounted refs f parent h ∧ TypeAccounted refs f (h.getD noParent) t := by
  unfold placeItems
  split
  · next h =>
    obtain ⟨haccounted, m', hparent, hsame⟩ := hholder h rfl
    refine brings_pure hp ⟨?_, .inner (Or.inl (Message.text_mem_messageNames_addMessage h hname))⟩
    rintro _ ⟨⟩
    exact ⟨haccounted.addMessage hm, m', hparent, hsame⟩
  · have hext := File.extends_addMessage p.file m
    refine (brings_update hext (hp.addMessage hm)).bind fun _ q _ hq hfile => brings_pure hq ?_
    refine ⟨fun _ hnone => absurd hnone (by simp), .outer (Or.inl ?_)⟩
    rw [hfile, ← File.declares_text, ← hname]
    exact File.declares_addMessage p.file m

/-- Where a scalar needs an import, the import is there afterwards. -/
theorem brings_importFor {p : Progress} (hp : p.file.Accounted refs) {type : Text}
    (htype : Spec.Schema.IsScalarType type) :
    Brings (File.Accounted refs) (importFor type) p
      fun f _ => ∀ m, TypeAccounted refs f m type := by
  unfold importFor
  split
  · next h =>
    have hext := File.extends_addImport p.file ScalarType.timestampImport
    refine (brings_update hext (hp.addImport _)).mono fun f _ hf m => ?_
    rw [h, hf]
    exact .timestamp (File.mem_imports_addImport _ _)
  · next h =>
    refine brings_pure hp fun m => ?_
    rcases htype with htype | htype
    · exact .scalar htype
    · exact absurd htype h

/-! ## Schemas -/

mutual

/-- Converting a schema keeps an accounted draft accounted, and settles what the schema becomes. -/
theorem brings_ofSchema (s : Spec.Schema) (hs : Mentions refs s) (name : Name)
    {parent : Option Message} {p : Progress} (hp : p.file.Accounted refs)
    (hparent : ∀ m, parent = some m → m.Accounted refs p.file) :
    Brings (File.Accounted refs) (ofSchema s name parent) p (Settles refs name parent) := by
  have hself := holderAccounted_self hparent
  match s with
  | .reference type =>
    obtain ⟨ref, href, rfl⟩ := hs
    unfold ofSchema
    exact brings_pure hp ⟨.reference href, hself⟩
  | .array none =>
    unfold ofSchema
    refine (brings_of_keeps hp fun _ => keeps_shown name).bind fun _ _ _ _ _ => ?_
    exact brings_throw _
  | .array (some items) =>
    unfold ofSchema
    refine (brings_textual hp name).bind fun t q hext hq _ => ?_
    -- Items have the parent of their array, which hands on what they declare in it.
    have hparent' : ∀ m, parent = some m → m.Accounted refs q.file :=
      fun m hm => (hparent m hm).mono hext
    refine (brings_ofSchema items hs _ hq hparent').bind ?_
    rintro ⟨item, holder⟩ r hext' hr ⟨hitem, hholder⟩
    cases item with
    | field f => exact brings_pure hr ⟨hitem, hholder⟩
    | enum e =>
      have hext := File.extends_addEnum r.file e
      refine (brings_update hext (hr.addEnum e)).bind fun _ u hext hu hfile => ?_
      refine brings_pure hu ⟨.outer (Or.inr ?_), hholder.mono hext⟩
      rw [hfile]
      exact File.mem_enumNames_addEnum r.file e
    | message m =>
      obtain ⟨hname, hm⟩ := hitem
      refine (brings_placeItems hr hname hm hholder).bind fun h u _ hu hplaced => ?_
      exact brings_pure hu ⟨hplaced.2, hplaced.1⟩
  | .object properties .closed =>
    unfold ofSchema
    refine (brings_ofProperties properties hs hp (Message.accounted_empty name)).bind ?_
    rintro m q hext hq ⟨hname, hm⟩
    exact brings_pure hq ⟨⟨hname, hm⟩, hself.mono hext⟩
  | .object properties .untyped =>
    unfold ofSchema
    refine (brings_ofProperties properties hs hp (Message.accounted_empty name)).bind ?_
    rintro m q hext hq ⟨hname, hm⟩
    exact brings_pure hq ⟨⟨hname, hm.addField .textMap⟩, hself.mono hext⟩
  | .object properties (.typed s) =>
    obtain ⟨hproperties, hs⟩ := hs
    unfold ofSchema
    refine (brings_ofProperties properties hproperties hp (Message.accounted_empty name)).bind ?_
    rintro m q hext hq ⟨hname, hm⟩
    refine (brings_textual hq name).bind fun t r hext' hr _ => ?_
    -- The values of the map have the message with the properties as their parent.
    have hm' : ∀ m', some m = some m' → m'.Accounted refs r.file := by
      rintro _ ⟨⟩
      exact hm.mono hext'
    refine (brings_ofSchema s hs _ hr hm').bind ?_
    rintro ⟨value, holder⟩ u hext'' hu ⟨hvalue, hholder⟩
    obtain ⟨hname', hgetD⟩ := hholder.getD ((hm.mono hext').mono hext'')
    have hself' := ((hself.mono hext).mono hext').mono hext''
    -- Values that are no messages are read as texts, whatever they are.
    have htexts : Settles refs name parent u.file
        (.message ((holder.getD m).addField (mapField "string")), parent) :=
      ⟨⟨hname'.trans hname, hgetD.addField .textMap⟩, hself'⟩
    cases value with
    | message v =>
      obtain ⟨hvname, hv⟩ := hvalue
      refine brings_pure hu ⟨⟨hname'.trans hname, ?_⟩, hself'⟩
      refine (hgetD.addMessage hv).addField (.messageMap ?_)
      exact Message.text_mem_messageNames_addMessage _ hvname
    | field f => exact brings_pure hu htexts
    | enum e => exact brings_pure hu htexts
  | .enumeration values =>
    unfold ofSchema
    refine (brings_textual hp name).bind fun t q hext hq _ => ?_
    -- An enumeration is declared at once where there is a parent, and is the piece where not.
    cases parent with
    | none => exact brings_pure hq ⟨trivial, fun _ h => absurd h (by simp)⟩
    | some m =>
      have hm := (hparent m rfl).mono hext
      refine brings_pure hq ⟨.inner (Or.inr (Message.text_mem_enumNames_addEnum m _)), ?_⟩
      rintro _ ⟨⟩
      exact ⟨hm.addEnum _, m, rfl, rfl⟩
  | .scalar type =>
    unfold ofSchema
    refine (brings_importFor hp hs).bind fun _ q hext hq htype => ?_
    exact brings_pure hq ⟨htype _, hself.mono hext⟩
  | .untyped =>
    unfold ofSchema
    exact brings_throw _
  | .unknownType shown =>
    unfold ofSchema
    exact brings_throw _
  | .misshapen =>
    unfold ofSchema
    exact brings_refuse

/-- Properties are converted with the message they fill as their parent. -/
theorem brings_ofProperties (ps : List (Value × Spec.Schema))
    (hps : Spec.Schema.Within.ofProperties
      (fun type => ∃ ref ∈ refs, type = Naming.ofReference ref) Spec.Schema.IsScalarType ps)
    {m : Message} {p : Progress} (hp : p.file.Accounted refs) (hm : m.Accounted refs p.file) :
    Brings (File.Accounted refs) (ofSchema.ofProperties ps m) p (m.Filled refs) := by
  match ps with
  | [] =>
    unfold ofSchema.ofProperties
    exact brings_pure hp ⟨rfl, hm⟩
  | (name, s) :: rest =>
    obtain ⟨hs, hrest⟩ := hps
    unfold ofSchema.ofProperties
    have hparent : ∀ m', some m = some m' → m'.Accounted refs p.file := by
      rintro _ ⟨⟩
      exact hm
    refine (brings_within (brings_ofSchema s hs name hp hparent) _ _).bind ?_
    rintro ⟨piece, holder⟩ q hext hq ⟨hpiece, hholder⟩
    -- Without a holder the message is the one from before, in a draft that has grown since.
    have hgetD := hholder.getD (hm.mono hext)
    refine (brings_attach hq hgetD.accounted (within_getD holder m) hpiece).bind ?_
    intro m' r hext' hr hm'
    refine (brings_ofProperties rest hrest hr hm'.accounted).mono fun f m'' hm'' => ?_
    exact hgetD.trans (hm'.trans hm'')

end

end Piece

/-! ## Schemas of data -/

namespace Conversion

/-- All references of the data are among `refs`. -/
abbrev Cited (refs : List Text) (v : Value) : Prop :=
  Spec.Schema.ReferencesWithin (fun type => ∃ ref ∈ refs, type = Naming.ofReference ref) v

theorem cited_references (v : Value) : Cited (Spec.references v) v :=
  fun ref href => ⟨ref, href, rfl⟩

theorem Cited.mentions {v : Value} (h : Cited refs v) : Piece.Mentions refs (.ofValue v) :=
  Spec.Schema.within_ofValue v h

theorem Cited.part {es : Value.Entries} (h : Cited refs (.map es)) (key : Text) :
    Cited refs (part es key) := by
  unfold Conversion.part
  cases hv : es.get? (.text key) with
  | none =>
    intro ref href
    rw [Option.getD_none, Spec.references] at href
    · cases href
    all_goals simp
  | some v => exact Spec.Schema.ReferencesWithin.of_get? h hv

theorem cited_nil : Cited refs (.map []) := by
  intro ref href
  rcases Spec.mem_references_map.1 href with h | ⟨e, he, -⟩
  · exact absurd h (by simp [Spec.reference?, Value.Entries.get?])
  · cases he

theorem mentions_of_schemaOf {es : Value.Entries} (h : Cited refs (.map es)) {s : Spec.Schema}
    (hs : schemaOf es = some s) : Piece.Mentions refs s := by
  unfold schemaOf at hs
  dsimp only at hs
  split at hs
  · cases hs
    exact (h.part "schema").mentions
  · cases hs

end Conversion

end IdlBridge.Draft
