import IdlBridge.Proofs.Draft.FromDocument
import IdlBridge.Proofs.Draft.Growth

/-! # Where fields come from

    A message that is nested in another one is there for a field of that message: the field of a
    property, of the items of an array, or of the values of a map.  Where each kind of nested
    message has its field is told by the names alone (`FieldName`).

    The first field of a name wins, so the place of a field may be taken before its turn.  Every
    field has an `Origin` all the same, and `Traced` messages are those that keep book of both: all
    of their fields have an origin, and the place of the field of every nested message is taken.

    Between the declaration of a nested message and that of its field a message is traced but for
    the names that are still awaited.
-/

namespace IdlBridge

namespace Spec.Schema

/-- The schema of an object. -/
def IsObject : Schema → Prop
  | .object _ _ => True
  | _ => False

/-- The type of what has the schema, converted under a name. -/
def typeName (name : Text) : Schema → Option Text
  | .reference type => some type
  | .scalar type => some type
  | .enumeration _ => some (Naming.camel name)
  | .object _ _ => some name
  | .array (some items) => items.typeName (name ++ "Item")
  | _ => none

end Spec.Schema

namespace Draft

/-- What arrays inside each other put behind a name. -/
def itemEnding : Nat → Text
  | 0 => []
  | k + 1 => "Item" ++ itemEnding k

/-- What the schema of further properties puts behind a name. -/
def valueEnding : Text := "AdditionalProperties"

/-- The second text is the name of the field that a nested message of the first name gets in the
    message of the given name. -/
inductive FieldName (holder : Name) : Text → Text → Prop where
  | property (t : Text) : FieldName holder t (t ++ "Field")
  | items (t : Text) (k : Nat) : FieldName holder (t ++ itemEnding (k + 1)) t
  | values (t : Text) (k : Nat) : holder = .text t →
      FieldName holder (t ++ valueEnding ++ itemEnding k) Piece.additionalField

section Origin

-- Schemas, each with a name under which it is converted.
variable (S : Name → Spec.Schema → Prop)

/-- With a schema come the schemas inside it. -/
structure Closed : Prop where
  items : ∀ t s, S (.text t) (.array (some s)) → S (.text (t ++ "Item")) s
  property : ∀ name ps additional, S name (.object ps additional) → ∀ e ∈ ps, S e.1 e.2
  values : ∀ t ps s, S (.text t) (.object ps (.typed s)) → S (.text (t ++ valueEnding)) s

/-- Where a field of the message `holder` comes from. -/
inductive Origin (holder : Name) : Field → Prop where
  /-- The field has been made from a schema of its name. -/
  | schema {fd : Field} {s : Spec.Schema} : S fd.name s →
      (∀ t, fd.name = .text t → s.typeName t = some fd.type) → Origin holder fd
  /-- The field of the message that a property has become. -/
  | nested (t : Text) : Origin holder { name := .text (t ++ "Field"), type := t }
  /-- The field of one of several responses. -/
  | response (status type : Text) :
      Origin holder { name := .text ("response_" ++ status), type }
  /-- Further properties without a message are texts. -/
  | texts : (∀ t, holder = .text t → ∃ ps additional, S (.text t) (.object ps additional) ∧
      (additional = .untyped ∨ ∃ s, additional = .typed s ∧ ¬ s.IsObject)) →
      Origin holder (Piece.mapField "string")
  /-- Further properties that are messages. -/
  | messages {t : Text} {ps : List (Value × Spec.Schema)} {s : Spec.Schema} :
      holder = .text t → S (.text t) (.object ps (.typed s)) → s.IsObject →
      Origin holder (Piece.mapField (t ++ valueEnding))

end Origin

variable {S : Name → Spec.Schema → Prop} {L L' : Text → Prop}

/-- Names are the same text or both none. -/
def AlikeText (a b : Name) : Prop := ∀ t, a = .text t ↔ b = .text t

theorem alikeText_of_equals {a b : Name} (h : a.equals b = true) : AlikeText a b := by
  have hsame := same_of_equals h
  intro t
  constructor
  · rintro rfl
    cases b with
    | text u =>
      have hu := same_text.1 hsame
      rw [hu]
    | _ => simp [Value.same, Value.sameKey, Value.asInt?] at hsame
  · rintro rfl
    exact same_text.1 hsame

theorem FieldName.alike {a b : Name} {t w : Text} (h : FieldName a t w) (hab : AlikeText a b) :
    FieldName b t w := by
  cases h with
  | property => exact .property t
  | items u k => exact .items w k
  | values u k hu => exact .values u k ((hab u).1 hu)

theorem Origin.alike {a b : Name} {fd : Field} (h : Origin S a fd) (hab : AlikeText a b) :
    Origin S b fd := by
  cases h with
  | schema hs htype => exact .schema hs htype
  | nested t => exact .nested t
  | response status type => exact .response status type
  | texts h => exact .texts fun t ht => h t ((hab t).2 ht)
  | messages ht hs hobject => exact .messages ((hab _).1 ht) hs hobject

/-! ## Messages -/

namespace Message

variable {m n : Message}

/-- The place of the field of a nested message of the name is taken. -/
def Holds (m : Message) (t : Text) : Prop :=
  ∃ w, FieldName m.name t w ∧ .text w ∈ m.fields.map Field.name

/-- All fields have an origin, and the fields of all nested messages have their place, at any
    depth. -/
inductive Traced (S : Name → Spec.Schema → Prop) : Message → Prop where
  | intro {m : Message} : (∀ fd ∈ m.fields, Origin S m.name fd) →
      (∀ n ∈ m.messages, ∃ t, n.name = .text t ∧ m.Holds t) →
      (∀ n ∈ m.messages, n.Traced S) → m.Traced S

/-- The message is traced, but nested messages of some names have no field. -/
structure TracedBut (S : Name → Spec.Schema → Prop) (L : Text → Prop) (m : Message) : Prop where
  fields : ∀ fd ∈ m.fields, Origin S m.name fd
  nested : ∀ n ∈ m.messages, ∃ t, n.name = .text t ∧ (m.Holds t ∨ L t)
  inner : ∀ n ∈ m.messages, n.Traced S

theorem TracedBut.imp (h : m.TracedBut S L) (hL : ∀ t, L t → L' t) : m.TracedBut S L' where
  fields := h.fields
  nested n hn := by
    obtain ⟨t, ht, hholds⟩ := h.nested n hn
    exact ⟨t, ht, hholds.imp id (hL t)⟩
  inner := h.inner

theorem TracedBut.traced (h : m.TracedBut S fun _ => False) : m.Traced S := by
  refine .intro h.fields (fun n hn => ?_) h.inner
  obtain ⟨t, ht, hholds⟩ := h.nested n hn
  exact ⟨t, ht, hholds.resolve_right id⟩

theorem Traced.tracedBut (h : m.Traced S) : m.TracedBut S L := by
  cases h with
  | intro hfields hnested hinner =>
    refine ⟨hfields, fun n hn => ?_, hinner⟩
    obtain ⟨t, ht, hholds⟩ := hnested n hn
    exact ⟨t, ht, Or.inl hholds⟩

theorem tracedBut_empty (name : Name) : TracedBut S L { name } :=
  ⟨nofun, nofun, nofun⟩

/-- A field that is added, or one that has its name already, serves the nested message that has
    waited for it. -/
theorem TracedBut.addField (h : m.TracedBut S L) {fd : Field} (hfd : Origin S m.name fd)
    (hL : ∀ t, L t → L' t ∨ ∃ w, FieldName m.name t w ∧ fd.name = .text w) :
    (m.addField fd).TracedBut S L' where
  fields x hx := by
    rcases mem_addNew hx with hx | rfl
    · exact h.fields x hx
    · exact hfd
  nested n hn := by
    obtain ⟨t, ht, hholds⟩ := h.nested n hn
    refine ⟨t, ht, ?_⟩
    rcases hholds with ⟨w, hw, hmem⟩ | hwait
    · exact Or.inl ⟨w, hw, names_addNew_subset Field.name m.fields fd hmem⟩
    · rcases hL t hwait with hwait | ⟨w, hw, hname⟩
      · exact Or.inr hwait
      · exact Or.inl ⟨w, hw, text_mem_names_addNew m.fields hname⟩
  inner := h.inner

theorem TracedBut.addField_self (h : m.TracedBut S L) {fd : Field} (hfd : Origin S m.name fd) :
    (m.addField fd).TracedBut S L :=
  h.addField hfd fun _ ht => Or.inl ht

theorem TracedBut.addMessage (h : m.TracedBut S L) (hn : n.Traced S) {t : Text}
    (hname : n.name = .text t) : (m.addMessage n).TracedBut S fun u => L u ∨ u = t where
  fields := h.fields
  nested x hx := by
    rcases mem_addNew hx with hx | rfl
    · obtain ⟨u, hu, hholds⟩ := h.nested x hx
      exact ⟨u, hu, hholds.imp id Or.inl⟩
    · exact ⟨t, hname, Or.inr (Or.inr rfl)⟩
  inner x hx := by
    rcases mem_addNew hx with hx | rfl
    · exact h.inner x hx
    · exact hn

theorem TracedBut.addEnum (h : m.TracedBut S L) (e : Enum) : (m.addEnum e).TracedBut S L :=
  ⟨h.fields, h.nested, h.inner⟩

/-- Uniting messages keeps the places of fields: where the other message loses a field, there is one
    of its name. -/
theorem TracedBut.merge (hm : m.TracedBut S L) (hn : n.TracedBut S L)
    (hnames : AlikeText n.name m.name) : (m.merge n).TracedBut S L where
  fields fd hfd := by
    rcases mem_addAllNew hfd with hfd | hfd
    · exact hm.fields fd hfd
    · exact (hn.fields fd hfd).alike hnames
  -- A nested message refers to a field by name, and uniting keeps the names.
  nested x hx := by
    rcases mem_addAllNew hx with hx | hx
    · obtain ⟨t, ht, hholds⟩ := hm.nested x hx
      refine ⟨t, ht, hholds.imp ?_ id⟩
      rintro ⟨w, hw, hmem⟩
      exact ⟨w, hw, names_addAllNew_subset Field.name m.fields n.fields hmem⟩
    · obtain ⟨t, ht, hholds⟩ := hn.nested x hx
      refine ⟨t, ht, hholds.imp ?_ id⟩
      rintro ⟨w, hw, hmem⟩
      exact ⟨w, hw.alike hnames, text_mem_names_addAllNew m.fields hmem⟩
  inner x hx := by
    rcases mem_addAllNew hx with hx | hx
    · exact hm.inner x hx
    · exact hn.inner x hx

end Message

/-! ## Drafts -/

/-- The messages of the draft are traced, but for nested messages of some names: `L` has the name of
    the message and that of the nested one. -/
def File.Traced (S : Name → Spec.Schema → Prop) (L : Text → Text → Prop) (f : File) : Prop :=
  ∀ m ∈ f.messages, m.TracedBut S fun t => ∃ name, m.name = .text name ∧ L name t

/-- The draft of a conversion is traced. -/
def Progress.Traced (S : Name → Spec.Schema → Prop) (L : Text → Text → Prop) (p : Progress) :
    Prop :=
  p.file.Traced S L

variable {B : Text → Text → Prop}

theorem File.Traced.addMessage {f : File} (h : f.Traced S B) {m : Message}
    (hm : m.TracedBut S fun t => ∃ name, m.name = .text name ∧ B name t) :
    (f.addMessage m).Traced S B := by
  unfold File.Traced at h ⊢
  show ∀ x ∈ File.uniteInto f.messages m, _
  generalize f.messages = ms at h
  induction ms with
  | nil =>
    intro x hx
    rw [List.mem_singleton.1 hx]
    exact hm
  | cons a rest ih =>
    obtain ⟨ha, hrest⟩ := List.forall_mem_cons.1 h
    rw [File.uniteInto]
    split
    · next hequals =>
      -- equal names are the same text, so the messages agree on what is excepted
      refine List.forall_mem_cons.2 ⟨ha.merge ?_ ?_, hrest⟩
      · refine hm.imp ?_
        rintro t ⟨name, hname, ht⟩
        exact ⟨name, (alikeText_of_equals hequals name).2 hname, ht⟩
      · intro t
        exact (alikeText_of_equals hequals t).symm
    · exact List.forall_mem_cons.2 ⟨ha, ih hrest⟩

namespace Conversion

theorem keeps_addMessage {m : Message}
    (hm : m.TracedBut S fun t => ∃ name, m.name = .text name ∧ B name t) :
    Keeps (Progress.Traced S B) (update fun f => f.addMessage m) fun _ => True :=
  leads_modify fun _ hp => File.Traced.addMessage hp hm

theorem keeps_addImport (path : Text) :
    Keeps (Progress.Traced S B) (update fun f => f.addImport path) fun _ => True :=
  leads_modify fun _ hp => hp

theorem keeps_addEnum (e : Enum) :
    Keeps (Progress.Traced S B) (update fun f => f.addEnum e) fun _ => True :=
  leads_modify fun _ hp => hp

theorem keeps_textual_eq {I : Progress → Prop} (name : Name) :
    Keeps I (textual name) fun t => name = .text t := by
  unfold textual
  split
  · exact keeps_pure rfl
  · exact keeps_refuse

end Conversion

/-! ## Schemas -/

namespace Piece

open Conversion

/-- What a schema of a name has become. -/
def TracedFrom (S : Name → Spec.Schema → Prop) (s : Spec.Schema) (name : Name) : Piece → Prop
  | .field fd => fd.name = name ∧ ¬ s.IsObject ∧ ∀ t, name = .text t → s.typeName t = some fd.type
  | .message m => m.name = name ∧ s.IsObject ∧ m.Traced S
  | .enum e => ¬ s.IsObject ∧ ∀ t, name = .text t → s.typeName t = some e.name

/-- A nested message of the name waits for the field. -/
def Awaits (t : Text) : Piece → Prop
  | .field fd => ∃ w k, fd.name = .text w ∧ t = w ++ itemEnding (k + 1)
  | _ => False

/-- The parent that is handed back waits for the piece at most. -/
def HolderTraced (S : Name → Spec.Schema → Prop) (L : Text → Prop) (parent : Option Message)
    (r : Piece × Option Message) : Prop :=
  ∀ h, r.2 = some h → (∃ m, parent = some m ∧ h.name = m.name) ∧
    h.TracedBut S fun t => L t ∨ r.1.Awaits t

/-- What a schema of a name becomes in the context of a parent. -/
def Arises (S : Name → Spec.Schema → Prop) (L : Text → Prop) (s : Spec.Schema) (name : Name)
    (parent : Option Message) (r : Piece × Option Message) : Prop :=
  r.1.TracedFrom S s name ∧ HolderTraced S L parent r

theorem HolderTraced.getD {m : Message} {r : Piece × Option Message}
    (h : HolderTraced S L (some m) r) (hm : m.TracedBut S L) :
    (r.2.getD m).name = m.name ∧ (r.2.getD m).TracedBut S fun t => L t ∨ r.1.Awaits t := by
  obtain ⟨piece, holder⟩ := r
  cases holder with
  | none => exact ⟨rfl, hm.imp fun _ => Or.inl⟩
  | some p =>
    obtain ⟨⟨_, hsome, hname⟩, hp⟩ := h p rfl
    cases hsome
    exact ⟨hname, hp⟩

theorem holderTraced_self {parent : Option Message} {piece : Piece}
    (h : ∀ m, parent = some m → m.TracedBut S L) : HolderTraced S L parent (piece, parent) :=
  fun m hm => ⟨⟨m, hm, rfl⟩, (h m hm).imp fun _ => Or.inl⟩

/-- The field of an array has been waited for by the message of its items. -/
theorem fieldName_of_awaits {fd : Field} {t : Text} (h : Awaits t (.field fd)) (holder : Name) :
    ∃ w, FieldName holder t w ∧ fd.name = .text w := by
  obtain ⟨w, k, hname, rfl⟩ := h
  exact ⟨w, .items w k, hname⟩

/-- Fields of schemas have their schemas as origins. -/
theorem TracedFrom.origin {s : Spec.Schema} {name holder : Name} {fd : Field} (hs : S name s)
    (h : TracedFrom S s name (.field fd)) : Origin S holder fd := by
  obtain ⟨rfl, -, htype⟩ := h
  exact .schema hs htype

theorem keeps_attach_traced {I : Progress → Prop} {m : Message} {s : Spec.Schema} {name : Name}
    {piece : Piece} (hm : m.TracedBut S fun t => L t ∨ piece.Awaits t) (hs : S name s)
    (hpiece : piece.TracedFrom S s name) :
    Keeps I (attach m name piece) fun m' => m'.name = m.name ∧ m'.TracedBut S L := by
  cases piece with
  | field fd =>
    refine keeps_pure ⟨rfl, hm.addField (hpiece.origin hs) ?_⟩
    intro t ht
    exact ht.imp id fun hwait => fieldName_of_awaits hwait m.name
  | message nested =>
    obtain ⟨hname, -, hnested⟩ := hpiece
    unfold attach
    refine keeps_bind (keeps_textual_eq name) fun t ht => keeps_pure ⟨rfl, ?_⟩
    subst ht
    refine (hm.addMessage hnested hname).addField (.nested t) ?_
    -- of the names that are awaited, the new one is served by the field
    rintro u ((hu | hu) | rfl)
    · exact Or.inl hu
    · cases hu
    · exact Or.inr ⟨_, .property u, rfl⟩
  | enum e =>
    refine keeps_pure ⟨rfl, (hm.addEnum e).imp ?_⟩
    rintro t (ht | ht)
    · exact ht
    · cases ht

theorem keeps_placeItems_traced {m : Message} {t : Text} (hname : m.name = .text (t ++ "Item"))
    (hm : m.Traced S) {parent holder : Option Message}
    (hholder : ∀ h, holder = some h → (∃ p, parent = some p ∧ h.name = p.name) ∧
      h.TracedBut S L) (type : Text) :
    Keeps (Progress.Traced S B) (placeItems m holder) fun h => HolderTraced S L parent
      (.field { name := .text t, type, repeated := true }, h) := by
  unfold placeItems
  split
  · next h =>
    obtain ⟨hparent, hh⟩ := hholder h rfl
    refine keeps_pure ?_
    rintro _ ⟨⟩
    refine ⟨hparent, (hh.addMessage hm hname).imp ?_⟩
    rintro u (hu | rfl)
    · exact Or.inl hu
    · exact Or.inr ⟨t, 0, rfl, by rw [itemEnding, itemEnding, List.append_nil]⟩
  · exact keeps_bind (keeps_addMessage hm.tracedBut) fun _ _ => keeps_pure (by rintro _ ⟨⟩)

theorem keeps_importFor_traced (type : Text) :
    Keeps (Progress.Traced S B) (importFor type) fun _ => True := by
  unfold importFor
  split
  · exact keeps_addImport _
  · exact keeps_pure trivial

/-! ### Arrays -/

section Arrays

variable {items : Spec.Schema} {t : Text} {parent holder : Option Message}

/-- What waits for the field of the items waits for that of the array. -/
theorem Arises.array_of_field {fd : Field}
    (h : Arises S L items (.text (t ++ "Item")) parent (.field fd, holder)) :
    Arises S L (.array (some items)) (.text t) parent
      (.field { name := .text t, type := fd.type, repeated := true }, holder) := by
  obtain ⟨⟨hname, -, htype⟩, hholder⟩ := h
  refine ⟨⟨rfl, id, ?_⟩, fun m hm => ?_⟩
  · rintro _ ⟨⟩
    exact htype _ rfl
  · obtain ⟨hparent, hm⟩ := hholder m hm
    refine ⟨hparent, hm.imp ?_⟩
    rintro u (hu | ⟨w, k, hw, rfl⟩)
    · exact Or.inl hu
    · rw [hname] at hw
      cases hw
      exact Or.inr ⟨t, k + 1, rfl, List.append_assoc t _ _⟩

theorem Arises.array_of_enum {e : Enum}
    (h : Arises S L items (.text (t ++ "Item")) parent (.enum e, holder)) :
    Arises S L (.array (some items)) (.text t) parent
      (.field { name := .text t, type := e.name, repeated := true }, holder) := by
  obtain ⟨⟨-, htype⟩, hholder⟩ := h
  refine ⟨⟨rfl, id, ?_⟩, fun m hm => ?_⟩
  · rintro _ ⟨⟩
    exact htype _ rfl
  · obtain ⟨hparent, hm⟩ := hholder m hm
    refine ⟨hparent, hm.imp ?_⟩
    rintro u (hu | hu)
    · exact Or.inl hu
    · cases hu

/-- The message of the items goes where the array is declared. -/
theorem Arises.keeps_array {m : Message}
    (h : Arises S L items (.text (t ++ "Item")) parent (.message m, holder)) :
    Keeps (Progress.Traced S B) (placeItems m holder) fun place =>
      Arises S L (.array (some items)) (.text t) parent
        (.field { name := .text t, type := t ++ "Item", repeated := true }, place) := by
  obtain ⟨⟨hname, hobject, hm⟩, hholder⟩ := h
  -- The message waits for the field of the array, which is made in the same step.
  have hholder' : ∀ p, holder = some p → (∃ q, parent = some q ∧ p.name = q.name) ∧
      p.TracedBut S L := by
    intro p hp
    obtain ⟨hparent, hp⟩ := hholder p hp
    refine ⟨hparent, hp.imp ?_⟩
    rintro u (hu | hu)
    · exact hu
    · cases hu
  refine (keeps_placeItems_traced hname hm hholder' (t ++ "Item")).mono fun place hplace => ?_
  refine ⟨⟨rfl, id, ?_⟩, hplace⟩
  rintro _ ⟨⟩
  cases items with
  | object ps additional => rfl
  | _ => exact absurd hobject id

end Arrays

/-! ### Further properties -/

section Values

variable {m : Message} {properties : List (Value × Spec.Schema)} {values : Spec.Schema} {t : Text}
  {parent holder : Option Message}

theorem arises_untyped {name : Name} (hs : S name (.object properties .untyped))
    (hname : m.name = name) (hm : m.TracedBut S fun _ => False)
    (hparent : ∀ p, parent = some p → p.TracedBut S L) :
    Arises S L (.object properties .untyped) name parent
      (.message (m.addField (mapField "string")), parent) := by
  have horigin : Origin S m.name (mapField "string") := by
    refine .texts fun t ht => ⟨properties, .untyped, ?_, Or.inl rfl⟩
    have ht' : name = .text t := hname.symm.trans ht
    exact ht' ▸ hs
  exact ⟨⟨hname, trivial, (hm.addField_self horigin).traced⟩, holderTraced_self hparent⟩

/-- Values without a message are read as texts, and their items go without a field. -/
theorem arises_texts (hs : S (.text t) (.object properties (.typed values)))
    (hname : m.name = .text t) {value : Piece}
    (hm : m.TracedBut S fun u => False ∨ value.Awaits u)
    (hvalue : value.TracedFrom S values (.text (t ++ valueEnding))) (hobject : ¬ values.IsObject)
    (hparent : ∀ p, parent = some p → p.TracedBut S L) :
    Arises S L (.object properties (.typed values)) (.text t) parent
      (.message (m.addField (mapField "string")), parent) := by
  refine ⟨⟨hname, trivial, Message.TracedBut.traced ?_⟩, holderTraced_self hparent⟩
  refine hm.addField (.texts fun u hu => ?_) ?_
  · rw [hname] at hu
    cases hu
    exact ⟨properties, .typed values, hs, Or.inr ⟨values, rfl, hobject⟩⟩
  · -- Only an array leaves a message that waits for a field, and the field of the texts takes its
    -- place.
    rintro u (hu | hu)
    · cases hu
    · refine Or.inr ⟨additionalField, ?_, rfl⟩
      cases value with
      | field fd =>
        obtain ⟨w, k, hw, rfl⟩ := hu
        rw [hvalue.1] at hw
        cases hw
        exact .values t (k + 1) hname
      | _ => cases hu

theorem arises_messages (hs : S (.text t) (.object properties (.typed values)))
    (hname : m.name = .text t) {v : Message}
    (hm : m.TracedBut S fun u => False ∨ (Piece.message v).Awaits u)
    (hvalue : (Piece.message v).TracedFrom S values (.text (t ++ valueEnding)))
    (hparent : ∀ p, parent = some p → p.TracedBut S L) :
    Arises S L (.object properties (.typed values)) (.text t) parent
      (.message ((m.addMessage v).addField (mapField (t ++ valueEnding))), parent) := by
  obtain ⟨hvname, hobject, hv⟩ := hvalue
  refine ⟨⟨hname, trivial, Message.TracedBut.traced ?_⟩, holderTraced_self hparent⟩
  refine (hm.addMessage hv hvname).addField (.messages hname hs hobject) ?_
  rintro u ((hu | hu) | rfl)
  · cases hu
  · cases hu
  · refine Or.inr ⟨additionalField, ?_, rfl⟩
    have hvalues : FieldName m.name (t ++ valueEnding ++ itemEnding 0) additionalField :=
      .values t 0 hname
    rwa [itemEnding, List.append_nil] at hvalues

end Values

/-! ### Enumerations -/

/-- Without a parent an enumeration is what the schema becomes. -/
theorem arises_enum (values : List Text) (t : Text) :
    Arises S L (.enumeration values) (.text t) none (.enum (enumeration t values), none) := by
  refine ⟨⟨id, ?_⟩, by rintro _ ⟨⟩⟩
  rintro _ ⟨⟩
  rfl

/-- In a parent it is declared there, and a field of its type takes the place of the schema. -/
theorem arises_nestedEnum (values : List Text) (t : Text) {m : Message}
    (hm : m.TracedBut S L) :
    Arises S L (.enumeration values) (.text t) (some m)
      (.field { name := .text t, type := (enumeration t values).name },
        some (m.addEnum (enumeration t values))) := by
  refine ⟨⟨rfl, id, ?_⟩, ?_⟩
  · rintro _ ⟨⟩
    rfl
  · rintro _ ⟨⟩
    exact ⟨⟨m, rfl, rfl⟩, (hm.addEnum _).imp fun _ => Or.inl⟩

/-! ### All schemas -/

mutual

/-- Converting a schema keeps the draft traced, and what the schema becomes is traced as well. -/
theorem keeps_ofSchema_traced (hS : Closed S) (s : Spec.Schema) (name : Name) (hs : S name s)
    (L : Text → Prop) {parent : Option Message} (hparent : ∀ m, parent = some m → m.TracedBut S L) :
    Keeps (Progress.Traced S B) (ofSchema s name parent) (Arises S L s name parent) := by
  match s with
  | .reference type =>
    unfold ofSchema
    exact keeps_pure ⟨⟨rfl, id, fun _ _ => rfl⟩, holderTraced_self hparent⟩
  | .array none =>
    unfold ofSchema
    exact keeps_bind (keeps_shown name) fun _ _ => keeps_throw _
  | .array (some items) =>
    unfold ofSchema
    refine keeps_bind (keeps_textual_eq name) fun t ht => ?_
    subst ht
    have hitems := hS.items t items hs
    refine keeps_bind (keeps_ofSchema_traced hS items _ hitems L hparent) ?_
    rintro ⟨item, holder⟩ hitem
    cases item with
    | field fd => exact keeps_pure hitem.array_of_field
    | enum e => exact keeps_bind (keeps_addEnum e) fun _ _ => keeps_pure hitem.array_of_enum
    | message m => exact keeps_bind hitem.keeps_array fun _ h => keeps_pure h
  | .object properties additional =>
    unfold ofSchema
    have hproperties := hS.property name properties additional hs
    refine keeps_bind (keeps_ofProperties_traced hS properties hproperties
      (Message.tracedBut_empty name)) ?_
    rintro m ⟨hname, hm⟩
    match additional with
    | .closed => exact keeps_pure ⟨⟨hname, trivial, hm.traced⟩, holderTraced_self hparent⟩
    | .untyped => exact keeps_pure (arises_untyped hs hname hm hparent)
    | .typed s =>
      refine keeps_bind (keeps_textual_eq name) fun t ht => ?_
      subst ht
      have hvalues := hS.values t properties s hs
      -- The values are declared in the message of the object, not in the one around it.
      have hsome : ∀ m', some m = some m' → m'.TracedBut S fun _ => False := by
        rintro _ ⟨⟩
        exact hm
      refine keeps_bind (keeps_ofSchema_traced hS s _ hvalues (fun _ => False) hsome) ?_
      rintro ⟨value, holder⟩ ⟨hvalue, hholder⟩
      obtain ⟨hname', hholder⟩ := hholder.getD hm
      have hsame := hname'.trans hname
      cases value with
      | message v => exact keeps_pure (arises_messages hs hsame hholder hvalue hparent)
      | field fd => exact keeps_pure (arises_texts hs hsame hholder hvalue hvalue.2.1 hparent)
      | enum e => exact keeps_pure (arises_texts hs hsame hholder hvalue hvalue.1 hparent)
  | .enumeration values =>
    unfold ofSchema
    refine keeps_bind (keeps_textual_eq name) fun t ht => ?_
    subst ht
    cases parent with
    | none => exact keeps_pure (arises_enum values t)
    | some m => exact keeps_pure (arises_nestedEnum values t (hparent m rfl))
  | .scalar type =>
    unfold ofSchema
    refine keeps_bind (keeps_importFor_traced type) fun _ _ => ?_
    exact keeps_pure ⟨⟨rfl, id, fun _ _ => rfl⟩, holderTraced_self hparent⟩
  | .untyped =>
    unfold ofSchema
    exact keeps_throw _
  | .unknownType shown =>
    unfold ofSchema
    exact keeps_throw _
  | .misshapen =>
    unfold ofSchema
    exact keeps_refuse

theorem keeps_ofProperties_traced (hS : Closed S) (ps : List (Value × Spec.Schema))
    (hps : ∀ e ∈ ps, S e.1 e.2) {m : Message} (hm : m.TracedBut S fun _ => False) :
    Keeps (Progress.Traced S B) (ofSchema.ofProperties ps m)
      fun m' => m'.name = m.name ∧ m'.TracedBut S fun _ => False := by
  match ps with
  | [] =>
    unfold ofSchema.ofProperties
    exact keeps_pure ⟨rfl, hm⟩
  | (name, s) :: rest =>
    obtain ⟨hs, hrest⟩ := List.forall_mem_cons.1 hps
    unfold ofSchema.ofProperties
    have hparent : ∀ m', some m = some m' → m'.TracedBut S fun _ => False := by
      rintro _ ⟨⟩
      exact hm
    refine keeps_bind (keeps_within
      (keeps_ofSchema_traced hS s name hs (fun _ => False) hparent) _ _) ?_
    rintro ⟨piece, holder⟩ ⟨hpiece, hholder⟩
    obtain ⟨hname, hholder⟩ := hholder.getD hm
    refine keeps_bind (keeps_attach_traced hholder hs hpiece) ?_
    rintro m' ⟨hname', hm'⟩
    refine (keeps_ofProperties_traced hS rest hrest hm').mono ?_
    rintro m'' ⟨hname'', hm''⟩
    exact ⟨hname''.trans (hname'.trans hname), hm''⟩

end

end Piece

end Draft

end IdlBridge
