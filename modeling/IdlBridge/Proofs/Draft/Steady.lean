import IdlBridge.Proofs.Draft.Provenance
import IdlBridge.Proofs.Draft.Union

/-! # Conversions into a message

    A schema that is converted into a parent leaves the messages of the draft alone: what it needs
    besides its own piece goes into the parent.  So neither the piece nor what the parent receives
    depends on the draft, and a conversion that succeeds in one draft succeeds in every draft with
    the same result: it is *steady*.

    What becomes of a schema is told by `Makes`, one rule for each kind of schema: the piece, and
    the `Deposit` in the parent, which is the message or the enumeration that the piece is about.
-/

namespace IdlBridge.Draft

variable {α β : Type}

/-! ## Steady computations -/

/-- The computation succeeds with the result in every draft, and leaves its messages alone. -/
def Steady (x : Conversion α) (a : α) : Prop :=
  ∀ p, ∃ q, Ends x p a q ∧ q.file.messages = p.file.messages

/-- Wherever the computation succeeds, it is steady, and its result satisfies `Q`. -/
def Settles (x : Conversion α) (Q : α → Prop) : Prop :=
  ∀ p a q, Ends x p a q → Steady x a ∧ Q a

theorem ends_unique {x : Conversion α} {p q q' : Progress} {a a' : α} (h : Ends x p a q)
    (h' : Ends x p a' q') : a = a' ∧ q = q' := by
  have heq := h.symm.trans h'
  cases heq
  exact ⟨rfl, rfl⟩

theorem Steady.messages_eq {x : Conversion α} {a a' : α} {p q : Progress} (h : Steady x a)
    (hends : Ends x p a' q) : q.file.messages = p.file.messages := by
  obtain ⟨q', hends', hmessages⟩ := h p
  obtain ⟨-, rfl⟩ := ends_unique hends hends'
  exact hmessages

section Settles

variable {Q Q' : α → Prop} {R : β → Prop}

theorem Settles.mono {x : Conversion α} (h : Settles x Q) (hQ : ∀ a, Steady x a → Q a → Q' a) :
    Settles x Q' := by
  intro p a q hends
  obtain ⟨hsteady, ha⟩ := h p a q hends
  exact ⟨hsteady, hQ a hsteady ha⟩

theorem settles_pure {a : α} (h : Q a) : Settles (pure a) Q := by
  intro p b q hends
  obtain ⟨rfl, -⟩ := ends_pure.1 hends
  exact ⟨fun p => ⟨p, ends_pure.2 ⟨rfl, rfl⟩, rfl⟩, h⟩

theorem settles_throw (e : ConvertError) : Settles (throw e : Conversion α) Q :=
  fun _ _ _ h => absurd h ends_throw

theorem Settles.bind {x : Conversion α} {f : α → Conversion β} (hx : Settles x Q)
    (hf : ∀ a, Q a → Settles (f a) R) : Settles (x >>= f) R := by
  intro p b q hends
  obtain ⟨a, t, ha, hb⟩ := ends_bind.1 hends
  obtain ⟨hsteady, hQ⟩ := hx p a t ha
  obtain ⟨hsteady', hR⟩ := hf a hQ t b q hb
  refine ⟨fun p => ?_, hR⟩
  obtain ⟨t, ha, ht⟩ := hsteady p
  obtain ⟨q, hb, hq⟩ := hsteady' t
  exact ⟨q, ends_bind.2 ⟨a, t, ha, hb⟩, hq.trans ht⟩

end Settles

namespace Conversion

variable {Q : α → Prop}

theorem settles_refuse : Settles (refuse : Conversion α) Q :=
  settles_throw _

theorem settles_textual (name : Name) : Settles (textual name) fun t => name = .text t := by
  unfold textual
  split
  · exact settles_pure rfl
  · exact settles_refuse

theorem settles_update {g : File → File} (h : ∀ f, (g f).messages = f.messages) :
    Settles (update g) fun _ => True :=
  fun _ _ _ _ => ⟨fun p => ⟨_, ends_modify.2 rfl, h p.file⟩, trivial⟩

/-- A step that fails, whatever is said about it. -/
theorem settles_failing {x : Conversion β} (f : β → ConvertError) :
    Settles (x >>= fun b => throw (f b) : Conversion α) Q := by
  intro p a q hends
  obtain ⟨_, _, -, hthrow⟩ := ends_bind.1 hends
  exact absurd hthrow ends_throw

theorem ends_within {step : Conversion α} {place : Text → Place} {name : Name} {p q : Progress}
    {a : α} : Ends (within place name step) p a q ↔ Ends step p a q := by
  constructor
  · intro h
    rcases ends_tryCatch h with hstep | ⟨e, t, hhandler⟩
    · exact hstep
    · -- Both ways of going on end with an error.
      exfalso
      split at hhandler
      · obtain ⟨_, _, -, hthrow⟩ := ends_bind.1 hhandler
        exact ends_throw hthrow
      · exact ends_throw hhandler
  · intro h
    have hrun : step.run.run p = (.ok a, q) := h
    rw [Ends, within, run_tryCatch, hrun]

theorem settles_within {step : Conversion α} (h : Settles step Q) (place : Text → Place)
    (name : Name) : Settles (within place name step) Q := by
  intro p a q hends
  obtain ⟨hsteady, hQ⟩ := h p a q (ends_within.1 hends)
  refine ⟨fun p => ?_, hQ⟩
  obtain ⟨q, hstep, hq⟩ := hsteady p
  exact ⟨q, ends_within.2 hstep, hq⟩

end Conversion

/-! ## Deposits -/

/-- What a message receives besides a field. -/
structure Deposit where
  messages : List Message := []
  enums : List Enum := []

namespace Message

/-- The message with what it receives. -/
def receive (m : Message) (d : Deposit) : Message :=
  { m with
    messages := addAllNew Message.name m.messages d.messages
    enums := addAllNew Enum.key m.enums d.enums }

/-- The message with fields, each of which comes with a deposit. -/
def fill (m : Message) (made : List (Field × Deposit)) : Message :=
  made.foldl (fun m r => (m.receive r.2).addField r.1) m

theorem receive_nothing (m : Message) : m.receive {} = m := by
  obtain ⟨_, _, _, _, _⟩ := m
  rfl

theorem fill_append (m : Message) (made made' : List (Field × Deposit)) :
    m.fill (made ++ made') = (m.fill made).fill made' :=
  List.foldl_append

/-- Each list of a message that is filled grows by itself. -/
theorem fill_eq (m : Message) (made : List (Field × Deposit)) :
    m.fill made =
      { m with
        fields := addAllNew Field.name m.fields (made.map (·.1))
        messages := addAllNew Message.name m.messages (made.flatMap (·.2.messages))
        enums := addAllNew Enum.key m.enums (made.flatMap (·.2.enums)) } := by
  induction made generalizing m with
  | nil => exact (receive_nothing m).symm
  | cons r rest ih =>
    show ((m.receive r.2).addField r.1).fill rest = _
    rw [ih]
    simp only [addAllNew, List.map_cons, List.flatMap_cons, List.foldl_append]
    rfl

end Message

/-! ## What schemas become -/

/-- The schema becomes the piece, wherever it is converted on its own. -/
def Converts (s : Spec.Schema) (name : Name) (piece : Piece) : Prop :=
  Steady (Piece.ofSchema s name none) (piece, none)

theorem Converts.unique {s : Spec.Schema} {name : Name} {piece piece' : Piece}
    (h : Converts s name piece) (h' : Converts s name piece') : piece = piece' := by
  obtain ⟨q, hends, -⟩ := h ⟨{ package := [] }, []⟩
  obtain ⟨q', hends', -⟩ := h' ⟨{ package := [] }, []⟩
  exact (Prod.ext_iff.1 (ends_unique hends hends').1).1

/-- What becomes of a schema in a message: the piece, and what the message receives. -/
inductive Makes : Spec.Schema → Name → Piece → Deposit → Prop
  | reference (type : Text) (name : Name) : Makes (.reference type) name (.field { name, type }) {}
  | scalar (type : Text) (name : Name) : Makes (.scalar type) name (.field { name, type }) {}
  | enumeration (values : List Text) (t : Text) :
      Makes (.enumeration values) (.text t) (.field { name := .text t, type := Naming.camel t })
        { enums := [Piece.enumeration t values] }
  | object {ps : List (Value × Spec.Schema)} {additional : Spec.Additional Spec.Schema}
      {name : Name} {m : Message} :
      Converts (.object ps additional) name (.message m) → m.name = name →
      Makes (.object ps additional) name (.message m) {}
  | items {items : Spec.Schema} {t : Text} {f : Field} {d : Deposit} :
      Makes items (.text (t ++ "Item")) (.field f) d →
      Makes (.array (some items)) (.text t)
        (.field { name := .text t, type := f.type, repeated := true }) d
  | objects {items : Spec.Schema} {t : Text} {m : Message} :
      Makes items (.text (t ++ "Item")) (.message m) {} →
      Makes (.array (some items)) (.text t)
        (.field { name := .text t, type := t ++ "Item", repeated := true }) { messages := [m] }

/-- A message is all that comes of its schema. -/
theorem Makes.deposit_eq {s : Spec.Schema} {name : Name} {m : Message} {d : Deposit}
    (h : Makes s name (.message m) d) : d = {} := by
  cases h
  rfl

/-- The field of a property, and what comes with it. -/
inductive MakesProperty (s : Spec.Schema) : Name → Field × Deposit → Prop
  | field {name : Name} {f : Field} {d : Deposit} :
      Makes s name (.field f) d → MakesProperty s name (f, d)
  | message {t : Text} {m : Message} : Makes s (.text t) (.message m) {} →
      MakesProperty s (.text t)
        ({ name := .text (t ++ "Field"), type := t }, { messages := [m] })

/-- The field for further properties, if there are any, and what comes with it. -/
inductive MakesAdditional : Spec.Additional Spec.Schema → Name → List (Field × Deposit) → Prop
  | closed (name : Name) : MakesAdditional .closed name []
  | untyped (name : Name) : MakesAdditional .untyped name [(Piece.mapField "string", {})]
  | field {s : Spec.Schema} {t : Text} {f : Field} {d : Deposit} :
      Makes s (.text (t ++ valueEnding)) (.field f) d →
      MakesAdditional (.typed s) (.text t) [(Piece.mapField "string", d)]
  | message {s : Spec.Schema} {t : Text} {m : Message} :
      Makes s (.text (t ++ valueEnding)) (.message m) {} →
      MakesAdditional (.typed s) (.text t)
        [(Piece.mapField (t ++ valueEnding), { messages := [m] })]

namespace Piece

open Conversion

/-- The result is what becomes of the schema in the message. -/
def MadeIn (s : Spec.Schema) (name : Name) (m : Message) (r : Piece × Option Message) : Prop :=
  ∃ d, Makes s name r.1 d ∧ r.2 = some (m.receive d)

/-- The result is the message of an object: each property has been added with what comes with it,
    and the further properties have been added behind them. -/
def MadeOf (ps : List (Value × Spec.Schema)) (additional : Spec.Additional Spec.Schema)
    (name : Name) (r : Piece × Option Message) : Prop :=
  ∃ made extra, List.Forall₂ (fun e => MakesProperty e.2 e.1) ps made ∧
    MakesAdditional additional name extra ∧
      r = (.message (({ name } : Message).fill (made ++ extra)), none)

theorem settles_importFor (type : Text) : Settles (importFor type) fun _ => True := by
  unfold importFor
  split
  · exact settles_update fun _ => rfl
  · exact settles_pure trivial

/-- An object has no use for the parent, so it is the same on its own. -/
theorem ofSchema_object (ps : List (Value × Spec.Schema))
    (additional : Spec.Additional Spec.Schema) (name : Name) (parent : Option Message) :
    ofSchema (.object ps additional) name parent =
      ofSchema (.object ps additional) name none >>= fun r => pure (r.1, parent) := by
  unfold ofSchema
  simp only [bind_assoc]
  refine bind_congr fun m => ?_
  cases additional with
  | closed => simp only [pure_bind]
  | untyped => simp only [pure_bind]
  | typed s =>
    simp only [bind_assoc]
    refine bind_congr fun t => bind_congr fun r => ?_
    obtain ⟨value, holder⟩ := r
    cases value <;> simp only [pure_bind]

/-- The message of an object is steady if what is converted into it is. -/
theorem settles_object_of {ps : List (Value × Spec.Schema)}
    {additional : Spec.Additional Spec.Schema} {name : Name}
    (hproperties : Settles (ofSchema.ofProperties ps { name }) fun m =>
      ∃ made, List.Forall₂ (fun e => MakesProperty e.2 e.1) ps made ∧
        m = ({ name } : Message).fill made)
    (hvalues : ∀ s, additional = .typed s → ∀ name m,
      Settles (ofSchema s name (some m)) (MadeIn s name m)) :
    Settles (ofSchema (.object ps additional) name none) (MadeOf ps additional name) := by
  unfold ofSchema
  refine hproperties.bind ?_
  rintro m ⟨made, hmade, rfl⟩
  cases additional with
  | closed =>
    refine settles_pure ⟨made, [], hmade, .closed name, ?_⟩
    rw [List.append_nil]
  | untyped =>
    refine settles_pure ⟨made, _, hmade, .untyped name, ?_⟩
    -- A map of texts is one more field, and deposits nothing.
    have hnothing := Message.receive_nothing (({ name } : Message).fill made)
    rw [Message.fill_append, ← hnothing]
    rfl
  | typed s =>
    refine (settles_textual name).bind fun t ht => ?_
    subst ht
    refine (hvalues s rfl _ _).bind ?_
    rintro ⟨value, holder⟩ ⟨d, hvalue, rfl⟩
    -- What the values deposit comes behind what the properties have made.
    cases value with
    | field f =>
      refine settles_pure ⟨made, _, hmade, .field hvalue, ?_⟩
      rw [Message.fill_append]
      rfl
    | enum e => exact nomatch hvalue
    | message v =>
      obtain rfl := hvalue.deposit_eq
      refine settles_pure ⟨made, _, hmade, .message hvalue, ?_⟩
      rw [Message.fill_append]
      rfl

/-- A property is added to the message of its object with what comes with it. -/
theorem settles_attach {s : Spec.Schema} {name : Name} {m : Message} {piece : Piece} {d : Deposit}
    (hpiece : Makes s name piece d) :
    Settles (attach (m.receive d) name piece) fun m' =>
      ∃ r, MakesProperty s name r ∧ m' = (m.receive r.2).addField r.1 := by
  cases piece with
  | field f => exact settles_pure ⟨(f, d), .field hpiece, rfl⟩
  | enum e => exact nomatch hpiece
  | message n =>
    obtain rfl := hpiece.deposit_eq
    unfold attach
    refine (settles_textual name).bind fun t ht => ?_
    subst ht
    exact settles_pure ⟨_, .message hpiece, rfl⟩

mutual

/-- A conversion into a message is steady. -/
theorem settles_ofSchema (s : Spec.Schema) (name : Name) (m : Message) :
    Settles (ofSchema s name (some m)) (MadeIn s name m) := by
  match s with
  | .reference type =>
    unfold ofSchema
    exact settles_pure ⟨_, .reference type name, by rw [Message.receive_nothing]⟩
  | .array none =>
    unfold ofSchema
    exact settles_failing _
  | .array (some items) =>
    unfold ofSchema
    refine (settles_textual name).bind fun t ht => ?_
    subst ht
    refine (settles_ofSchema items _ m).bind ?_
    rintro ⟨item, holder⟩ ⟨d, hitem, rfl⟩
    cases item with
    | field f => exact settles_pure ⟨d, .items hitem, rfl⟩
    | enum e => exact nomatch hitem
    | message n =>
      -- An object deposits nothing, so placing its message is all that is left.
      obtain rfl := hitem.deposit_eq
      refine settles_pure ⟨_, .objects hitem, ?_⟩
      rw [Message.receive_nothing]
      rfl
  | .object ps additional =>
    rw [ofSchema_object]
    -- Only the values of a map are converted with the message as their parent.
    have hvalues : ∀ s, additional = .typed s → ∀ name m,
        Settles (ofSchema s name (some m)) (MadeIn s name m) := by
      match additional with
      | .closed | .untyped => exact nofun
      | .typed s =>
        rintro _ ⟨⟩
        exact settles_ofSchema s
    have hobject := (settles_object_of (settles_ofProperties ps { name }) hvalues).mono
      fun r hsteady hr => And.intro hsteady hr
    refine hobject.bind ?_
    rintro r ⟨hsteady, made, extra, -, -, rfl⟩
    refine settles_pure ⟨{}, .object hsteady ?_, by rw [Message.receive_nothing]⟩
    rw [Message.fill_eq]
  | .enumeration values =>
    unfold ofSchema
    refine (settles_textual name).bind fun t ht => ?_
    subst ht
    exact settles_pure ⟨_, .enumeration values t, rfl⟩
  | .scalar type =>
    unfold ofSchema
    refine (settles_importFor type).bind fun _ _ => ?_
    exact settles_pure ⟨_, .scalar type name, by rw [Message.receive_nothing]⟩
  | .untyped =>
    unfold ofSchema
    exact settles_throw _
  | .unknownType shown =>
    unfold ofSchema
    exact settles_throw _
  | .misshapen =>
    unfold ofSchema
    exact settles_refuse

/-- So is the conversion of properties into the message of their object. -/
theorem settles_ofProperties (ps : List (Value × Spec.Schema)) (m : Message) :
    Settles (ofSchema.ofProperties ps m) fun m' =>
      ∃ made, List.Forall₂ (fun e => MakesProperty e.2 e.1) ps made ∧ m' = m.fill made := by
  match ps with
  | [] =>
    unfold ofSchema.ofProperties
    exact settles_pure ⟨[], .nil, rfl⟩
  | (name, s) :: rest =>
    unfold ofSchema.ofProperties
    refine (settles_within (settles_ofSchema s name m) _ _).bind ?_
    rintro ⟨piece, holder⟩ ⟨d, hpiece, rfl⟩
    refine (settles_attach hpiece).bind ?_
    rintro m' ⟨r, hr, rfl⟩
    refine (settles_ofProperties rest _).mono ?_
    rintro m'' - ⟨made, hmade, rfl⟩
    exact ⟨r :: made, .cons hr hmade, rfl⟩

end

/-- So is the message of an object. -/
theorem settles_object (ps : List (Value × Spec.Schema))
    (additional : Spec.Additional Spec.Schema) (name : Name) :
    Settles (ofSchema (.object ps additional) name none) (MadeOf ps additional name) :=
  settles_object_of (settles_ofProperties ps _) fun s _ => settles_ofSchema s

end Piece

end IdlBridge.Draft
