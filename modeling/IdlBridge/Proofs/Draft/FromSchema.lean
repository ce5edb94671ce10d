import IdlBridge.Draft.FromSchema
import IdlBridge.Proofs.Computation
import IdlBridge.Proofs.Draft.Distinct

/-! # Distinct declarations from schemas

    A conversion of a schema keeps the draft distinct, also when it fails, and what it gives is
    distinct as well: the piece, and the parent that has been handed through.
-/

namespace IdlBridge.Draft

/-- The draft is distinct. -/
def Progress.Distinct (p : Progress) : Prop :=
  p.file.Distinct

namespace Conversion

variable {α : Type} {I J : Progress → Prop} {Q : α → Prop}

theorem keeps_update {g : File → File} (h : ∀ f, f.Distinct → (g f).Distinct) :
    Keeps Progress.Distinct (update g) fun _ => True :=
  leads_modify fun p hp => h p.file hp

theorem keeps_note (n : Notice) : Keeps Progress.Distinct (note n) fun _ => True :=
  leads_modify fun _ hp => hp

theorem keeps_refuse : Keeps I (refuse : Conversion α) Q :=
  keeps_throw _

theorem keeps_shown (name : Name) : Keeps I (shown name) fun _ => True := by
  unfold shown
  split
  · exact keeps_pure trivial
  · exact keeps_refuse

theorem keeps_textual (name : Name) : Keeps I (textual name) fun _ => True := by
  unfold textual
  split
  · exact keeps_pure trivial
  · exact keeps_refuse

/-- Reporting the place of an error changes nothing but the error. -/
theorem keeps_within {step : Conversion α} (h : Keeps I step Q) (place : Text → Place)
    (name : Name) : Keeps I (within place name step) Q := by
  refine keeps_tryCatch h fun e => ?_
  split
  · exact keeps_bind (keeps_shown name) fun _ _ => keeps_throw _
  · exact keeps_throw _

end Conversion

namespace Piece

open Conversion

/-- The declaration is distinct inside. -/
def Distinct : Piece → Prop
  | .message m => m.Distinct
  | .field _ | .enum _ => True

/-- The message, if there is one, is distinct. -/
def HolderDistinct (parent : Option Message) : Prop :=
  ∀ m, parent = some m → m.Distinct

theorem HolderDistinct.getD {parent : Option Message} (h : HolderDistinct parent) {m : Message}
    (hm : m.Distinct) : (parent.getD m).Distinct := by
  cases parent with
  | none => exact hm
  | some p => exact h p rfl

theorem holderDistinct_some {m : Message} (h : m.Distinct) : HolderDistinct (some m) := by
  intro p hp
  cases hp
  exact h

/-- The piece is distinct, and so is the parent that comes with it. -/
def Settled (r : Piece × Option Message) : Prop :=
  r.1.Distinct ∧ HolderDistinct r.2

theorem keeps_attach {m : Message} (hm : m.Distinct) (name : Name) {piece : Piece}
    (hpiece : piece.Distinct) : Keeps Progress.Distinct (attach m name piece) Message.Distinct := by
  cases piece with
  | field f => exact keeps_pure (hm.addField f)
  | message nested =>
    unfold attach
    refine keeps_bind (keeps_textual name) fun t _ => keeps_pure ?_
    exact (hm.addMessage hpiece).addField _
  | enum e => exact keeps_pure (hm.addEnum e)

theorem distinct_addTo {m : Message} (hm : m.Distinct) {piece : Piece} (hpiece : piece.Distinct) :
    (piece.addTo m).Distinct := by
  cases piece with
  | field f => exact hm.addField f
  | message nested => exact hm.addMessage hpiece
  | enum e => exact hm.addEnum e

theorem keeps_placeItems {m : Message} (hm : m.Distinct) {parent : Option Message}
    (hparent : HolderDistinct parent) :
    Keeps Progress.Distinct (placeItems m parent) HolderDistinct := by
  unfold placeItems
  split
  · next p => exact keeps_pure (holderDistinct_some ((hparent p rfl).addMessage hm))
  · refine keeps_bind (keeps_update fun f hf => hf.addMessage hm) fun _ _ => keeps_pure ?_
    intro p hp
    cases hp

theorem keeps_importFor (type : Text) :
    Keeps Progress.Distinct (importFor type) fun _ => True := by
  unfold importFor
  split
  · exact keeps_update fun f hf => hf.addImport _
  · exact keeps_pure trivial

mutual

theorem keeps_ofSchema (s : Spec.Schema) (name : Name) {parent : Option Message}
    (hparent : HolderDistinct parent) :
    Keeps Progress.Distinct (ofSchema s name parent) Settled := by
  match s with
  | .reference type =>
    unfold ofSchema
    exact keeps_pure ⟨trivial, hparent⟩
  | .array none =>
    unfold ofSchema
    exact keeps_bind (keeps_shown name) fun _ _ => keeps_throw _
  | .array (some items) =>
    unfold ofSchema
    refine keeps_bind (keeps_textual name) fun t _ => ?_
    refine keeps_bind (keeps_ofSchema items _ hparent) ?_
    rintro ⟨item, parent⟩ ⟨hitem, hparent⟩
    cases item with
    | field f => exact keeps_pure ⟨trivial, hparent⟩
    | enum e =>
      refine keeps_bind (keeps_update fun f hf => hf.addEnum e) fun _ _ => ?_
      exact keeps_pure ⟨trivial, hparent⟩
    | message m =>
      refine keeps_bind (keeps_placeItems hitem hparent) fun p hp => ?_
      exact keeps_pure ⟨trivial, hp⟩
  | .object properties additional =>
    unfold ofSchema
    refine keeps_bind (keeps_ofProperties properties (Message.distinct_empty name)) fun m hm => ?_
    match additional with
    | .closed => exact keeps_pure ⟨hm, hparent⟩
    | .untyped => exact keeps_pure ⟨hm.addField _, hparent⟩
    | .typed s =>
      refine keeps_bind (keeps_textual name) fun t _ => ?_
      refine keeps_bind (keeps_ofSchema s _ (holderDistinct_some hm)) ?_
      rintro ⟨value, holder⟩ ⟨hvalue, hholder⟩
      -- The values may have declared something in the message, which stays distinct with it.
      have hm' := hholder.getD hm
      cases value with
      | message v => exact keeps_pure ⟨(hm'.addMessage hvalue).addField _, hparent⟩
      | field f => exact keeps_pure ⟨hm'.addField _, hparent⟩
      | enum e => exact keeps_pure ⟨hm'.addField _, hparent⟩
  | .enumeration values =>
    unfold ofSchema
    refine keeps_bind (keeps_textual name) fun t _ => ?_
    cases parent with
    | none => exact keeps_pure ⟨trivial, hparent⟩
    | some m => exact keeps_pure ⟨trivial, holderDistinct_some ((hparent m rfl).addEnum _)⟩
  | .scalar type =>
    unfold ofSchema
    exact keeps_bind (keeps_importFor type) fun _ _ => keeps_pure ⟨trivial, hparent⟩
  | .untyped =>
    unfold ofSchema
    exact keeps_throw _
  | .unknownType shown =>
    unfold ofSchema
    exact keeps_throw _
  | .misshapen =>
    unfold ofSchema
    exact keeps_refuse

theorem keeps_ofProperties (ps : List (Value × Spec.Schema)) {m : Message} (hm : m.Distinct) :
    Keeps Progress.Distinct (ofSchema.ofProperties ps m) Message.Distinct := by
  match ps with
  | [] =>
    unfold ofSchema.ofProperties
    exact keeps_pure hm
  | (name, s) :: rest =>
    unfold ofSchema.ofProperties
    refine keeps_bind (keeps_within (keeps_ofSchema s name (holderDistinct_some hm)) _ _) ?_
    rintro ⟨piece, holder⟩ ⟨hpiece, hholder⟩
    refine keeps_bind (keeps_attach (hholder.getD hm) name hpiece) fun m' hm' => ?_
    exact keeps_ofProperties rest hm'

end

end Piece

end IdlBridge.Draft
