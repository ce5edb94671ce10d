import IdlBridge.Proofs.Draft.SchemaTypes

/-! # Declarations from component schemas

    A component schema is converted without a parent, and what it becomes is declared at the top
    level.  An enumeration is declared under the name in camel case, everything else under the name
    as it stands: an object is a message, and any other schema becomes the only field of one.
-/

namespace IdlBridge.Draft

variable {refs : List Text} {f g : File}

/-- The file has the declaration that a component schema leads to. -/
def File.DeclaresComponent (f : File) (name : Text) : Spec.Schema → Prop
  | .enumeration _ => .text (Naming.camel name) ∈ f.enumNames
  | _ => .text name ∈ f.messageNames

theorem File.DeclaresComponent.mono {name : Text} {s : Spec.Schema}
    (h : f.DeclaresComponent name s) (hext : f.Extends g) : g.DeclaresComponent name s := by
  cases s with
  | enumeration values => exact hext.enums h
  | _ => exact hext.messages h

theorem File.declaresComponent_of_message {name : Text} {s : Spec.Schema}
    (hs : ∀ values, s ≠ .enumeration values) (h : f.Declares (.text name)) :
    f.DeclaresComponent name s := by
  cases s with
  | enumeration values => exact absurd rfl (hs values)
  | _ => exact File.declares_text.1 h

namespace Piece

/-- Whether the piece is an enumeration shows whether the schema is one. -/
def Fits (name : Name) (s : Spec.Schema) : Piece → Prop
  | .enum e => ∃ values t, s = .enumeration values ∧ name = .text t ∧ e = enumeration t values
  | _ => ∀ values, s ≠ .enumeration values

/-- Only an enumeration without a parent becomes one: items and properties hand theirs on. -/
theorem fits_of_ofSchema {s : Spec.Schema} {name : Name} {p q : Progress}
    {r : Piece × Option Message} (h : Ends (ofSchema s name none) p r q) : r.1.Fits name s := by
  match s with
  | .reference type =>
    unfold ofSchema at h
    obtain ⟨rfl, -⟩ := ends_pure.1 h
    rintro values ⟨⟩
  | .array none =>
    unfold ofSchema at h
    obtain ⟨_, _, -, h⟩ := ends_bind.1 h
    exact absurd h ends_throw
  | .array (some items) =>
    unfold ofSchema at h
    obtain ⟨_, _, -, h⟩ := ends_bind.1 h
    obtain ⟨⟨item, holder⟩, _, -, h⟩ := ends_bind.1 h
    have hfield : ∀ {fd : Field}, Fits name (.array (some items)) (.field fd) := by
      rintro fd values ⟨⟩
    cases item with
    | field fd =>
      obtain ⟨rfl, -⟩ := ends_pure.1 h
      exact hfield
    | enum e =>
      obtain ⟨_, _, -, h⟩ := ends_bind.1 h
      obtain ⟨rfl, -⟩ := ends_pure.1 h
      exact hfield
    | message m =>
      obtain ⟨_, _, -, h⟩ := ends_bind.1 h
      obtain ⟨rfl, -⟩ := ends_pure.1 h
      exact hfield
  | .object properties additional =>
    unfold ofSchema at h
    obtain ⟨m, _, -, h⟩ := ends_bind.1 h
    have hmessage : ∀ {m : Message}, Fits name (.object properties additional) (.message m) := by
      rintro m values ⟨⟩
    cases additional with
    | closed =>
      obtain ⟨rfl, -⟩ := ends_pure.1 h
      exact hmessage
    | untyped =>
      obtain ⟨rfl, -⟩ := ends_pure.1 h
      exact hmessage
    | typed s =>
      obtain ⟨_, _, -, h⟩ := ends_bind.1 h
      obtain ⟨⟨value, holder⟩, _, -, h⟩ := ends_bind.1 h
      cases value <;> obtain ⟨rfl, -⟩ := ends_pure.1 h <;> exact hmessage
  | .enumeration values =>
    unfold ofSchema at h
    obtain ⟨t, _, hname, h⟩ := ends_bind.1 h
    obtain ⟨rfl, -⟩ := ends_pure.1 h
    -- The name has been read as a text, which is the name of the enumeration.
    have htext := Conversion.brings_textual (I := fun _ => True) trivial name t _ hname
    exact ⟨values, t, rfl, htext.2.2.2, rfl⟩
  | .scalar type =>
    unfold ofSchema at h
    obtain ⟨_, _, -, h⟩ := ends_bind.1 h
    obtain ⟨rfl, -⟩ := ends_pure.1 h
    rintro values ⟨⟩
  | .untyped =>
    unfold ofSchema at h
    exact absurd h ends_throw
  | .unknownType shown =>
    unfold ofSchema at h
    exact absurd h ends_throw
  | .misshapen =>
    unfold ofSchema at h
    exact absurd h ends_throw

end Piece

namespace Conversion

variable {p : Progress}

theorem brings_declareComponent (hp : p.file.Accounted refs) (name : Name) {s : Spec.Schema}
    {piece : Piece} {holder : Option Message}
    (h : Piece.Settles refs name none p.file (piece, holder)) (hfits : piece.Fits name s) :
    Brings (File.Accounted refs) (update (declareComponent name piece)) p
      fun f _ => ∀ t, name = .text t → f.DeclaresComponent t s := by
  obtain ⟨hpiece, hholder⟩ := h
  cases piece with
  | enum e =>
    obtain ⟨values, t, rfl, rfl, rfl⟩ := hfits
    have hext := File.extends_addEnum p.file (Piece.enumeration t values)
    refine (brings_update hext (hp.addEnum _)).mono fun f _ hf => ?_
    rintro _ ⟨⟩
    rw [hf]
    exact File.mem_enumNames_addEnum p.file _
  | field fd =>
    -- Without a parent, nothing is declared in one: what accounts for the type is elsewhere.
    have hm : Message.Accounted refs p.file { name, fields := [fd] } := by
      refine .intro (fun x hx => ?_) (by simp)
      rw [List.mem_singleton.1 hx]
      have hnone : holder = none := by
        cases holder with
        | none => rfl
        | some m =>
          obtain ⟨-, _, habsurd, -⟩ := hholder m rfl
          cases habsurd
      subst hnone
      exact TypeAccounted.mono hpiece (.refl _) (Piece.within_of_noParent _)
    have hext := File.extends_addMessage p.file { name, fields := [fd] }
    refine (brings_update hext (hp.addMessage hm)).mono fun f _ hf => ?_
    rintro t rfl
    rw [hf]
    exact File.declaresComponent_of_message hfits (File.declares_addMessage p.file _)
  | message m =>
    have hext := File.extends_addMessage p.file m
    refine (brings_update hext (hp.addMessage hpiece.2)).mono fun f _ hf => ?_
    rintro t rfl
    rw [hf]
    have hname : m.name = .text t := hpiece.1
    exact File.declaresComponent_of_message hfits (hname ▸ File.declares_addMessage p.file m)

/-- Every component schema that goes by a text is declared, and stays so. -/
theorem brings_addComponents (schemas : List (Value × Value))
    (hschemas : ∀ e ∈ schemas, Cited refs e.2) (hp : p.file.Accounted refs) :
    Brings (File.Accounted refs) (addComponents schemas) p
      fun f _ => ∀ t v, (.text t, v) ∈ schemas → f.DeclaresComponent t (.ofValue v) := by
  induction schemas generalizing p with
  | nil =>
    unfold addComponents
    exact brings_pure hp fun t v h => absurd h List.not_mem_nil
  | cons e rest ih =>
    obtain ⟨name, schema⟩ := e
    obtain ⟨hschema, hrest⟩ := List.forall_mem_cons.1 hschemas
    unfold addComponents
    refine (brings_note hp _).bind fun _ q _ hq _ => ?_
    have hnone : ∀ m : Message, none = some m → m.Accounted refs q.file := by
      rintro _ ⟨⟩
    have hconvert := (Piece.brings_ofSchema _ hschema.mentions name hq hnone).and
      fun _ _ => Piece.fits_of_ofSchema
    refine (brings_within hconvert _ _).bind ?_
    rintro ⟨piece, holder⟩ r _ hr ⟨hsettles, hfits⟩
    refine (brings_declareComponent hr name hsettles hfits).bind fun _ u _ hu hdeclared => ?_
    intro a v hends
    -- The first declaration is kept while the others are made.
    obtain ⟨hext, hv, hothers⟩ := ih hrest hu a v hends
    refine ⟨hext, hv, fun t w hmem => ?_⟩
    rcases List.mem_cons.1 hmem with hfirst | hmem
    · obtain ⟨hname, rfl⟩ := Prod.mk.inj hfirst
      exact (hdeclared t hname.symm).mono hext
    · exact hothers t w hmem

end Conversion

end IdlBridge.Draft
