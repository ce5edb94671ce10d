import IdlBridge.Proofs.Spec.References
import IdlBridge.Spec.Schema

/-! # The types that schemas mention

    A schema mentions types in two ways: a reference has the last segment of a `$ref` of the
    document, and a scalar has a Protocol Buffers scalar.  Reading a schema from data invents
    neither, so what the schema mentions is bounded by the references of the data and by the table
    of scalars.
-/

namespace IdlBridge

namespace ScalarType

/-- The Protocol Buffers scalars that scalars of OpenAPI become, points in time aside. -/
def ofOpenApi : List Text := ["string", "int32", "int64", "float", "double", "bool"]

theorem mem_ofOpenApi_of_protoFor? {type p : Text} {format : Option Text}
    (h : protoFor? type format = some p) : p ∈ ofOpenApi ∨ p = timestamp := by
  unfold protoFor? at h
  split at h
  · cases h
    split
    · exact Or.inr rfl
    · exact Or.inl (by decide)
  · split at h
    · cases h
      split <;> exact Or.inl (by decide)
    · split at h
      · cases h
        split <;> exact Or.inl (by decide)
      · split at h
        · cases h
          exact Or.inl (by decide)
        · cases h

end ScalarType

namespace Spec.Schema

/-- The references inside a schema have types that satisfy `P`, its scalars have types that
    satisfy `Q`. -/
def Within (P Q : Text → Prop) : Schema → Prop
  | .reference type => P type
  | .scalar type => Q type
  | .array (some items) => Within P Q items
  | .object properties (.typed s) => ofProperties properties ∧ Within P Q s
  | .object properties _ => ofProperties properties
  | _ => True
where
  ofProperties : List (Value × Schema) → Prop
    | [] => True
    | (_, s) :: rest => Within P Q s ∧ ofProperties rest

variable {P Q : Text → Prop}

/-- The type is one that a scalar of OpenAPI becomes. -/
def IsScalarType (type : Text) : Prop :=
  type ∈ ScalarType.ofOpenApi ∨ type = ScalarType.timestamp

theorem within_ofScalar (type format : Value) : (ofScalar type format).Within P IsScalarType := by
  unfold ofScalar
  dsimp only
  split
  · split
    · next hp =>
      split
      · exact ScalarType.mem_ofOpenApi_of_protoFor? hp
      · exact trivial
    · split <;> exact trivial
  · split
    · split <;> exact trivial
    · exact trivial

theorem within_object {properties : List (Value × Schema)} {additional : Additional Schema}
    (hproperties : Within.ofProperties P Q properties)
    (hadditional : ∀ s, additional = .typed s → s.Within P Q) :
    (Schema.object properties additional).Within P Q := by
  cases additional with
  | closed => exact hproperties
  | untyped => exact hproperties
  | typed s => exact ⟨hproperties, hadditional s rfl⟩

theorem within_ofEnum (values : Value) : (ofEnum values).Within P Q := by
  unfold ofEnum
  split <;> exact trivial

/-- Every reference of the data has a last segment that satisfies `P`. -/
def ReferencesWithin (P : Text → Prop) (v : Value) : Prop :=
  ∀ ref ∈ references v, P (Naming.ofReference ref)

theorem ReferencesWithin.of_mem {es : Value.Entries} (h : ReferencesWithin P (.map es))
    {e : Value × Value} (he : e ∈ es) : ReferencesWithin P e.2 :=
  fun ref href => h ref (mem_references_map.2 (Or.inr ⟨e, he, href⟩))

theorem ReferencesWithin.of_get? {es : Value.Entries} (h : ReferencesWithin P (.map es))
    {t : Text} {v : Value} (hv : es.get? (.text t) = some v) : ReferencesWithin P v :=
  h.of_mem (Value.Entries.mem_of_get? hv)

theorem reference?_of_getD {es : Value.Entries} {t : Text}
    (h : (es.get? (.text "$ref")).getD .null = .text t) : reference? es = some t := by
  unfold reference?
  cases hget : es.get? (.text "$ref") with
  | none =>
    rw [hget] at h
    cases h
  | some v =>
    rw [hget, Option.getD_some] at h
    rw [h]

theorem within_ofProperties {ps : List (Value × Value)}
    (h : ∀ e ∈ ps, (ofValue e.2).Within P IsScalarType) :
    Within.ofProperties P IsScalarType (ofProperties ps) := by
  induction ps with
  | nil =>
    rw [ofProperties]
    exact trivial
  | cons e rest ih =>
    obtain ⟨name, v⟩ := e
    rw [ofProperties]
    exact ⟨h _ List.mem_cons_self, ih fun e he => h e (List.mem_cons_of_mem _ he)⟩

/-- The schema of the additional properties is that of a value of the data. -/
theorem within_additional {es : Value.Entries} (hvalue : ∀ {t : Text} {v : Value},
      Value.Entries.get? es (.text t) = some v → (ofValue v).Within P IsScalarType) {s : Schema}
    (hs : (match _ : Value.Entries.get? es (.text "additionalProperties") with
      | none | some .null | some (.bool false) => .closed
      | some (.map []) => .untyped
      | some (.map (e :: rest)) => .typed (ofEntries (e :: rest))
      | _ => .untyped) = Additional.typed s) : s.Within P IsScalarType := by
  split at hs
  · cases hs
  · cases hs
  · cases hs
  · cases hs
  · next e rest hget =>
    have hwithin := hvalue hget
    rw [ofValue] at hwithin
    cases hs
    exact hwithin
  · cases hs

/-- What is known about the values of a mapping, and of the mappings among them, makes its schema
    lie within bounds. -/
theorem within_ofEntries {es : Value.Entries} (h : ReferencesWithin P (.map es))
    (hvalues : ∀ e ∈ es, (ofValue e.2).Within P IsScalarType)
    (hproperties : ∀ e ∈ es, ∀ ps, e.2 = .map ps →
      ∀ x ∈ ps, (ofValue x.2).Within P IsScalarType) :
    (ofEntries es).Within P IsScalarType := by
  have hvalue : ∀ {t : Text} {v : Value}, Value.Entries.get? es (.text t) = some v →
      (ofValue v).Within P IsScalarType := fun hv => hvalues _ (Value.Entries.mem_of_get? hv)
  rw [ofEntries]
  dsimp only
  split
  · -- a reference
    split
    · next t href => exact h t (mem_references_map.2 (Or.inl (reference?_of_getD href)))
    · exact trivial
  · split
    · exact trivial
    · split
      · -- an array
        split
        · next items hitems =>
          split
          · exact hvalue hitems
          · exact trivial
        · exact trivial
      · split
        · -- an object
          have hadditional := fun s => within_additional (s := s) hvalue
          split
          · exact within_object trivial hadditional
          · next ps hps =>
            refine within_object (within_ofProperties ?_) hadditional
            exact hproperties _ (Value.Entries.mem_of_get? hps) ps rfl
          · split
            · exact trivial
            · exact within_object trivial hadditional
        · split
          · exact within_ofEnum _
          · exact within_ofScalar _ _

/-- What a schema mentions is a reference of the data that it is read from, or a scalar type. -/
theorem within_ofValue (v : Value) (h : ReferencesWithin P v) :
    (ofValue v).Within P IsScalarType := by
  -- Properties lie two levels below their schema, so the induction carries the level in between.
  suffices hboth : (ReferencesWithin P v → (ofValue v).Within P IsScalarType) ∧
      ∀ ps, v = .map ps → ∀ x ∈ ps, ReferencesWithin P x.2 →
        (ofValue x.2).Within P IsScalarType from hboth.1 h
  clear h
  induction v using Value.inductionOn with
  | map es ih =>
    refine ⟨fun h => ?_, ?_⟩
    · rw [ofValue]
      refine within_ofEntries h (fun e he => (ih e he).1 (h.of_mem he)) ?_
      intro e he ps hps x hx
      have he' : ReferencesWithin P (.map ps) := hps ▸ h.of_mem he
      exact (ih e he).2 ps hps x hx (he'.of_mem hx)
    · rintro _ ⟨⟩ x hx
      exact (ih x hx).1
  | list xs _ =>
    refine ⟨fun _ => ?_, ?_⟩
    · rw [ofValue]
      · exact trivial
      · rintro es ⟨⟩
    · rintro ps ⟨⟩
  | leaf v hv =>
    have hmap : ∀ es, v ≠ .map es := by
      rintro es rfl
      exact hv
    refine ⟨fun _ => ?_, fun ps hps => absurd hps (hmap ps)⟩
    rw [ofValue]
    · exact trivial
    · exact hmap

end Spec.Schema

end IdlBridge
