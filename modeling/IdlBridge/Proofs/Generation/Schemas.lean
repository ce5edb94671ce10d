import IdlBridge.Proofs.Generation.Growth

/-! # References of generated schemas

    Every schema that is generated for a type, for the fields of a struct or for a whole struct
    refers to names that are known by the time it is there.  Nothing is said here about payloads of
    annotations, which can hold any reference: the structs are plain.
-/

namespace IdlBridge

/-- None of the annotations is a structured payload. -/
def Annotations.Plain (as : Annotations) : Prop :=
  ∀ key ∈ Annotation.payloadKeys, as.has key = false

namespace Generation

open OpenApi Object

variable {file : FileDesc} {s : Session}

/-- The field has no payload, and structs of the file refer to the structs that it refers to. -/
structure FieldFits (file : FileDesc) (f : FieldDesc) : Prop where
  plain : f.annotations.Plain
  referred : ∀ n ∈ structNames f.type, n ∈ referredStructs file

/-- The struct has no payload, and its fields fit. -/
structure StructFits (file : FileDesc) (d : StructDesc) : Prop where
  plain : d.annotations.Plain
  fields : ∀ f ∈ d.fields, FieldFits file f

/-- The schemas in a table of properties refer to known names. -/
def TableLinked (r : Registry Object) (es : Table Object) : Prop :=
  ∀ e ∈ es, LinkedIn r e.2

theorem Extends.tableLinked {r r' : Registry Object} (h : Extends r r') {es : Table Object}
    (hes : TableLinked r es) : TableLinked r' es :=
  fun e he => h.linked (hes e he)

theorem TableLinked.insert {r : Registry Object} {es : Table Object} {name : Text} {o : Object}
    (hes : TableLinked r es) (ho : LinkedIn r o) : TableLinked r (es.insert name o) := by
  intro e he
  rcases Table.mem_insert he with rfl | he
  · exact ho
  · exact hes e he

/-! ## Types -/

theorem yields_schemaOfType (hs : Sound file s.registry) {t : TypeDesc}
    (ht : ∀ n ∈ structNames t, n ∈ referredStructs file) :
    Yields file (schemaOfType t) s LinkedIn := by
  induction t generalizing s with
  | scalar name =>
    unfold schemaOfType
    split
    · exact yields_pure hs (linked_build (by decide) (by simp))
    · refine (yields_note hs _).bind fun _ t ht _ _ => yields_pure ht ?_
      exact linked_build (by decide) (by simp)
  | struct name =>
    unfold schemaOfType
    refine (yields_require hs (ht name (List.mem_singleton.2 rfl))).bind fun _ t ht _ hknown => ?_
    exact yields_pure ht (linked_referenceTo hknown)
  | enum name =>
    unfold schemaOfType
    exact yields_pure hs (linked_build (by decide) (by simp))
  | list e ih =>
    unfold schemaOfType
    refine (ih hs ht).bind fun o t ht _ ho => yields_pure ht ?_
    exact linked_build (by decide) (by simpa using ho)
  | set e ih =>
    unfold schemaOfType
    refine (ih hs ht).bind fun o t ht _ ho => yields_pure ht ?_
    exact linked_build (by decide) (by simpa using ho)
  | map k v _ ih =>
    unfold schemaOfType
    refine (ih hs ht).bind fun o t ht _ ho => yields_pure ht ?_
    exact linked_build (by decide) (by simpa using ho)

/-! ## Fields -/

theorem yields_overlayProperty (hs : Sound file s.registry) {d : StructDesc} {f : FieldDesc}
    (hf : FieldFits file f) {schema : Object} (hschema : LinkedIn s.registry schema) :
    Yields file (overlayProperty schema d f) s LinkedIn := by
  unfold overlayProperty
  split
  · refine (yields_payload? hs (hf.plain _ (by decide))).bind ?_
    rintro _ t ht hext rfl
    exact yields_pure ht (hext.linked hschema)
  · exact yields_pure hs hschema

theorem yields_propertyOf (hs : Sound file s.registry) {d : StructDesc} {f : FieldDesc}
    (hf : FieldFits file f) : Yields file (propertyOf d f) s LinkedIn := by
  unfold propertyOf
  refine (yields_schemaOfType hs hf.referred).bind fun schema t ht _ hschema => ?_
  split
  · exact yields_overlayProperty ht hf (hschema.set (by decide) (slotLinked_ofText _))
  · exact yields_pure ht hschema

theorem yields_placedProperties {d : StructDesc} {placement : Option Text} {required : List Text}
    {fields : List FieldDesc} (hfields : ∀ f ∈ fields, FieldFits file f)
    {properties : Table Object} {names : List Text} (hs : Sound file s.registry)
    (hproperties : TableLinked s.registry properties) :
    Yields file (placedProperties d placement required fields properties names) s
      fun r p => TableLinked r p.1 := by
  induction fields generalizing s properties names with
  | nil =>
    unfold placedProperties
    exact yields_pure hs hproperties
  | cons f rest ih =>
    have hrest : ∀ f ∈ rest, FieldFits file f := fun f hf => hfields f (List.mem_cons_of_mem _ hf)
    unfold placedProperties
    split
    · exact ih hrest hs hproperties
    · refine (yields_propertyOf hs (hfields f List.mem_cons_self)).bind fun o t ht hext ho => ?_
      exact ih hrest ht ((hext.tableLinked hproperties).insert ho)

/-! ## Structs -/

theorem yields_structPayload? (hs : Sound file s.registry) {d : StructDesc}
    (hd : StructFits file d) : Yields file (structPayload? d) s fun _ p => p = none :=
  yields_payload? hs (hd.plain _ (by decide))

theorem yields_schemaOfFields (hs : Sound file s.registry) {d : StructDesc}
    (hd : StructFits file d) (placement : Option Text) :
    Yields file (schemaOfFields d placement) s LinkedIn := by
  unfold schemaOfFields
  refine (yields_structPayload? hs hd).bind ?_
  rintro _ t ht - rfl
  refine (yields_placedProperties hd.fields ht (by simp [TableLinked])).bind ?_
  rintro ⟨properties, names⟩ u hu - hproperties
  refine yields_pure hu (Linked.set (linked_build (by decide) ?_) (by decide) (slotLinked_texts _))
  simpa [TableLinked] using hproperties

theorem yields_componentOf (hs : Sound file s.registry) {d : StructDesc}
    (hd : StructFits file d) : Yields file (componentOf d) s LinkedIn := by
  unfold componentOf
  refine (yields_placedProperties hd.fields hs (by simp [TableLinked])).bind ?_
  rintro ⟨properties, names⟩ t ht - hproperties
  refine (yields_structPayload? ht hd).bind ?_
  rintro _ u hu hext rfl
  refine yields_pure hu (Linked.set (linked_build (by decide) ?_) (by decide) (slotLinked_texts _))
  simpa [description, TableLinked] using hext.tableLinked hproperties

theorem yields_expand (hs : Sound file s.registry) {d : StructDesc} (hd : StructFits file d) :
    Yields file (expand d) s fun r _ => r.schemas.has d.name = true := by
  unfold expand
  refine (yields_note hs _).bind fun _ t ht _ _ => ?_
  refine (yields_componentOf ht hd).bind fun o u hu _ ho => ?_
  exact yields_register hu ho

end Generation

end IdlBridge
