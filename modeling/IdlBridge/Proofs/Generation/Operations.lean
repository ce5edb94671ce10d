import IdlBridge.Generation.Document
import IdlBridge.Proofs.Generation.Schemas

/-! # References of generated operations

    The schemas of a request stand in place, those of a response are registered before the response
    refers to them.  Either way an operation refers to known names only, and so does a document
    after each of its operations has been added.
-/

namespace IdlBridge.Generation

open OpenApi Object

variable {file : FileDesc} {s : Session}

/-- All objects refer to known names. -/
def AllLinked (r : Registry Object) (os : List Object) : Prop :=
  ∀ o ∈ os, LinkedIn r o

/-- The object, if there is one, refers to known names. -/
def LinkedIn? (r : Registry Object) (o : Option Object) : Prop :=
  ∀ x, o = some x → LinkedIn r x

/-! ## Content -/

theorem tableLinked_nil {r : Registry Object} : TableLinked r [] := by
  simp [TableLinked]

theorem TableLinked.append {r : Registry Object} {es es' : Table Object} (h : TableLinked r es)
    (h' : TableLinked r es') : TableLinked r (es ++ es') := by
  intro e he
  rcases List.mem_append.1 he with he | he
  · exact h e he
  · exact h' e he

theorem tableLinked_contentOf {r : Registry Object} {types : List Text} {schema : Object}
    (h : LinkedIn r schema) : TableLinked r (contentOf types schema) := by
  unfold contentOf
  split
  · exact tableLinked_nil
  · intro e he
    obtain ⟨t, -, rfl⟩ := List.mem_map.1 he
    exact linked_build (by decide) (by simpa using h)

theorem slotLinked_tableOrNull {r : Registry Object} {es : Table Object} (h : TableLinked r es) :
    SlotLinked (Known r) (tableOrNull es) := by
  unfold tableOrNull
  split
  · exact slotLinked_null
  · exact slotLinked_table.2 h

/-! ## Requests -/

theorem linked_metaParameter (r : Registry Object) : LinkedIn r metaParameter :=
  linked_build (by decide) (by simp [linked_build])

theorem yields_parameterOf (hs : Sound file s.registry) {d : StructDesc} {f : FieldDesc}
    (hf : FieldFits file f) (name location : Text) :
    Yields file (parameterOf d f name location) s LinkedIn := by
  unfold parameterOf
  refine (yields_schemaOfType hs hf.referred).bind fun schema t ht _ hschema => ?_
  refine (yields_overlayProperty ht hf hschema).bind fun schema u hu _ hschema => ?_
  refine (yields_payload? hu (hf.plain _ (by decide))).bind ?_
  rintro _ v hv hext rfl
  refine yields_pure hv (linked_build (by decide) ?_)
  have hrequired : SlotLinked (Known v.registry)
      (if location = pathLocation then .flag true else .null) := by
    split <;> simp
  simpa [description, hrequired] using hext.linked hschema

theorem yields_parametersOf {d : StructDesc} {fields : List FieldDesc}
    (hfields : ∀ f ∈ fields, FieldFits file f) (hs : Sound file s.registry) :
    Yields file (parametersOf d fields) s AllLinked := by
  induction fields generalizing s with
  | nil =>
    unfold parametersOf
    exact yields_pure hs (by simp [AllLinked])
  | cons f rest ih =>
    have hrest : ∀ f ∈ rest, FieldFits file f := fun f hf => hfields f (List.mem_cons_of_mem _ hf)
    unfold parametersOf
    split
    · exact ih hrest hs
    · refine (yields_parameterOf hs (hfields f List.mem_cons_self) _ _).bind fun p t ht _ hp => ?_
      refine (ih hrest ht).bind fun ps u hu hext hps => yields_pure hu ?_
      exact List.forall_mem_cons.2 ⟨hext.linked hp, hps⟩

theorem linkedIn?_bodyWith? {r : Registry Object} {d : StructDesc} {content : Table Object}
    (h : TableLinked r content) : LinkedIn? r (bodyWith? d content) := by
  unfold bodyWith?
  split
  · simp [LinkedIn?]
  · intro x hx
    cases hx
    exact linked_build (by decide) (by simpa [description, TableLinked] using h)

theorem yields_requestBodyOf (hs : Sound file s.registry) {d : StructDesc}
    (hd : StructFits file d) : Yields file (requestBodyOf d) s LinkedIn? := by
  unfold requestBodyOf
  refine (yields_schemaOfFields hs hd _).bind fun body t ht _ hbody => ?_
  refine (yields_schemaOfFields ht hd _).bind fun form u hu hext hform => ?_
  refine (yields_schemaOfFields hu hd _).bind fun raw v hv hext' hraw => ?_
  refine yields_pure hv (linkedIn?_bodyWith? ?_)
  have hbody' := (hext.trans hext').linked hbody
  exact ((tableLinked_contentOf hbody').append (tableLinked_contentOf (hext'.linked hform))).append
    (tableLinked_contentOf hraw)

theorem yields_requestOf (hs : Sound file s.registry) {mode : Mode} {request : Option StructDesc}
    (hrequest : ∀ d, request = some d → StructFits file d) (verb : Text) :
    Yields file (requestOf mode request verb) s
      fun r p => AllLinked r p.1 ∧ LinkedIn? r p.2 := by
  have hmeta : ∀ r, AllLinked r [metaParameter] := fun r o ho =>
    List.mem_singleton.1 ho ▸ linked_metaParameter r
  have hnone : ∀ r, LinkedIn? r none := by simp [LinkedIn?]
  unfold requestOf
  split
  · exact yields_pure hs ⟨hmeta _, hnone _⟩
  · refine (yields_schemaOfFields hs (hrequest _ rfl) _).bind fun body t ht _ hbody => ?_
    exact yields_pure ht ⟨hmeta _, linkedIn?_bodyWith? (tableLinked_contentOf hbody)⟩
  · exact yields_pure hs ⟨by simp [AllLinked], hnone _⟩
  · have hd := hrequest _ rfl
    refine (yields_parametersOf hd.fields hs).bind fun ps t ht _ hps => ?_
    split
    · exact yields_pure ht ⟨hps, hnone _⟩
    · refine (yields_requestBodyOf ht hd).bind fun body u hu hext hbody => ?_
      exact yields_pure hu ⟨fun p hp => hext.linked (hps p hp), hbody⟩

/-! ## Responses -/

theorem yields_headersOf {fields : List FieldDesc} (hfields : ∀ f ∈ fields, FieldFits file f)
    {headers : Table Object} (hs : Sound file s.registry)
    (hheaders : TableLinked s.registry headers) :
    Yields file (headersOf fields headers) s TableLinked := by
  induction fields generalizing s headers with
  | nil =>
    unfold headersOf
    exact yields_pure hs hheaders
  | cons f rest ih =>
    have hrest : ∀ f ∈ rest, FieldFits file f := fun f hf => hfields f (List.mem_cons_of_mem _ hf)
    unfold headersOf
    split
    · exact ih hrest hs hheaders
    · refine (yields_schemaOfType hs (hfields f List.mem_cons_self).referred).bind
        fun o t ht hext ho => ?_
      refine ih hrest ht ((hext.tableLinked hheaders).insert ?_)
      exact linked_build (by decide) (by simpa [description] using ho)

/-- A shared schema is registered under the name that the content refers to. -/
theorem yields_sharedContent (hs : Sound file s.registry) {mediaType name : Text}
    {schema : Object} (hschema : LinkedIn s.registry schema) :
    Yields file (sharedContent mediaType name schema) s TableLinked := by
  unfold sharedContent
  split
  · exact yields_pure hs tableLinked_nil
  · refine (yields_register hs hschema).bind fun _ t ht _ hname => yields_pure ht ?_
    have href : LinkedIn t.registry (.referenceTo name) :=
      linked_referenceTo ⟨name, rfl, Or.inr hname⟩
    intro e he
    rw [List.mem_singleton.1 he]
    exact linked_build (by decide) (by simpa using href)

theorem yields_responseParts (hs : Sound file s.registry) {mode : Mode} {d : StructDesc}
    (hd : StructFits file d) :
    Yields file (responseParts mode d) s fun r p => TableLinked r p.1 ∧ TableLinked r p.2 := by
  unfold responseParts
  split
  · refine (yields_schemaOfFields hs hd _).bind fun schema t ht _ hschema => ?_
    refine (yields_sharedContent ht hschema).bind fun content u hu _ hcontent => ?_
    exact yields_pure hu ⟨tableLinked_nil, hcontent⟩
  · refine (yields_headersOf hd.fields hs tableLinked_nil).bind fun headers t ht _ hheaders => ?_
    refine (yields_schemaOfFields ht hd _).bind fun schema u hu hext hschema => ?_
    refine (yields_sharedContent hu hschema).bind fun body v hv hext' hbody => ?_
    refine (yields_schemaOfFields hv hd _).bind fun schema w hw hext'' hschema => ?_
    refine (yields_sharedContent hw hschema).bind fun raw x hx hext''' hraw => yields_pure hx ?_
    have hall := hext''.trans hext'''
    exact ⟨((hext.trans hext').trans hall).tableLinked hheaders,
      (hall.tableLinked hbody).append hraw⟩

theorem yields_responseOf (hs : Sound file s.registry) {mode : Mode} {response : Option StructDesc}
    (hresponse : ∀ d, response = some d → StructFits file d) :
    Yields file (responseOf mode response) s LinkedIn := by
  unfold responseOf
  split
  · exact yields_pure hs (linked_build (by decide) (by simp))
  · refine (yields_responseParts hs (hresponse _ rfl)).bind ?_
    rintro ⟨headers, content⟩ t ht - ⟨hheaders, hcontent⟩
    refine yields_pure ht (linked_build (by decide) ?_)
    simpa using ⟨slotLinked_tableOrNull hheaders, slotLinked_tableOrNull hcontent⟩

/-! ## Operations -/

theorem yields_operationOf (hs : Sound file s.registry) {mode : Mode} {d : ServiceDesc}
    {m : MethodDesc} (hm : ∀ x, m.request = some x ∨ m.response = some x → StructFits file x)
    (verb : Text) : Yields file (operationOf mode d m verb) s LinkedIn := by
  unfold operationOf
  refine (yields_requestOf hs (fun x hx => hm x (Or.inl hx)) verb).bind ?_
  rintro ⟨parameters, body⟩ t ht - ⟨hparameters, hbody⟩
  refine (yields_responseOf ht fun x hx => hm x (Or.inr hx)).bind
    fun response u hu hext hresponse => ?_
  -- The parameters were linked before the response registered more.
  have hparameters' : ∀ o ∈ parameters, LinkedIn u.registry o := fun o ho =>
    hext.linked (hparameters o ho)
  have hbody' : SlotLinked (Known u.registry) (.ofObject? body) := by
    cases body with
    | none => exact slotLinked_null
    | some o => exact slotLinked_object.2 (hext.linked (hbody o rfl))
  refine yields_pure hu ?_
  split
  · refine Linked.withServer (linked_build (by decide) ?_) _
    simpa [description] using ⟨hparameters', hbody', hresponse⟩
  · refine linked_build (by decide) ?_
    simpa [description] using ⟨hparameters', hbody', hresponse⟩

end IdlBridge.Generation
