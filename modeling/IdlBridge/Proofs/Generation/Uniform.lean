import IdlBridge.Generation.Document
import IdlBridge.Proofs.Generation.Growth

/-! # Steps that do not depend on the session

    A generation step never looks at the registry: it only requires names and registers schemas.  So
    the step gives the same result from every session, and what it asks of the registry is the same
    list of demands (`Acts`).  `Uniform P x` says this of the step `x`, all of whose demands satisfy
    `P`.

    Only the steps that build operations and components are uniform.  The expansion of required
    names is not, since it looks at the queue.
-/

namespace IdlBridge.Generation

open OpenApi Object

variable {α β : Type} {r : Registry Object}

/-- What a step asks of a registry. -/
inductive Demand where
  | require (name : Text)
  | register (name : Text) (schema : Object)

/-- The registry after a demand has been met. -/
def Demand.meet (r : Registry Object) : Demand → Registry Object
  | .require name => r.require name
  | .register name schema => (r.add name schema).2

/-- From every session, the step ends with the result and has made the demands. -/
def Acts (x : Building α) (r : Except GenerationError α) (ds : List Demand) : Prop :=
  ∀ s, (x.run.run s).1 = r ∧ (x.run.run s).2.registry = ds.foldl Demand.meet s.registry

/-! ## Meeting demands -/

theorem extends_meet (r : Registry Object) (d : Demand) : Extends r (d.meet r) := by
  cases d with
  | require n => exact extends_require r n
  | register n o => exact extends_add r n o

theorem extends_meetAll (r : Registry Object) (ds : List Demand) :
    Extends r (ds.foldl Demand.meet r) := by
  induction ds generalizing r with
  | nil => exact .refl r
  | cons d rest ih => exact (extends_meet r d).trans (ih _)

theorem mem_required_meet {d : Demand} {n : Text} :
    n ∈ (d.meet r).required ↔ n ∈ r.required ∨ d = .require n := by
  cases d with
  | require m =>
    show n ∈ (r.require m).required ↔ _
    rw [required_require, Text.mem_insertNew, Demand.require.injEq, eq_comm]
  | register m o =>
    show n ∈ (r.add m o).2.required ↔ _
    simp [required_add]

theorem mem_required_meetAll {ds : List Demand} {n : Text} :
    n ∈ (ds.foldl Demand.meet r).required ↔ n ∈ r.required ∨ Demand.require n ∈ ds := by
  induction ds generalizing r with
  | nil => simp
  | cons d rest ih => rw [List.foldl_cons, ih, mem_required_meet, List.mem_cons, or_assoc, eq_comm]

theorem nodup_required_meetAll (h : r.required.Nodup) (ds : List Demand) :
    (ds.foldl Demand.meet r).required.Nodup := by
  induction ds generalizing r with
  | nil => exact h
  | cons d rest ih =>
    refine ih ?_
    cases d with
    | require m =>
      show (r.require m).required.Nodup
      rw [required_require]
      exact Text.nodup_insertNew h m
    | register m o =>
      show (r.add m o).2.required.Nodup
      rw [required_add]
      exact h

theorem nodup_keys_meetAll (h : r.schemas.keys.Nodup) (ds : List Demand) :
    (ds.foldl Demand.meet r).schemas.keys.Nodup := by
  induction ds generalizing r with
  | nil => exact h
  | cons d rest ih =>
    refine ih ?_
    cases d with
    | require m =>
      show (r.require m).schemas.keys.Nodup
      rw [schemas_require]
      exact h
    | register m o =>
      show (r.add m o).2.schemas.keys.Nodup
      unfold Registry.add
      split
      · exact h
      · next hnew =>
        rw [← Table.insert_eq_append (Bool.not_eq_true _ ▸ hnew)]
        exact Table.nodup_keys_insert h m o

/-- A schema is there because it was there before or a demand has registered it. -/
theorem mem_schemas_meetAll {ds : List Demand} {n : Text} {o : Object}
    (h : (n, o) ∈ (ds.foldl Demand.meet r).schemas) :
    (n, o) ∈ r.schemas ∨ Demand.register n o ∈ ds := by
  induction ds generalizing r with
  | nil => exact Or.inl h
  | cons d rest ih =>
    rcases ih h with h | h
    · cases d with
      | require m =>
        change (n, o) ∈ (r.require m).schemas at h
        rw [schemas_require] at h
        exact Or.inl h
      | register m p =>
        change (n, o) ∈ (r.add m p).2.schemas at h
        unfold Registry.add at h
        split at h
        · -- A name that is taken keeps the schema that it has.
          exact Or.inl h
        · rcases List.mem_append.1 h with h | h
          · exact Or.inl h
          · cases List.mem_singleton.1 h
            exact Or.inr List.mem_cons_self
    · exact Or.inr (List.mem_cons_of_mem _ h)

theorem has_schemas_meetAll {ds : List Demand} {n : Text} {o : Object}
    (h : Demand.register n o ∈ ds) : (ds.foldl Demand.meet r).schemas.has n = true := by
  obtain ⟨before, after, rfl⟩ := List.append_of_mem h
  rw [List.foldl_append, List.foldl_cons]
  exact (extends_meetAll _ after).schemas n (has_schemas_add _ n o)

/-- The demand requires a name. -/
def Demand.IsRequire (d : Demand) : Prop :=
  ∃ n, d = .require n

/-- Requiring names leaves the registered schemas alone. -/
theorem schemas_meetAll {ds : List Demand} (h : ∀ d ∈ ds, d.IsRequire) :
    (ds.foldl Demand.meet r).schemas = r.schemas := by
  induction ds generalizing r with
  | nil => rfl
  | cons d rest ih =>
    obtain ⟨⟨n, rfl⟩, hrest⟩ := List.forall_mem_cons.1 h
    rw [List.foldl_cons, ih hrest]
    exact schemas_require r n

/-! ## Results and demands -/

theorem acts_pure (a : α) : Acts (pure a : Building α) (.ok a) [] :=
  fun _ => ⟨rfl, rfl⟩

theorem acts_throw (e : GenerationError) : Acts (throw e : Building α) (.error e) [] :=
  fun _ => ⟨rfl, rfl⟩

theorem acts_note (n : Notice) : Acts (Building.note n) (.ok ()) [] :=
  fun _ => ⟨rfl, rfl⟩

theorem acts_require (name : Text) :
    Acts (Building.update fun r => r.require name) (.ok ()) [.require name] :=
  fun _ => ⟨rfl, rfl⟩

theorem acts_register (name : Text) (schema : Object) :
    Acts (Building.register name schema) (.ok ()) [.register name schema] :=
  fun _ => ⟨rfl, rfl⟩

theorem Acts.bind {x : Building α} {f : α → Building β} {a : α} {r : Except GenerationError β}
    {ds ds' : List Demand} (hx : Acts x (.ok a) ds) (hf : Acts (f a) r ds') :
    Acts (x >>= f) r (ds ++ ds') := by
  intro s
  obtain ⟨hresult, hregistry⟩ := hx s
  rw [run_bind]
  rcases hrun : x.run.run s with ⟨y, t⟩
  rw [hrun] at hresult hregistry
  dsimp only at hresult hregistry
  subst hresult
  obtain ⟨hresult', hregistry'⟩ := hf t
  refine ⟨hresult', ?_⟩
  rw [List.foldl_append, ← hregistry]
  exact hregistry'

theorem Acts.bind_error {x : Building α} {e : GenerationError} {ds : List Demand}
    (hx : Acts x (.error e) ds) (f : α → Building β) : Acts (x >>= f) (.error e) ds := by
  intro s
  obtain ⟨hresult, hregistry⟩ := hx s
  rw [run_bind]
  rcases hrun : x.run.run s with ⟨y, t⟩
  rw [hrun] at hresult hregistry
  dsimp only at hresult hregistry
  subst hresult
  exact ⟨rfl, hregistry⟩

/-- A step has no two results. -/
theorem Acts.result_eq {x : Building α} {r r' : Except GenerationError α} {ds ds' : List Demand}
    (h : Acts x r ds) (h' : Acts x r' ds') : r = r' :=
  (h ⟨.empty, []⟩).1.symm.trans (h' ⟨.empty, []⟩).1

theorem Acts.ends {x : Building α} {a : α} {ds : List Demand} (h : Acts x (.ok a) ds)
    (s : Session) : ∃ t, Ends x s a t ∧ t.registry = ds.foldl Demand.meet s.registry :=
  ⟨_, Prod.ext (h s).1 rfl, (h s).2⟩

/-- What comes out of some run comes out of all. -/
theorem Acts.eq_ok {x : Building α} {r : Except GenerationError α} {ds : List Demand}
    (h : Acts x r ds) {s t : Session} {a : α} (hends : Ends x s a t) : r = .ok a := by
  rw [← (h s).1, hends]

/-! ## Uniform steps -/

/-- The result of the step and its demands, all of which satisfy `P`, do not depend on the
    session. -/
def Uniform (P : Demand → Prop) (x : Building α) : Prop :=
  ∃ r ds, Acts x r ds ∧ ∀ d ∈ ds, P d

variable {P : Demand → Prop}

theorem Acts.uniform {x : Building α} {r : Except GenerationError α} (h : Acts x r []) :
    Uniform P x :=
  ⟨r, [], h, by simp⟩

theorem uniform_pure (a : α) : Uniform P (pure a : Building α) :=
  (acts_pure a).uniform

theorem uniform_note (n : Notice) : Uniform P (Building.note n) :=
  (acts_note n).uniform

theorem uniform_require {name : Text} (h : P (.require name)) :
    Uniform P (Building.update fun r => r.require name) :=
  ⟨_, _, acts_require name, by simpa using h⟩

theorem uniform_register {name : Text} {schema : Object} (h : P (.register name schema)) :
    Uniform P (Building.register name schema) :=
  ⟨_, _, acts_register name schema, by simpa using h⟩

/-- One uniform step after the other; the second may rely on what the first can result in. -/
theorem Uniform.bind {x : Building α} {f : α → Building β} (hx : Uniform P x)
    (hf : ∀ a, (∃ ds, Acts x (.ok a) ds) → Uniform P (f a)) : Uniform P (x >>= f) := by
  obtain ⟨r, ds, hacts, hds⟩ := hx
  -- After an error the second step is not taken, and its demands are not made.
  cases r with
  | error e => exact ⟨_, ds, hacts.bind_error f, hds⟩
  | ok a =>
    obtain ⟨r', ds', hacts', hds'⟩ := hf a ⟨ds, hacts⟩
    refine ⟨r', ds ++ ds', hacts.bind hacts', fun d hd => ?_⟩
    exact (List.mem_append.1 hd).elim (hds d) (hds' d)

theorem uniform_payload? (as : Annotations) (key owner : Text) (k : Kind) :
    Uniform P (Building.payload? as key k owner) := by
  unfold Building.payload?
  split
  · exact uniform_pure _
  · exact (acts_throw _).uniform
  · exact (uniform_note _).bind fun _ _ => uniform_pure _
  · split
    · exact uniform_pure _
    · exact (uniform_note _).bind fun _ _ => uniform_pure _

/-! ## Fields -/

/-- The names that the fields of a struct refer to may be required. -/
def MayRequire (P : Demand → Prop) (fields : List FieldDesc) : Prop :=
  ∀ f ∈ fields, ∀ n ∈ structNames f.type, P (.require n)

theorem uniform_schemaOfType {t : TypeDesc} (h : ∀ n ∈ structNames t, P (.require n)) :
    Uniform P (schemaOfType t) := by
  induction t with
  | scalar name =>
    unfold schemaOfType
    split
    · exact uniform_pure _
    · exact (uniform_note _).bind fun _ _ => uniform_pure _
  | struct name =>
    exact (uniform_require (h name (List.mem_singleton.2 rfl))).bind fun _ _ => uniform_pure _
  | enum name => exact uniform_pure _
  | list e ih => exact (ih h).bind fun _ _ => uniform_pure _
  | set e ih => exact (ih h).bind fun _ _ => uniform_pure _
  | map k v _ ih => exact (ih h).bind fun _ _ => uniform_pure _

theorem uniform_overlayProperty (schema : Object) (d : StructDesc) (f : FieldDesc) :
    Uniform P (overlayProperty schema d f) := by
  unfold overlayProperty
  split
  · exact (uniform_payload? _ _ _ _).bind fun _ _ => uniform_pure _
  · exact uniform_pure _

theorem uniform_propertyOf (d : StructDesc) {f : FieldDesc}
    (h : ∀ n ∈ structNames f.type, P (.require n)) : Uniform P (propertyOf d f) := by
  unfold propertyOf
  refine (uniform_schemaOfType h).bind fun schema _ => ?_
  split
  · exact uniform_overlayProperty _ d f
  · exact uniform_pure _

theorem uniform_placedProperties (d : StructDesc) (placement : Option Text) (required : List Text)
    {fields : List FieldDesc} (h : MayRequire P fields) (properties : Table Object)
    (names : List Text) :
    Uniform P (placedProperties d placement required fields properties names) := by
  induction fields generalizing properties names with
  | nil => exact uniform_pure _
  | cons f rest ih =>
    obtain ⟨hf, hrest⟩ := List.forall_mem_cons.1 h
    unfold placedProperties
    split
    · exact ih hrest properties names
    · exact (uniform_propertyOf d hf).bind fun _ _ => ih hrest _ _

/-! ## Structs -/

theorem uniform_schemaOfFields {d : StructDesc} (h : MayRequire P d.fields)
    (placement : Option Text) : Uniform P (schemaOfFields d placement) := by
  unfold schemaOfFields structPayload?
  refine (uniform_payload? _ _ _ _).bind fun _ _ => ?_
  exact (uniform_placedProperties d _ _ h _ _).bind fun _ _ => uniform_pure _

theorem uniform_componentOf {d : StructDesc} (h : MayRequire P d.fields) :
    Uniform P (componentOf d) := by
  unfold componentOf structPayload?
  refine (uniform_placedProperties d _ _ h _ _).bind fun _ _ => ?_
  exact (uniform_payload? _ _ _ _).bind fun _ _ => uniform_pure _

/-! ## Requests -/

theorem uniform_parametersOf (d : StructDesc) {fields : List FieldDesc} (h : MayRequire P fields) :
    Uniform P (parametersOf d fields) := by
  induction fields with
  | nil => exact uniform_pure _
  | cons f rest ih =>
    obtain ⟨hf, hrest⟩ := List.forall_mem_cons.1 h
    unfold parametersOf
    split
    · exact ih hrest
    · refine Uniform.bind ?_ fun _ _ => (ih hrest).bind fun _ _ => uniform_pure _
      unfold parameterOf
      refine (uniform_schemaOfType hf).bind fun _ _ => ?_
      refine (uniform_overlayProperty _ d f).bind fun _ _ => ?_
      exact (uniform_payload? _ _ _ _).bind fun _ _ => uniform_pure _

theorem uniform_requestBodyOf {d : StructDesc} (h : MayRequire P d.fields) :
    Uniform P (requestBodyOf d) := by
  unfold requestBodyOf
  refine (uniform_schemaOfFields h _).bind fun _ _ => ?_
  refine (uniform_schemaOfFields h _).bind fun _ _ => ?_
  exact (uniform_schemaOfFields h _).bind fun _ _ => uniform_pure _

theorem uniform_requestOf (mode : Mode) {request : Option StructDesc}
    (h : ∀ d, request = some d → MayRequire P d.fields) (verb : Text) :
    Uniform P (requestOf mode request verb) := by
  unfold requestOf
  split
  · exact uniform_pure _
  · exact (uniform_schemaOfFields (h _ rfl) _).bind fun _ _ => uniform_pure _
  · exact uniform_pure _
  · refine (uniform_parametersOf _ (h _ rfl)).bind fun _ _ => ?_
    split
    · exact uniform_pure _
    · exact (uniform_requestBodyOf (h _ rfl)).bind fun _ _ => uniform_pure _

/-! ## Responses -/

/-- The schema of the fields that take part in the placement has properties. -/
def Fills (d : StructDesc) (placement : Option Text) (schema : Object) : Prop :=
  (∃ ds, Acts (schemaOfFields d placement) (.ok schema) ds) ∧
    (schema.table .properties).isEmpty = false

theorem Fills.eq {d : StructDesc} {placement : Option Text} {schema schema' : Object}
    (h : Fills d placement schema) (h' : Fills d placement schema') : schema = schema' := by
  obtain ⟨⟨_, hacts⟩, -⟩ := h
  obtain ⟨⟨_, hacts'⟩, -⟩ := h'
  injection hacts.result_eq hacts'

/-- The names under which a response registers schemas, with the placements of the fields that
    the schemas are made of. -/
def responseNames (mode : Mode) (d : StructDesc) : List (Text × Option Text) :=
  match mode with
  | .rpc => [(d.name, none)]
  | .http => [(d.name ++ "Body", some bodyKey), (d.name ++ "RawBody", some rawBodyKey)]

theorem uniform_headersOf {fields : List FieldDesc} (h : MayRequire P fields)
    (headers : Table Object) : Uniform P (headersOf fields headers) := by
  induction fields generalizing headers with
  | nil => exact uniform_pure _
  | cons f rest ih =>
    obtain ⟨hf, hrest⟩ := List.forall_mem_cons.1 h
    unfold headersOf
    split
    · exact ih hrest headers
    · exact (uniform_schemaOfType hf).bind fun _ _ => ih hrest _

/-- A shared schema is registered if the fields of the placement fill it. -/
theorem uniform_sharedContent {d : StructDesc} {placement : Option Text} {name : Text}
    (h : ∀ schema, Fills d placement schema → P (.register name schema)) (mediaType : Text)
    {schema : Object} (hschema : ∃ ds, Acts (schemaOfFields d placement) (.ok schema) ds) :
    Uniform P (sharedContent mediaType name schema) := by
  unfold sharedContent
  split
  · exact uniform_pure _
  · next hfilled =>
    refine (uniform_register (h schema ⟨hschema, ?_⟩)).bind fun _ _ => uniform_pure _
    simpa using hfilled

theorem uniform_responseOf (mode : Mode) {response : Option StructDesc}
    (h : ∀ d, response = some d → MayRequire P d.fields)
    (hnames : ∀ d, response = some d → ∀ e ∈ responseNames mode d, ∀ schema,
      Fills d e.2 schema → P (.register e.1 schema)) :
    Uniform P (responseOf mode response) := by
  unfold responseOf
  cases response with
  | none => exact uniform_pure _
  | some d =>
    refine Uniform.bind ?_ fun _ _ => uniform_pure _
    have hd := h d rfl
    have hnames := hnames d rfl
    unfold responseParts
    cases mode with
    | rpc =>
      have hwhole := hnames (d.name, none) (List.mem_singleton.2 rfl)
      refine (uniform_schemaOfFields hd _).bind fun schema hschema => ?_
      exact (uniform_sharedContent hwhole _ hschema).bind fun _ _ => uniform_pure _
    | http =>
      obtain ⟨hbody, hraw, -⟩ := List.forall_mem_cons.1 hnames |>.imp_right List.forall_mem_cons.1
      refine (uniform_headersOf hd _).bind fun _ _ => ?_
      refine (uniform_schemaOfFields hd _).bind fun schema hschema => ?_
      refine (uniform_sharedContent hbody _ hschema).bind fun _ _ => ?_
      refine (uniform_schemaOfFields hd _).bind fun schema hschema => ?_
      exact (uniform_sharedContent hraw _ hschema).bind fun _ _ => uniform_pure _

/-! ## Operations -/

theorem uniform_operationOf (mode : Mode) (s : ServiceDesc) {m : MethodDesc}
    (h : ∀ d, m.request = some d ∨ m.response = some d → MayRequire P d.fields)
    (hnames : ∀ d, m.response = some d → ∀ e ∈ responseNames mode d, ∀ schema,
      Fills d e.2 schema → P (.register e.1 schema)) (verb : Text) :
    Uniform P (operationOf mode s m verb) := by
  unfold operationOf
  refine (uniform_requestOf mode (fun d hd => h d (Or.inl hd)) verb).bind fun _ _ => ?_
  refine Uniform.bind ?_ fun _ _ => uniform_pure _
  exact uniform_responseOf mode (fun d hd => h d (Or.inr hd)) hnames

end IdlBridge.Generation
