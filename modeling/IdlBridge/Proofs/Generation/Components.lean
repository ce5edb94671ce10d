import IdlBridge.Proofs.Generation.Bindings
import IdlBridge.Proofs.Generation.Uniform

/-! # What components hold

    Two names lead to component schemas: that of a struct, and in the `http` mode that of the
    response struct of a method with `Body` or `RawBody` behind it.  A registry keeps the first
    schema of a name.  So a component has the properties of its struct, unless its name is derived
    from a response struct.

    What a struct becomes does not depend on the session (`Steady`): a reference is the same object
    whether or not its name has been required before.
-/

namespace IdlBridge.Generation

open OpenApi Object

variable {file : FileDesc} {s t : Session} {α β : Type}

/-! ## Steps whose result does not depend on the session -/

/-- From every session, the step succeeds with the result. -/
def Steady (x : Building α) (a : α) : Prop :=
  ∀ s, ∃ t, Ends x s a t

theorem steady_pure (a : α) : Steady (pure a : Building α) a :=
  fun s => ⟨s, ends_pure.2 ⟨rfl, rfl⟩⟩

theorem Steady.bind {x : Building α} {f : α → Building β} {a : α} {b : β} (hx : Steady x a)
    (hf : Steady (f a) b) : Steady (x >>= f) b := by
  intro s
  obtain ⟨t, ht⟩ := hx s
  obtain ⟨u, hu⟩ := hf t
  exact ⟨u, ends_bind.2 ⟨a, t, ht, hu⟩⟩

/-- A steady step has no other result. -/
theorem Steady.eq {x : Building α} {a b : α} (h : Steady x a) (hends : Ends x s b t) : b = a := by
  obtain ⟨t', ht⟩ := h s
  unfold Ends at ht hends
  rw [ht] at hends
  cases hends
  rfl

/-- A step that does not depend on the session is steady once it succeeds somewhere. -/
theorem Uniform.steady {P : Demand → Prop} {x : Building α} {a : α} (h : Uniform P x)
    (hends : Ends x s a t) : Steady x a := by
  obtain ⟨r, ds, hacts, -⟩ := h
  rw [hacts.eq_ok hends] at hacts
  exact fun s => (hacts.ends s).imp fun _ h => h.1

theorem mayRequire (fields : List FieldDesc) : MayRequire Demand.IsRequire fields :=
  fun _ _ n _ => ⟨n, rfl⟩

/-! ## Structs -/

theorem exists_steady_placedProperties (d : StructDesc) {fields : List FieldDesc}
    (hfields : ∀ f ∈ fields, FieldFits file f) :
    ∃ r, Steady (placedProperties d none [] fields [] []) r := by
  have hyields : Yields file (placedProperties d none [] fields [] []) ⟨.empty, []⟩
      fun r p => TableLinked r p.1 :=
    yields_placedProperties hfields (sound_empty file) (by simp [TableLinked])
  obtain ⟨r, t, hends, -⟩ := hyields
  exact ⟨r, (uniform_placedProperties d none [] (mayRequire fields) [] []).steady hends⟩

theorem steady_structPayload? {d : StructDesc} (hd : StructFits file d) :
    Steady (structPayload? d) none := by
  obtain ⟨a, t, hends, -, -, rfl⟩ := yields_structPayload? (s := ⟨.empty, []⟩) (sound_empty file) hd
  exact Uniform.steady (P := Demand.IsRequire) (uniform_payload? _ _ _ _) hends

/-- The object has the properties and the required names of the component of the struct. -/
def AsComponent (d : StructDesc) (o : Object) : Prop :=
  ∃ component, Steady (componentOf d) component ∧
    o.table .properties = component.table .properties ∧
    o.texts .required = component.texts .required

/-- The component of a struct, and the schema of all its fields, hold the same properties. -/
theorem exists_steady_schemas {d : StructDesc} (hd : StructFits file d) :
    ∃ component schema, Steady (componentOf d) component ∧ Steady (schemaOfFields d none) schema ∧
      schema.table .properties = component.table .properties ∧
      schema.texts .required = component.texts .required := by
  -- Both take the same two steps, in different orders: steady steps do not mind.
  obtain ⟨⟨properties, names⟩, hplaced⟩ := exists_steady_placedProperties d hd.fields
  have hpayload := steady_structPayload? hd
  exact ⟨_, _, hplaced.bind (hpayload.bind (steady_pure _)),
    hpayload.bind (hplaced.bind (steady_pure _)), rfl, rfl⟩

theorem asComponent_of_componentOf {d : StructDesc} (hd : StructFits file d) {o : Object}
    (h : Ends (componentOf d) s o t) : AsComponent d o := by
  obtain ⟨component, -, hcomponent, -⟩ := exists_steady_schemas hd
  rw [hcomponent.eq h]
  exact ⟨component, hcomponent, rfl, rfl⟩

theorem asComponent_of_schemaOfFields {d : StructDesc} (hd : StructFits file d) {o : Object}
    (h : Ends (schemaOfFields d none) s o t) : AsComponent d o := by
  obtain ⟨component, schema, hcomponent, hschema, hproperties, hrequired⟩ :=
    exists_steady_schemas hd
  rw [hschema.eq h]
  exact ⟨component, hcomponent, hproperties, hrequired⟩

/-! ## Steps and the registered schemas -/

section Steps

variable {P : Table Object → Prop}

/-- The registered schemas satisfy `P`. -/
abbrev Registered (P : Table Object → Prop) (s : Session) : Prop :=
  P s.registry.schemas

theorem keeps_note (n : Notice) : Keeps (Registered P) (Building.note n) fun _ => True :=
  leads_modify fun _ hs => hs

/-- A step that only requires names leaves the registered schemas alone. -/
theorem Uniform.keeps_registered {x : Building α} (h : Uniform Demand.IsRequire x) :
    Keeps (Registered P) x fun _ => True := by
  obtain ⟨_, ds, hacts, hds⟩ := h
  intro s hs
  refine ⟨?_, fun _ _ => trivial⟩
  show P (x.run.run s).2.registry.schemas
  rw [(hacts s).2, schemas_meetAll hds]
  exact hs

theorem keeps_payload? (as : Annotations) (key owner : Text) (k : Kind) :
    Keeps (Registered P) (Building.payload? as key k owner) fun _ => True :=
  (uniform_payload? as key owner k).keeps_registered

theorem keeps_schemaOfFields (d : StructDesc) (placement : Option Text) :
    Keeps (Registered P) (schemaOfFields d placement) fun _ => True :=
  (uniform_schemaOfFields (mayRequire d.fields) placement).keeps_registered

theorem keeps_componentOf (d : StructDesc) :
    Keeps (Registered P) (componentOf d) fun _ => True :=
  (uniform_componentOf (mayRequire d.fields)).keeps_registered

theorem keeps_requestOf (mode : Mode) (request : Option StructDesc) (verb : Text) :
    Keeps (Registered P) (requestOf mode request verb) fun _ => True :=
  (uniform_requestOf mode (fun d _ => mayRequire d.fields) verb).keeps_registered

theorem keeps_headersOf (fields : List FieldDesc) (headers : Table Object) :
    Keeps (Registered P) (headersOf fields headers) fun _ => True :=
  (uniform_headersOf (mayRequire fields) headers).keeps_registered

end Steps

/-! ## What is registered -/

/-- The name is that of a response struct with a suffix behind it, in the mode that derives such
    names. -/
def Derived (mode : Mode) (file : FileDesc) (name : Text) : Prop :=
  mode = .http ∧ ∃ d ∈ file.services, ∃ m ∈ d.methods, ∃ x, m.response = some x ∧
    (name = x.name ++ "Body" ∨ name = x.name ++ "RawBody")

/-- The entry is the component of the struct of its name, unless the name is derived. -/
def EntryFits (mode : Mode) (file : FileDesc) (e : Text × Object) : Prop :=
  Derived mode file e.1 ∨ ∃ d, file.findStruct e.1 = some d ∧ AsComponent d e.2

/-- All registered schemas fit. -/
abbrev EntriesFit (mode : Mode) (file : FileDesc) : Session → Prop :=
  Registered fun schemas => ∀ e ∈ schemas, EntryFits mode file e

variable {mode : Mode}

theorem keeps_register {name : Text} {schema : Object} (h : EntryFits mode file (name, schema)) :
    Keeps (EntriesFit mode file) (Building.register name schema) fun _ => True := by
  refine leads_modify fun s hs => ?_
  show ∀ e ∈ (s.registry.add name schema).2.schemas, EntryFits mode file e
  unfold Registry.add
  split
  · -- the name is taken, and its first schema stays
    exact hs
  · intro e he
    rcases List.mem_append.1 he with he | he
    · exact hs e he
    · rw [List.mem_singleton.1 he]
      exact h

theorem keeps_sharedContent {mediaType name : Text} {schema : Object}
    (h : EntryFits mode file (name, schema)) :
    Keeps (EntriesFit mode file) (sharedContent mediaType name schema) fun _ => True := by
  unfold sharedContent
  split
  · exact keeps_pure trivial
  · exact keeps_bind (keeps_register h) fun _ _ => keeps_pure trivial

/-- In the `rpc` mode a response registers its struct, in the `http` mode what derived names say. -/
theorem keeps_responseOf (hclosed : file.Closed) (hplain : file.Plain) {d : ServiceDesc}
    (hd : d ∈ file.services) {m : MethodDesc} (hm : m ∈ d.methods) :
    Keeps (EntriesFit mode file) (responseOf mode m.response) fun _ => True := by
  unfold responseOf
  cases hresponse : m.response with
  | none => exact keeps_pure trivial
  | some x =>
    -- The struct of a response is the one that the file has under its name.
    have hfits := structFits_of_method hclosed hplain hd hm (Or.inr hresponse)
    have hfind := hclosed.methods d hd m hm x (Or.inr hresponse)
    refine keeps_bind (Q := fun _ => True) ?_ fun _ _ => keeps_pure trivial
    unfold responseParts
    cases mode with
    | rpc =>
      refine keeps_bind (Leads.and_ends (keeps_schemaOfFields x none) fun _ _ _ hends =>
        asComponent_of_schemaOfFields hfits hends) fun schema hschema => ?_
      exact keeps_bind (keeps_sharedContent (Or.inr ⟨x, hfind, hschema.2⟩)) fun _ _ =>
        keeps_pure trivial
    | http =>
      -- Whatever the schemas of the parts hold, the names they are registered under are derived.
      have hderived : ∀ {name : Text} {schema : Object},
          name = x.name ++ "Body" ∨ name = x.name ++ "RawBody" →
            EntryFits .http file (name, schema) :=
        fun hname => Or.inl ⟨rfl, d, hd, m, hm, x, hresponse, hname⟩
      refine keeps_bind (keeps_headersOf _ _) fun _ _ => ?_
      refine keeps_bind (keeps_schemaOfFields _ _) fun _ _ => ?_
      refine keeps_bind (keeps_sharedContent (hderived (Or.inl rfl))) fun _ _ => ?_
      refine keeps_bind (keeps_schemaOfFields _ _) fun _ _ => ?_
      exact keeps_bind (keeps_sharedContent (hderived (Or.inr rfl))) fun _ _ => keeps_pure trivial

theorem keeps_operationOf (hclosed : file.Closed) (hplain : file.Plain) {d : ServiceDesc}
    (hd : d ∈ file.services) {m : MethodDesc} (hm : m ∈ d.methods) (verb : Text) :
    Keeps (EntriesFit mode file) (operationOf mode d m verb) fun _ => True := by
  unfold operationOf
  refine keeps_bind (keeps_requestOf _ _ _) fun _ _ => ?_
  exact keeps_bind (keeps_responseOf hclosed hplain hd hm) fun _ _ => keeps_pure trivial

theorem keeps_addBinding (hclosed : file.Closed) (hplain : file.Plain) {d : ServiceDesc}
    (hd : d ∈ file.services) {m : MethodDesc} (hm : m ∈ d.methods) (b : Binding) (doc : Object) :
    Keeps (EntriesFit mode file) (addBinding mode d m b doc) fun _ => True := by
  unfold addBinding
  dsimp only
  split
  · exact keeps_bind (keeps_note _) fun _ _ => keeps_pure trivial
  · refine keeps_bind (keeps_note _) fun _ _ => ?_
    refine keeps_bind (keeps_operationOf hclosed hplain hd hm _) fun _ _ => ?_
    exact keeps_bind (keeps_payload? _ _ _ _) fun _ _ => keeps_pure trivial

theorem keeps_addService (hclosed : file.Closed) (hplain : file.Plain) {d : ServiceDesc}
    (hd : d ∈ file.services) (doc : Object) :
    Keeps (EntriesFit mode file) (addService mode doc d) fun _ => True := by
  unfold addService
  refine keeps_bind (keeps_foldlM ?_ doc) fun _ _ => keeps_pure trivial
  rintro ⟨m, b⟩ hmb doc
  exact keeps_addBinding hclosed hplain hd (mem_of_mem_boundMethods hmb) b doc

/-! ## The expansion -/

theorem schemas_next? (r : Registry Object) : r.next?.2.schemas = r.schemas := by
  unfold Registry.next?
  split <;> rfl

theorem keeps_expand {d : StructDesc} (hfind : file.findStruct d.name = some d)
    (hd : StructFits file d) : Keeps (EntriesFit mode file) (expand d) fun _ => True := by
  unfold expand
  refine keeps_bind (keeps_note _) fun _ _ => ?_
  refine keeps_bind (Leads.and_ends (keeps_componentOf d) fun _ _ _ hends =>
    asComponent_of_componentOf hd hends) fun component hcomponent => ?_
  exact keeps_register (Or.inr ⟨d, hfind, hcomponent.2⟩)

theorem keeps_expandRequired (hclosed : file.Closed) (hplain : file.Plain) (bound : Nat) :
    Keeps (EntriesFit mode file) (expandRequired file bound) fun _ => True := by
  induction bound with
  | zero => exact keeps_pure trivial
  | succ bound ih =>
    unfold expandRequired
    refine leads_get_bind fun s hs => ?_
    have hschemas := schemas_next? s.registry
    rcases hnext : s.registry.next? with ⟨name, r⟩
    rw [hnext] at hschemas
    dsimp only at hschemas ⊢
    -- Taking a name off the queue leaves the schemas alone.
    have hupdate : Leads (fun t => t = s) (EntriesFit mode file) (Building.update fun _ => r)
        fun _ => True := by
      refine leads_modify fun t _ => ?_
      show ∀ e ∈ r.schemas, EntryFits mode file e
      rw [hschemas]
      exact hs
    refine Leads.bind hupdate (fun _ h => h) fun _ _ => ?_
    cases name with
    | none => exact keeps_pure trivial
    | some name =>
      dsimp only
      cases hfind : file.findStruct name with
      | none => exact keeps_bind (keeps_note _) fun _ _ => ih
      | some d =>
        have hmem := Table.mem_of_get? hfind
        have hname : d.name = name := hclosed.named _ hmem
        have hfits := structFits_of_entry hplain hmem
        exact keeps_bind (keeps_expand (hname ▸ hfind) hfits) fun _ _ => ih

/-- All components of a document fit. -/
theorem keeps_buildDocument (hclosed : file.Closed) (hplain : file.Plain) (c : Config) :
    Keeps (EntriesFit c.mode file) (buildDocument c file) fun _ => True := by
  unfold buildDocument openingDocument expandAll
  rw [documentOwner?_eq_none hplain]
  refine keeps_bind (Q := fun _ => True) (keeps_pure trivial) fun blank _ => ?_
  refine keeps_bind (keeps_foldlM (fun d hd => keeps_addService hclosed hplain hd) blank) ?_
  intro doc _
  refine keeps_bind (Q := fun _ => True) ?_ fun _ _ => ?_
  · refine leads_get_bind fun s hs => ?_
    refine Leads.of_imp (keeps_expandRequired hclosed hplain _) ?_
    rintro _ rfl
    exact hs
  · refine leads_get_bind fun s hs => ?_
    refine Leads.of_imp (keeps_pure trivial) ?_
    rintro _ rfl
    exact hs

/-! ## Components of documents -/

/-- The component schemas of a document. -/
def componentsOf (doc : Object) : Table Object :=
  ((doc.object? .components).getD (.empty .components)).table .schemas

theorem componentsOf_addComponents {r : Registry Object} {doc : Object} (h : Unfinished r doc)
    (schemas : Table Object) : componentsOf (addComponents schemas doc) = schemas.sort := by
  rw [addComponents_eq h]
  unfold componentsOf object?
  rw [get_set, if_pos rfl]
  rfl

/-- A reference to the name of a struct leads to a component with the properties of the struct and
    the same required names, unless the name is derived from that of a response struct. -/
theorem asComponent_of_reference (h : Reflected file) (hplain : file.Plain) (c : Config)
    (notices : List Notice) : ∃ doc notices', Ends (documentOf c file) notices doc notices' ∧
      ∀ n d, schemaLead ++ n ∈ Spec.references doc.toValue → file.findStruct n = some d →
        ¬ Derived c.mode file n →
          ∃ o, (componentsOf doc).get? n = some o ∧ AsComponent d o := by
  obtain ⟨doc, u, hbuild, hdoc, hu, hall⟩ := ends_buildDocument h.closed hplain c notices
  refine ⟨_, u.notices, ends_documentOf_of_build hbuild, fun n d href hfind hderived => ?_⟩
  obtain ⟨n', hn', hhas⟩ := has_schemas_of_reference hdoc hu hall _ href
  obtain rfl := List.append_cancel_left hn'
  rw [componentsOf_addComponents hdoc]
  obtain ⟨o, ho⟩ := Table.isSome_get?_of_has ((Table.has_sort u.registry.schemas n).trans hhas)
  have hstart : EntriesFit c.mode file ⟨.empty, notices⟩ :=
    fun e he => absurd he List.not_mem_nil
  have hentries := (keeps_buildDocument h.closed hplain c _ hstart).1
  rw [hbuild] at hentries
  have hmem := Table.mem_sort.1 (Table.mem_of_get? ho)
  -- The entry fits, and its name is not derived: so it is the component of the struct.
  rcases hentries _ hmem with hname | ⟨d', hfind', hcomponent⟩
  · exact absurd hname hderived
  · rw [hfind] at hfind'
    cases hfind'
    exact ⟨o, ho, hcomponent⟩

/-- In the `rpc` mode no name is derived. -/
theorem asComponent_ringDocument : Reflected ringFile ∧ ringFile.Plain ∧
    ∃ doc notices, Ends (documentOf { mode := .rpc } ringFile) [] doc notices ∧
      ∀ n d, schemaLead ++ n ∈ Spec.references doc.toValue → ringFile.findStruct n = some d →
        ∃ o, (componentsOf doc).get? n = some o ∧ AsComponent d o := by
  obtain ⟨doc, notices, hends, hcomponents⟩ :=
    asComponent_of_reference reflected_ringFile plain_ringFile { mode := .rpc } []
  refine ⟨reflected_ringFile, plain_ringFile, doc, notices, hends, fun n d href hfind => ?_⟩
  refine hcomponents n d href hfind ?_
  rintro ⟨hmode, -⟩
  cases hmode

/-- A source with a message whose name is derived from that of a response. -/
def parcelSources : Proto.SourceSet where
  sources := [
    { path := "parcel.proto", imports := []
      file := { Proto.File.empty with
        messages := [
          ⟨"ParcelBody", [⟨"string", "weight", 1, false, none, none, [], []⟩], [], [], [], []⟩,
          ⟨"Parcel", [⟨"ParcelBody", "body", 1, false, none, none,
            [⟨"api.body", .text "body"⟩], []⟩], [], [], [], []⟩]
        services := [⟨"Post", [⟨"Track", "google.protobuf.Empty", "Parcel", false, false,
          [⟨"api.get", .text "/track"⟩], []⟩], [], []⟩] } }]

/-- The struct with the derived name. -/
def parcelBody : StructDesc :=
  ⟨"ParcelBody", [⟨"weight", .scalar "string", [], [], false⟩], [], []⟩

/-- What the source reflects to. -/
def parcelFile : FileDesc :=
  let parcel : StructDesc :=
    ⟨"Parcel", [⟨"body", .struct "ParcelBody", [("api.body", .scalar "body")], [], false⟩], [], []⟩
  { path := "parcel.proto", package := []
    services := [⟨"Post", [⟨"Track", none, some parcel, [("api.get", .scalar "/track")], []⟩],
      [], []⟩]
    structs := [("ParcelBody", parcelBody), ("Parcel", parcel)]
    enums := [], localStructs := ["ParcelBody", "Parcel"] }

theorem order_parcelSources : parcelSources.order = [0] := by
  simp [parcelSources, Proto.SourceSet.order, Traversal.breadthFirst, Traversal.sweep,
    Proto.SourceSet.source?]

theorem reflected_parcelFile : Reflected parcelFile := by
  refine .proto (ends_of_toOption (x := parcelSources.reflect) (s := []) ?_)
  unfold Proto.SourceSet.reflect Proto.SourceSet.symbols Proto.SourceSet.enums
    Proto.SourceSet.files
  rw [order_parcelSources]
  decide +kernel

/-- The field `body` refers to a component that is the body of the response and not the struct of
    the field. -/
theorem misled_parcelDocument : Reflected parcelFile ∧ parcelFile.Plain ∧
    parcelFile.findStruct "ParcelBody" = some parcelBody ∧
    ∃ doc notices o, Ends (documentOf {} parcelFile) [] doc notices ∧
      (componentsOf doc).get? "ParcelBody" = some o ∧
      ((o.table .properties).get? "body").bind (·.text? .ref) =
        some (schemaLead ++ "ParcelBody") ∧
      ¬ AsComponent parcelBody o := by
  have hplain : parcelFile.Plain := by
    constructor <;> unfold Annotations.Plain <;> decide
  have hreflected := reflected_parcelFile
  obtain ⟨doc, u, hbuild, hdoc, -, -⟩ := ends_buildDocument hreflected.closed hplain {} []
  -- Documents are sorted and do not evaluate, but the registry that a document ends with does.
  have hschemas : ((buildDocument {} parcelFile).run.run ⟨.empty, []⟩).2.registry.schemas.map
      (fun e => (e.1, (e.2.table .properties).map fun p => (p.1, p.2.text? .ref))) =
        ([("ParcelBody", [("body", some (schemaLead ++ "ParcelBody"))])] :
          List (Text × List (Text × Option Text))) := by
    decide +kernel
  have hcomponent : ((componentOf parcelBody).run.run ⟨.empty, []⟩).1.toOption.map
      (fun o => (o.table .properties).map Prod.fst) = some (["weight"] : List Text) := by
    decide +kernel
  rw [hbuild] at hschemas
  obtain ⟨⟨name, o⟩, hentries, hentry⟩ := List.map_eq_singleton_iff.1 hschemas
  obtain ⟨hname, hproperties⟩ := Prod.mk.inj hentry
  obtain ⟨⟨key, property⟩, hproperty, hpair⟩ := List.map_eq_singleton_iff.1 hproperties
  obtain ⟨hkey, href⟩ := Prod.mk.inj hpair
  dsimp only at hname hproperty hkey href
  subst hname hkey
  have hget : (componentsOf (addComponents u.registry.schemas doc)).get? "ParcelBody" = some o := by
    rw [componentsOf_addComponents hdoc]
    show (Table.sort u.registry.schemas).get? _ = _
    rw [hentries]
    unfold Table.sort Table.get?
    rw [List.mergeSort_singleton]
    simp
  refine ⟨hreflected, hplain, rfl, _, u.notices, o, ends_documentOf_of_build hbuild, hget, ?_, ?_⟩
  · rw [hproperty]
    unfold Table.get?
    simpa using href
  · -- the component of the struct has the property `weight`, that of the document `body`
    rintro ⟨component, hsteady, htable, -⟩
    obtain ⟨t, ht⟩ := hsteady ⟨.empty, []⟩
    unfold Ends at ht
    rw [ht] at hcomponent
    rw [hproperty] at htable
    have hkeys : (component.table .properties).map Prod.fst = (["weight"] : List Text) :=
      Option.some.inj hcomponent
    rw [← htable] at hkeys
    have hne : ("body" : Text) ≠ "weight" := by decide
    exact hne (List.singleton_inj.1 hkeys)

end IdlBridge.Generation
