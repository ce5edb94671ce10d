import IdlBridge.Proofs.Generation.Expansion
import IdlBridge.Proofs.Generation.Operations
import IdlBridge.Proofs.OpenApi.Data
import IdlBridge.Proofs.Reflection.Reflected

/-! # References of generated documents

    A document without payloads is put together without components of its own.  Whatever is added to
    it refers to known names; after the expansion the known names are those of the registered
    schemas, and these become the components.  So no reference of the finished document dangles.
-/

namespace IdlBridge

/-- No declaration of the file carries a structured payload. -/
structure FileDesc.Plain (file : FileDesc) : Prop where
  services : ∀ s ∈ file.services, s.annotations.Plain
  methods : ∀ s ∈ file.services, ∀ m ∈ s.methods, m.annotations.Plain
  structs : ∀ e ∈ file.structs, e.2.annotations.Plain
  fields : ∀ e ∈ file.structs, ∀ f ∈ e.2.fields, f.annotations.Plain

namespace Generation

open OpenApi Object

variable {file : FileDesc} {s : Session}

/-! ## Structs of a file -/

/-- The schema of a type refers to structs inside the type. -/
theorem structNames_subset (t : TypeDesc) : structNames t ⊆ t.structNames := by
  induction t with
  | scalar _ | enum _ | struct _ => exact List.Subset.refl _
  | list _ ih | set _ ih => exact ih
  | map _ _ _ ih => exact fun n hn => List.mem_append_right _ (ih hn)

/-- The file refers to the structs inside the fields of its structs. -/
theorem referred_of_entry {e : Text × StructDesc} (he : e ∈ file.structs) :
    ∀ f ∈ e.2.fields, ∀ n ∈ structNames f.type, n ∈ referredStructs file :=
  fun f hf _ hn => List.mem_flatMap.2 ⟨e, he, List.mem_flatMap.2 ⟨f, hf, hn⟩⟩

theorem structFits_of_entry (hplain : file.Plain) {e : Text × StructDesc}
    (he : e ∈ file.structs) : StructFits file e.2 :=
  ⟨hplain.structs e he, fun f hf => ⟨hplain.fields e he f hf, referred_of_entry he f hf⟩⟩

/-- The structs that a closed file refers to are there under their names. -/
theorem exists_entry_of_referred (hclosed : file.Closed) {n : Text}
    (hn : n ∈ referredStructs file) :
    ∃ d, file.findStruct n = some d ∧ d.name = n ∧ (n, d) ∈ file.structs := by
  obtain ⟨e, he, hn⟩ := List.mem_flatMap.1 hn
  obtain ⟨f, hf, hn⟩ := List.mem_flatMap.1 hn
  obtain ⟨d, hd⟩ := Table.isSome_get?_of_has
    (hclosed.structs e he f hf n (structNames_subset _ hn))
  have hmem := Table.mem_of_get? hd
  exact ⟨d, hd, hclosed.named _ hmem, hmem⟩

theorem resolves_of_closed (hclosed : file.Closed) (hplain : file.Plain) : Resolves file := by
  intro n hn
  obtain ⟨d, hd, hname, hmem⟩ := exists_entry_of_referred hclosed hn
  exact ⟨d, hd, hname, structFits_of_entry hplain hmem⟩

/-- The structs that methods take and return fit, as they are structs of the file. -/
theorem structFits_of_method (hclosed : file.Closed) (hplain : file.Plain) {d : ServiceDesc}
    (hd : d ∈ file.services) {m : MethodDesc} (hm : m ∈ d.methods) {x : StructDesc}
    (hx : m.request = some x ∨ m.response = some x) : StructFits file x :=
  structFits_of_entry hplain (Table.mem_of_get? (hclosed.methods d hd m hm x hx))

/-! ## Documents without components -/

/-- A document that refers to known names and has no components yet. -/
structure Unfinished (r : Registry Object) (doc : Object) : Prop where
  kind : doc.kind = .document
  components : doc.given? .components = none
  linked : LinkedIn r doc

theorem Extends.unfinished {r r' : Registry Object} (h : Extends r r') {doc : Object}
    (hdoc : Unfinished r doc) : Unfinished r' doc :=
  ⟨hdoc.kind, hdoc.components, h.linked hdoc.linked⟩

theorem Unfinished.set {r : Registry Object} {doc : Object} (h : Unfinished r doc) {m : Member}
    {c : Slot} (hm : m ≠ .ref) (hcomponents : m ≠ .components) (hc : SlotLinked (Known r) c) :
    Unfinished r (doc.set m c) where
  kind := h.kind
  components := by rw [given?_set, if_neg hcomponents, h.components]
  linked := h.linked.set hm hc

theorem documentOwner?_eq_none (hplain : file.Plain) : documentOwner? file = none := by
  have hservices : ∀ d ∈ file.services, d.annotations.has Annotation.documentKey = false :=
    fun d hd => hplain.services d hd _ (by decide +kernel)
  have hstructs : ∀ n d, file.findStruct n = some d →
      d.annotations.has Annotation.documentKey = false := fun n d hd =>
    hplain.structs _ (Table.mem_of_get? hd) _ (by decide +kernel)
  unfold documentOwner?
  rw [List.find?_eq_none]
  intro o ho
  rcases List.mem_append.1 ho with ho | ho
  · obtain ⟨d, hd, rfl⟩ := List.mem_map.1 ho
    simp [hservices d hd]
  · obtain ⟨d, hd, rfl⟩ := List.mem_map.1 ho
    obtain ⟨n, -, hn⟩ := List.mem_filterMap.1 hd
    simp [hstructs n d hn]

theorem yields_openingDocument (hplain : file.Plain) (hs : Sound file s.registry) (c : Config) :
    Yields file (openingDocument c file) s Unfinished := by
  unfold openingDocument
  rw [documentOwner?_eq_none hplain]
  refine yields_pure hs ⟨rfl, rfl, linked_build (by decide) ?_⟩
  have hinfo : LinkedIn s.registry (.build .info [(.title, .text (c.title.getD [])),
      (.description, .ofText? c.description), (.version, .text (c.version.getD []))]) :=
    linked_build (by decide) (by simp)
  simpa using hinfo

/-! ## Adding operations -/

theorem Unfinished.putOperation {r : Registry Object} {doc op : Object} (h : Unfinished r doc)
    (hop : LinkedIn r op) (path verb : Text) : Unfinished r (putOperation path verb op doc) := by
  have hpaths : TableLinked r (doc.table .paths) := h.linked.table .paths
  have hitem : LinkedIn r (((doc.table .paths).get? path).getD (.empty .pathItem)) := by
    cases hget : (doc.table .paths).get? path with
    | none => exact linked_empty (by decide)
    | some item => exact hpaths _ (Table.mem_of_get? hget)
  refine h.set (by decide) (by decide) (slotLinked_table.2 (hpaths.insert ?_))
  generalize ((doc.table .paths).get? path).getD (.empty .pathItem) = item at hitem ⊢
  cases hset : item.setOperation? verb op with
  | none => exact hitem
  | some item' => exact hitem.setOperation? hop hset

theorem yields_addBinding (hs : Sound file s.registry) {mode : Mode} {d : ServiceDesc}
    {m : MethodDesc} (hm : ∀ x, m.request = some x ∨ m.response = some x → StructFits file x)
    (hplain : m.annotations.Plain) {doc : Object} (hdoc : Unfinished s.registry doc)
    (b : Binding) : Yields file (addBinding mode d m b doc) s Unfinished := by
  unfold addBinding
  dsimp only
  split
  · exact (yields_note hs _).bind fun _ t ht hext _ => yields_pure ht (hext.unfinished hdoc)
  · refine (yields_note hs _).bind fun _ t ht hext _ => ?_
    refine (yields_operationOf ht hm b.verb).bind fun op u hu hext' hop => ?_
    refine (yields_payload? hu (hplain _ (by decide))).bind ?_
    rintro _ v hv hext'' rfl
    have hdoc' := ((hext.trans hext').trans hext'').unfinished hdoc
    exact yields_pure hv (hdoc'.putOperation (hext''.linked hop) _ _)

/-- A step that keeps what is known of a document can be taken for each item of a list. -/
theorem yields_foldlM {α : Type} {f : Object → α → Building Object} {xs : List α} {doc : Object}
    (hf : ∀ x ∈ xs, ∀ t doc, Sound file t.registry → Unfinished t.registry doc →
      Yields file (f doc x) t Unfinished)
    (hs : Sound file s.registry) (hdoc : Unfinished s.registry doc) :
    Yields file (xs.foldlM f doc) s Unfinished := by
  induction xs generalizing s doc with
  | nil => exact yields_pure hs hdoc
  | cons x rest ih =>
    rw [List.foldlM_cons]
    refine (hf x List.mem_cons_self s doc hs hdoc).bind fun doc' t ht _ hdoc' => ?_
    exact ih (fun y hy => hf y (List.mem_cons_of_mem _ hy)) ht hdoc'

theorem Unfinished.addTag {r : Registry Object} {doc : Object} (h : Unfinished r doc)
    (mode : Mode) (d : ServiceDesc) : Unfinished r (addTag mode d doc) := by
  unfold Generation.addTag
  split
  · refine h.set (by decide) (by decide) (slotLinked_objects.2 fun o ho => ?_)
    rcases List.mem_append.1 ho with ho | ho
    · exact h.linked.objects .tags o ho
    · rw [List.mem_singleton.1 ho]
      exact linked_build (by decide) (by simp [description])
  · exact h

theorem mem_of_mem_boundMethods {mode : Mode} {d : ServiceDesc} {m : MethodDesc} {b : Binding}
    (h : (m, b) ∈ boundMethods mode d) : m ∈ d.methods := by
  obtain ⟨m', hm', hb⟩ := List.mem_flatMap.1 h
  obtain ⟨_, -, heq⟩ := List.mem_map.1 hb
  cases heq
  exact hm'

theorem mem_bindingsOf_of_mem_boundMethods {d : ServiceDesc} {m : MethodDesc} {b : Binding}
    (h : (m, b) ∈ boundMethods mode d) : b ∈ bindingsOf mode m := by
  obtain ⟨m', -, h⟩ := List.mem_flatMap.1 h
  obtain ⟨b', hb', heq⟩ := List.mem_map.1 h
  cases heq
  exact hb'

theorem yields_addService (hclosed : file.Closed) (hplain : file.Plain)
    (hs : Sound file s.registry) {mode : Mode} {d : ServiceDesc} (hd : d ∈ file.services)
    {doc : Object} (hdoc : Unfinished s.registry doc) :
    Yields file (addService mode doc d) s Unfinished := by
  unfold addService
  refine Yields.bind (yields_foldlM ?_ hs hdoc) fun doc' t ht _ hdoc' =>
    yields_pure ht (hdoc'.addTag mode d)
  rintro ⟨m, b⟩ hmb t doc ht hdoc
  have hm := mem_of_mem_boundMethods hmb
  exact yields_addBinding ht (fun x => structFits_of_method hclosed hplain hd hm)
    (hplain.methods d hd m hm) hdoc b

/-! ## Finishing -/

theorem linked_infoOf {r : Registry Object} {doc : Object} (h : LinkedIn r doc) :
    LinkedIn r (infoOf doc) := by
  unfold infoOf
  cases hinfo : doc.object? .info with
  | none => exact linked_empty (by decide)
  | some info => exact h.object? hinfo

theorem linked_fillIn {r : Registry Object} {o : Object} {m : Member} {c : Slot}
    (h : LinkedIn r o) (hm : m ≠ .ref) (hc : SlotLinked (Known r) c) :
    LinkedIn r (fillIn m c o) := by
  unfold fillIn
  split
  · exact h.set hm hc
  · exact h

theorem Unfinished.promoteTag {r : Registry Object} {doc : Object} (h : Unfinished r doc) :
    Unfinished r (promoteTag doc) := by
  unfold Generation.promoteTag
  split
  · next tag htags =>
    have htag : LinkedIn r tag := h.linked.objects .tags tag (htags ▸ List.mem_singleton.2 rfl)
    have hinfo := linked_infoOf h.linked
    dsimp only
    refine Unfinished.set (h.set (by decide) (by decide) (slotLinked_object.2 ?_)) (by decide)
      (by decide) (slotLinked_objects.2 ?_)
    · refine linked_fillIn ?_ (by decide) (htag.get _)
      split
      · exact hinfo
      · exact linked_fillIn hinfo (by decide) (slotLinked_text _)
    · intro o ho
      rw [List.mem_singleton.1 ho]
      exact htag.set (by decide) slotLinked_null
  · exact h

theorem Unfinished.fillInfo {r : Registry Object} {doc : Object} (h : Unfinished r doc) :
    Unfinished r (fillInfo doc) := by
  refine h.set (by decide) (by decide) (slotLinked_object.2 ?_)
  refine linked_fillIn (linked_fillIn (linked_fillIn (linked_infoOf h.linked) ?_ ?_) ?_ ?_) ?_ ?_
  all_goals first | decide | exact slotLinked_text _

theorem Unfinished.hoistServers {r : Registry Object} {doc : Object} (h : Unfinished r doc)
    (url : Text) : Unfinished r (doc.hoistServers url) := by
  obtain ⟨hkind, hgiven⟩ :=
    kind_and_given?_hoistServers doc url (m := .components) (by decide) (by decide)
  exact ⟨hkind.trans h.kind, hgiven.trans h.components, h.linked.hoistServers url⟩

theorem Unfinished.sortDocument {r : Registry Object} {doc : Object} (h : Unfinished r doc) :
    Unfinished r (sortDocument doc) := by
  refine Unfinished.set (h.set (by decide) (by decide) (slotLinked_objects.2 fun o ho => ?_))
    (by decide) (by decide) (slotLinked_table.2 fun e he => ?_)
  · exact h.linked.objects .tags o ((List.mergeSort_perm _ _).mem_iff.1 ho)
  · exact h.linked.table .paths e (Table.mem_sort.1 he)

/-- What is said of the references of a finished document: each leads to a component schema that is
    there. -/
def Resolving (doc : Value) : Prop :=
  ∀ ref ∈ Spec.references doc, ∃ n, ref = schemaLead ++ n ∧
    ∃ schema, Spec.Pointer.follow doc ["components", "schemas", n] = some schema

theorem addComponents_eq {r : Registry Object} {doc : Object} (h : Unfinished r doc)
    (schemas : Table Object) :
    addComponents schemas doc =
      doc.set .components (.object (.build .components [(.schemas, .table schemas.sort)])) := by
  have hget : doc.object? .components = some (.empty .components) := by
    unfold Object.object? Object.get
    rw [h.components, h.kind]
    rfl
  unfold addComponents
  rw [hget]
  rfl

/-- The registered schemas become components under their names. -/
theorem follow_addComponents {r : Registry Object} {doc : Object} (h : Unfinished r doc) {n : Text}
    (hn : r.schemas.has n = true) :
    ∃ schema, Spec.Pointer.follow (addComponents r.schemas doc).toValue
      ["components", "schemas", n] = some schema := by
  rw [addComponents_eq h]
  obtain ⟨o, ho⟩ := Table.isSome_get?_of_has ((Table.has_sort r.schemas n).trans hn)
  have hschema : (toValue.slot (.table r.schemas.sort)).get? n = some o.toValue := by
    rw [get?_table, ho]
    rfl
  have hschemas : (toValue.slot (.object (.build .components
      [(.schemas, .table r.schemas.sort)]))).get? "schemas" =
        some (toValue.slot (.table r.schemas.sort)) :=
    get?_toValue (s := ⟨.schemas, .schemas, .defaulted⟩) rfl (List.mem_singleton.2 rfl)
      (by decide) rfl
      (isVoid_of_get? hschema)
  -- Neither mapping is empty, as the schema is in it, so neither is left out.
  have hcomponents := get?_toValue (s := ⟨.components, .object .components, .defaulted⟩)
    (o := doc.set .components _) h.linked.extras (by rw [kind_set, h.kind]; decide) (by decide)
    (given?_set doc .components .components _) (isVoid_of_get? hschemas)
  refine ⟨o.toValue, ?_⟩
  have hfollow : ∀ {v w : Value} {key : Text} {keys : List Text}, v.get? key = some w →
      Spec.Pointer.follow v (key :: keys) = Spec.Pointer.follow w keys := fun h => by
    rw [Spec.Pointer.follow, h, Option.bind_some]
  exact (hfollow hcomponents).trans ((hfollow hschemas).trans (hfollow hschema))

/-- Where every known name is registered, the references of the finished document lead to registered
    names. -/
theorem has_schemas_of_reference {r : Registry Object} {doc : Object} (h : Unfinished r doc)
    (hs : Sound file r) (hall : ∀ n ∈ r.required, r.schemas.has n = true) :
    ∀ ref ∈ Spec.references (addComponents r.schemas doc).toValue,
      ∃ n, ref = schemaLead ++ n ∧ r.schemas.has n = true := by
  have hregistered : ∀ ref, Known r ref → ∃ n, ref = schemaLead ++ n ∧ r.schemas.has n = true := by
    rintro _ ⟨n, rfl, hn⟩
    exact ⟨n, rfl, hn.elim (hall n) id⟩
  refine references_toValue ?_
  rw [addComponents_eq h]
  refine (h.linked.mono hregistered).set (by decide) (slotLinked_object.2 ?_)
  refine linked_build (by decide) fun e he => ?_
  rw [List.mem_singleton.1 he, slotLinked_table]
  exact fun e he => (hs.linked e (Table.mem_sort.1 he)).mono hregistered

/-- So the finished document resolves. -/
theorem resolving_addComponents {r : Registry Object} {doc : Object} (h : Unfinished r doc)
    (hs : Sound file r) (hall : ∀ n ∈ r.required, r.schemas.has n = true) :
    Resolving (addComponents r.schemas doc).toValue := by
  intro ref href
  obtain ⟨n, rfl, hn⟩ := has_schemas_of_reference h hs hall ref href
  exact ⟨n, rfl, follow_addComponents h hn⟩

/-! ## Whole documents -/

/-- A generation step whose session is closed up to the notices. -/
theorem ends_documentOf_of_build {c : Config} {notices : List Notice} {doc : Object}
    (h : Ends (buildDocument c file) ⟨.empty, notices⟩ doc s) :
    Ends (documentOf c file) notices doc s.notices := by
  show ((((buildDocument c file).run.run ⟨.empty, notices⟩).1,
    ((buildDocument c file).run.run ⟨.empty, notices⟩).2.notices) : _ × _) = _
  rw [h]

/-- The operations of all services, before anything is expanded. -/
theorem yields_operations (hclosed : file.Closed) (hplain : file.Plain) (c : Config)
    (hs : Sound file s.registry) :
    Yields file (do
      let doc ← openingDocument c file
      file.services.foldlM (addService c.mode) doc) s Unfinished :=
  (yields_openingDocument hplain hs c).bind fun _ _ ht _ hdoc =>
    yields_foldlM (fun _ hd _ _ hu hdoc => yields_addService hclosed hplain hu hd hdoc) ht hdoc

/-- A closed file without payloads always has a document: one without components of its own gets the
    registered schemas, among which are those of all names that have been required. -/
theorem ends_buildDocument (hclosed : file.Closed) (hplain : file.Plain) (c : Config)
    (notices : List Notice) :
    ∃ doc u, Ends (buildDocument c file) ⟨.empty, notices⟩
        (addComponents u.registry.schemas doc) u ∧
      Unfinished u.registry doc ∧ Sound file u.registry ∧
      ∀ n ∈ u.registry.required, u.registry.schemas.has n = true := by
  obtain ⟨doc, t, hbuild, ht, hext, hdoc⟩ :=
    yields_operations (s := ⟨.empty, notices⟩) hclosed hplain c (sound_empty file)
  have hpending : Pending t.registry := hext.pending (by simp [Pending, Registry.empty])
  obtain ⟨u, hexpand, hu, hknown, hall⟩ := ends_expandRequired (resolves_of_closed hclosed hplain)
    (t.registry.queue.length + (referredStructs file).length + 1) ht hpending
    (by unfold work; omega)
  -- The expansion registers more schemas, and the links of the document keep their targets.
  have hdoc' : Unfinished u.registry doc :=
    ⟨hdoc.kind, hdoc.components, hdoc.linked.mono hknown⟩
  refine ⟨_, u, ?_, (hdoc'.promoteTag.fillInfo.hoistServers c.fallbackServer).sortDocument, hu,
    hall⟩
  obtain ⟨opening, t', hopening, hservices⟩ := ends_bind.1 hbuild
  unfold buildDocument expandAll
  simp only [ends_bind]
  exact ⟨opening, t', hopening, doc, t, hservices, (), u, ⟨t, t, ends_get.2 ⟨rfl, rfl⟩, hexpand⟩,
    u, u, ends_get.2 ⟨rfl, rfl⟩, ends_pure.2 ⟨rfl, rfl⟩⟩

/-- The document of a closed file without payloads resolves. -/
theorem ends_documentOf (hclosed : file.Closed) (hplain : file.Plain) (c : Config)
    (notices : List Notice) :
    ∃ doc notices', Ends (documentOf c file) notices doc notices' ∧ Resolving doc.toValue := by
  obtain ⟨doc, u, hbuild, hdoc, hu, hall⟩ := ends_buildDocument hclosed hplain c notices
  exact ⟨_, u.notices, ends_documentOf_of_build hbuild, resolving_addComponents hdoc hu hall⟩

/-- Whatever some sources reflect to is closed, and where no payload is given, every document of it
    resolves. -/
theorem reflected_closed_and_resolving (h : Reflected file) :
    file.Closed ∧ (file.Plain → ∀ (c : Config) (notices : List Notice), ∃ doc notices',
      Ends (documentOf c file) notices doc notices' ∧ Resolving doc.toValue) :=
  ⟨h.closed, fun hplain => ends_documentOf h.closed hplain⟩

/-- Two sources that import each other, with messages that refer to each other. -/
def ringSources : Proto.SourceSet where
  sources := [
    { path := "node.proto", imports := [1],
      file := { Proto.File.empty with
        imports := ["edge.proto"]
        messages := [⟨"Node", [⟨"Edge", "edges", 1, true, none, none, [], []⟩], [], [], [], []⟩]
        services := [⟨"Graph", [⟨"Follow", "Edge", "Node", false, false, [], []⟩], [], []⟩] } },
    { path := "edge.proto", imports := [0],
      file := { Proto.File.empty with
        imports := ["node.proto"]
        messages := [⟨"Edge", [⟨"Node", "end", 1, false, none, none, [], []⟩], [], [], [], []⟩] } }]

/-- What the two sources reflect to. -/
def ringFile : FileDesc :=
  let node : StructDesc := ⟨"Node", [⟨"edges", .list (.struct "Edge"), [], [], false⟩], [], []⟩
  let edge : StructDesc := ⟨"Edge", [⟨"end", .struct "Node", [], [], false⟩], [], []⟩
  { path := "node.proto", package := []
    services := [⟨"Graph", [⟨"Follow", some edge, some node, [], []⟩], [], []⟩]
    structs := [("Node", node), ("Edge", edge)]
    enums := [], localStructs := ["Node"] }

theorem order_ringSources : ringSources.order = [0, 1] := by
  simp [ringSources, Proto.SourceSet.order, Traversal.breadthFirst, Traversal.sweep,
    Proto.SourceSet.source?]

theorem reflected_ringFile : Reflected ringFile := by
  refine .proto (ends_of_toOption (x := ringSources.reflect) (s := []) ?_)
  unfold Proto.SourceSet.reflect Proto.SourceSet.symbols Proto.SourceSet.enums
    Proto.SourceSet.files
  rw [order_ringSources]
  decide +kernel

theorem plain_ringFile : ringFile.Plain := by
  constructor <;> unfold Annotations.Plain <;> decide

theorem ringFile_closed_and_resolving :
    Reflected ringFile ∧ ringFile.Plain ∧ ringFile.Closed ∧
      ∀ (c : Config) (notices : List Notice), ∃ doc notices',
        Ends (documentOf c ringFile) notices doc notices' ∧ Resolving doc.toValue :=
  ⟨reflected_ringFile, plain_ringFile, (reflected_closed_and_resolving reflected_ringFile).1,
    (reflected_closed_and_resolving reflected_ringFile).2 plain_ringFile⟩

end Generation

end IdlBridge
