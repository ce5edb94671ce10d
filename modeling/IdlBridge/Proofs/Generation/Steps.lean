import IdlBridge.Proofs.Generation.Closure
import IdlBridge.Proofs.Generation.Finishing

/-! # The steps of a generation

    The operations of a file are built one after the other, but none can tell which ones have been
    built before it: the steps are uniform.  What they demand of the registry is agreed on, as long
    as the names of components are apart.

    `Collected` says what a document has while its operations are being built: the operations and
    the tags of the steps so far, in their order, and its settings.
-/

namespace IdlBridge.Generation

open OpenApi Object

variable {file : FileDesc} {mode : Mode} {s t : Session}

/-! ## Steps of a file -/

/-- Builds the operation of a binding. -/
def boundOperation (mode : Mode) (d : ServiceDesc) (m : MethodDesc) (b : Binding) :
    Building Object := do
  let owner := methodOwner d m
  Building.note (.buildingOperation b.verb b.path owner)
  let op ← operationOf mode d m b.verb
  return op.overlay? (← Building.payload? m.annotations Annotation.operationKey .operation owner)

/-- The place that a binding asks for, with the step that builds its operation. -/
def stepsBy (mode : Mode) (d : ServiceDesc) (e : MethodDesc × Binding) :
    List (Place × Building Object) :=
  (placeOf? e.2).toList.map fun p => (p, boundOperation mode d e.1 e.2)

/-- The steps that build the operations of a file. -/
def steps (mode : Mode) (file : FileDesc) : List (Place × Building Object) :=
  file.services.flatMap fun d => (boundMethods mode d).flatMap (stepsBy mode d)

/-- A binding to a single verb has its operation built, and then put into the document. -/
theorem addBinding_eq {b : Binding} (hany : b.verb ≠ everyVerb) (d : ServiceDesc) (m : MethodDesc)
    (doc : Object) : addBinding mode d m b doc = boundOperation mode d m b >>= fun op =>
      pure (putOperation (Route.colonsToBraces b.path) b.verb op doc) := by
  unfold addBinding boundOperation
  simp only [if_neg hany, bind_assoc, pure_bind]

theorem stepsBy_of_everyVerb {b : Binding} (hany : b.verb = everyVerb) (d : ServiceDesc)
    (m : MethodDesc) : stepsBy mode d (m, b) = [] := by
  have hnone : verb? everyVerb = none := by decide +kernel
  unfold stepsBy placeOf?
  rw [hany, hnone]
  rfl

/-- The steps have the places that are asked for. -/
theorem map_fst_steps (mode : Mode) (file : FileDesc) :
    (steps mode file).map Prod.fst = (asked mode file).map Prod.fst := by
  unfold steps asked
  rw [List.map_flatMap, List.map_flatMap]
  refine List.flatMap_congr fun d _ => ?_
  rw [List.map_flatMap, List.map_flatMap]
  refine List.flatMap_congr fun e _ => ?_
  unfold stepsBy askedBy
  rw [List.map_map, List.map_map]
  rfl

/-! ## Demands of operations -/

/-- A method of the file returns the struct. -/
def IsResponse (file : FileDesc) (x : StructDesc) : Prop :=
  ∃ d ∈ file.services, ∃ m ∈ d.methods, m.response = some x

/-- No two different pairs of a response struct and a placement for bodies give the same name to
    a component.  A pair whose schema has no properties gives no component. -/
def NamesApart (file : FileDesc) : Prop :=
  ∀ x y, IsResponse file x → IsResponse file y →
    ∀ e ∈ responseNames .http x, ∀ f ∈ responseNames .http y,
      (∃ schema, Fills x e.2 schema) → (∃ schema, Fills y f.2 schema) → e.1 = f.1 →
        x = y ∧ e.2 = f.2

/-- What the steps of a file ask for: names that structs of the file refer to, and the components of
    responses. -/
def Asks (mode : Mode) (file : FileDesc) : Demand → Prop
  | .require n => n ∈ referredStructs file
  | .register n o => ∃ x, IsResponse file x ∧ ∃ e ∈ responseNames mode x, e.1 = n ∧ Fills x e.2 o

/-- No two schemas are registered under one name. -/
theorem eq_of_asks (hclosed : file.Closed) (hapart : mode = .http → NamesApart file) {n : Text}
    {o o' : Object} (h : Asks mode file (.register n o)) (h' : Asks mode file (.register n o')) :
    o = o' := by
  obtain ⟨x, hx, e, he, rfl, hfills⟩ := h
  obtain ⟨y, hy, f, hf, hname, hfills'⟩ := h'
  suffices x = y ∧ e.2 = f.2 by
    obtain ⟨rfl, hplacement⟩ := this
    rw [hplacement] at hfills
    exact hfills.eq hfills'
  cases mode with
  | http => exact hapart rfl x y hx hy e he f hf ⟨o, hfills⟩ ⟨o', hfills'⟩ hname.symm
  | rpc =>
    -- A response is registered under the name of its struct, which has no other struct.
    cases List.mem_singleton.1 he
    cases List.mem_singleton.1 hf
    obtain ⟨d, hd, m, hm, hresponse⟩ := hx
    obtain ⟨d', hd', m', hm', hresponse'⟩ := hy
    have hfind := hclosed.methods d hd m hm x (Or.inr hresponse)
    have hfind' := hclosed.methods d' hd' m' hm' y (Or.inr hresponse')
    rw [show y.name = x.name from hname, hfind] at hfind'
    exact ⟨Option.some.inj hfind', rfl⟩

theorem uniform_of_mem_steps (hclosed : file.Closed) {e : Place × Building Object}
    (he : e ∈ steps mode file) : Uniform (Asks mode file) e.2 := by
  obtain ⟨d, hd, he⟩ := List.mem_flatMap.1 he
  obtain ⟨⟨m, b⟩, hmb, he⟩ := List.mem_flatMap.1 he
  obtain ⟨p, -, rfl⟩ := List.mem_map.1 he
  have hm := mem_of_mem_boundMethods hmb
  unfold boundOperation
  refine (uniform_note _).bind fun _ _ => ?_
  -- The structs of a method are among those of the file.
  refine (uniform_operationOf mode d (fun x hx => ?_) (fun x hx e he schema hfills => ?_) _).bind
    fun _ _ => (uniform_payload? _ _ _ _).bind fun _ _ => uniform_pure _
  · exact referred_of_entry (Table.mem_of_get? (hclosed.methods d hd m hm x hx))
  · exact ⟨x, ⟨d, hd, m, hm, hx⟩, e, he, rfl, hfills⟩

theorem grounded_of_closed (hclosed : file.Closed) : Grounded file := by
  intro n hn
  obtain ⟨d, hd, hname, hmem⟩ := exists_entry_of_referred hclosed hn
  refine ⟨d, hd, hname, uniform_componentOf fun f hf k hk => ?_⟩
  exact ⟨k, referred_of_entry hmem f hf k hk, rfl⟩

/-! ## Collecting operations -/

/-- The tag of a service with operations. -/
def tagsOf (mode : Mode) (d : ServiceDesc) : List Object :=
  if (boundMethods mode d).any (·.2.verb ≠ everyVerb) then
    [.build .tag [(.name, .text d.name), (.description, description d.comment)]]
  else []

/-- The document has the operations and the tags that have been put into it, in their order, and
    nothing else beyond its settings. -/
structure Collected (c : Config) (doc : Object) (ops : List (Place × Object))
    (tags : List Object) : Prop where
  kind : doc.kind = .document
  extras : doc.extras = []
  given : ∀ m, m ≠ .tags → m ≠ .paths → doc.given? m = (blankDocument c).given? m
  tags : doc.objects .tags = tags
  paths : doc.table .paths = ops.foldl place []

theorem collected_blankDocument (c : Config) : Collected c (blankDocument c) [] [] :=
  ⟨rfl, rfl, fun _ _ _ => rfl, rfl, rfl⟩

variable {c : Config} {doc doc' : Object} {ops ops' : List (Place × Object)}
  {tags tags' : List Object}

theorem Collected.place (h : Collected c doc ops tags) (e : Place × Object) :
    Collected c (doc.set .paths (.table (place (doc.table .paths) e))) (ops ++ [e]) tags where
  kind := h.kind
  extras := h.extras
  given := by
    intro m htags hpaths
    rw [given?_set, if_neg (Ne.symm hpaths)]
    exact h.given m htags hpaths
  tags := by
    rw [objects_set_of_ne (by decide)]
    exact h.tags
  paths := by
    rw [table_set_self, List.foldl_append, h.paths]
    rfl

theorem Collected.addTag (h : Collected c doc ops tags) (mode : Mode) (d : ServiceDesc) :
    Collected c (addTag mode d doc) ops (tags ++ tagsOf mode d) := by
  unfold Generation.addTag tagsOf
  split
  · constructor
    case kind => exact h.kind
    case extras => exact h.extras
    case given =>
      intro m htags hpaths
      rw [given?_set, if_neg (Ne.symm htags)]
      exact h.given m htags hpaths
    case tags => rw [objects_set_self, h.tags]
    case paths =>
      rw [table_set_of_ne (by decide)]
      exact h.paths
  · rw [List.append_nil]
    exact h

/-- In whatever order the same operations and tags have been collected, the documents differ in
    their order only. -/
theorem Collected.sameButOrder (h : Collected c doc ops tags) (h' : Collected c doc' ops' tags')
    (hops : ops.Perm ops') (hplaces : (ops.map Prod.fst).Nodup) (htags : tags.Perm tags')
    (hnames : (tags.map fun tag => tag.text .name).Nodup) : SameButOrder doc doc' where
  kind := h'.kind.trans h.kind.symm
  extras := h'.extras.trans h.extras.symm
  given m htags hpaths := (h'.given m htags hpaths).trans (h.given m htags hpaths).symm
  tags := by
    rw [h.tags, h'.tags]
    exact htags
  tagNames := by
    rw [h.tags]
    exact hnames
  paths := by
    rw [h.paths, h'.paths]
    -- No place is taken twice, so the order of the operations is that of the keys only.
    refine (samePaths_of_perm hops hplaces (.refl [])).paired ?_ ?_
    · exact nodup_keys_foldl_place (t := []) List.nodup_nil ops
    · exact nodup_keys_foldl_place (t := []) List.nodup_nil ops'
  pathKeys := by
    rw [h.paths]
    exact nodup_keys_foldl_place (t := []) List.nodup_nil ops

/-! ## Running the steps -/

section Steps

variable (op : Place × Building Object → Object) (ds : Place × Building Object → List Demand)

/-- The step makes the demands of the listed steps, and puts their operations and the tags into a
    document. -/
def Collects (c : Config) (f : Object → Building Object) (es : List (Place × Building Object))
    (new : List Object) : Prop :=
  ∀ doc ops tags, Collected c doc ops tags → ∃ doc',
    Acts (f doc) (.ok doc') (es.flatMap ds) ∧
      Collected c doc' (ops ++ es.map fun e => (e.1, op e)) (tags ++ new)

variable {op ds}

/-- A binding of a method is to every verb, or it has a place. -/
theorem exists_placeOf? {m : MethodDesc} {b : Binding} (hb : b ∈ bindingsOf mode m)
    (hany : b.verb ≠ everyVerb) : ∃ v, verb? b.verb = some v := by
  have hverbs : ∀ e ∈ Annotation.verbs, e.2 ≠ everyVerb → (verb? e.2).isSome = true := by
    decide +kernel
  cases mode with
  | rpc =>
    have hpost : verb? "POST" = some .post := by decide +kernel
    cases List.mem_singleton.1 hb
    exact ⟨.post, hpost⟩
  | http =>
    obtain ⟨e, he, hb⟩ := List.mem_filterMap.1 hb
    obtain ⟨path, -, rfl⟩ := Option.map_eq_some_iff.1 hb
    exact Option.isSome_iff_exists.1 (hverbs e he hany)

theorem collects_addBinding {d : ServiceDesc} {m : MethodDesc} {b : Binding}
    (hb : b ∈ bindingsOf mode m)
    (h : ∀ e ∈ stepsBy mode d (m, b), Acts e.2 (.ok (op e)) (ds e)) :
    Collects op ds c (addBinding mode d m b) (stepsBy mode d (m, b)) [] := by
  intro doc ops tags hdoc
  by_cases hany : b.verb = everyVerb
  -- A binding to every verb leaves a notice only.
  · unfold addBinding
    rw [stepsBy_of_everyVerb hany, if_pos hany]
    refine ⟨doc, (acts_note _).bind (acts_pure doc), ?_⟩
    rw [List.map_nil, List.append_nil, List.append_nil]
    exact hdoc
  -- Any other binding puts one operation at one place.
  · obtain ⟨v, hv⟩ := exists_placeOf? hb hany
    have hsteps : stepsBy mode d (m, b) =
        [((Route.colonsToBraces b.path, v), boundOperation mode d m b)] := by
      unfold stepsBy placeOf?
      rw [hv]
      rfl
    rw [hsteps] at h ⊢
    have hacts := h _ (List.mem_singleton.2 rfl)
    have hput : ∀ op, putOperation (Route.colonsToBraces b.path) b.verb op doc =
        doc.set .paths (.table
          (Object.place (doc.table .paths) ((Route.colonsToBraces b.path, v), op))) := by
      intro op
      unfold putOperation setOperation? Object.place
      rw [hv]
      rfl
    simp only [addBinding_eq hany, hput, List.append_nil]
    exact ⟨_, hacts.bind (acts_pure _), hdoc.place _⟩

/-- A loop collects what its rounds collect. -/
theorem collects_foldlM {α : Type} {f : Object → α → Building Object} {as : List α}
    {es : α → List (Place × Building Object)} {new : α → List Object}
    (hf : ∀ a ∈ as, Collects op ds c (fun doc => f doc a) (es a) (new a)) :
    Collects op ds c (fun doc => as.foldlM f doc) (as.flatMap es) (as.flatMap new) := by
  induction as with
  | nil =>
    intro doc ops tags hdoc
    refine ⟨doc, acts_pure doc, ?_⟩
    rw [List.flatMap_nil, List.flatMap_nil, List.map_nil, List.append_nil, List.append_nil]
    exact hdoc
  | cons a rest ih =>
    obtain ⟨ha, hrest⟩ := List.forall_mem_cons.1 hf
    intro doc ops tags hdoc
    obtain ⟨mid, hacts, hmid⟩ := ha doc ops tags hdoc
    obtain ⟨doc', hacts', hdoc'⟩ := ih hrest mid _ _ hmid
    refine ⟨doc', ?_, ?_⟩
    · show Acts ((a :: rest).foldlM f doc) _ _
      rw [List.foldlM_cons, List.flatMap_cons, List.flatMap_append]
      exact hacts.bind hacts'
    · rw [List.flatMap_cons, List.flatMap_cons, List.map_append, ← List.append_assoc,
        ← List.append_assoc]
      exact hdoc'

theorem collects_addService {d : ServiceDesc}
    (h : ∀ e ∈ (boundMethods mode d).flatMap (stepsBy mode d), Acts e.2 (.ok (op e)) (ds e)) :
    Collects op ds c (fun doc => addService mode doc d)
      ((boundMethods mode d).flatMap (stepsBy mode d)) (tagsOf mode d) := by
  intro doc ops tags hdoc
  -- The tags of a service are added behind its operations, so the loop collects none.
  have hloop : Collects op ds c
      (fun doc => (boundMethods mode d).foldlM (fun doc e => addBinding mode d e.1 e.2 doc) doc)
      ((boundMethods mode d).flatMap (stepsBy mode d))
      ((boundMethods mode d).flatMap fun _ => []) := by
    refine collects_foldlM ?_
    rintro ⟨m, b⟩ hmb
    exact collects_addBinding (mem_bindingsOf_of_mem_boundMethods hmb) fun e he =>
      h e (List.mem_flatMap.2 ⟨_, hmb, he⟩)
  obtain ⟨mid, hacts, hmid⟩ := hloop doc ops tags hdoc
  refine ⟨addTag mode d mid, ?_, ?_⟩
  · have hall := hacts.bind (f := fun doc => pure (addTag mode d doc)) (acts_pure _)
    rw [List.append_nil] at hall
    exact hall
  · rw [List.flatMap_eq_nil_iff.2 fun _ _ => rfl, List.append_nil] at hmid
    exact hmid.addTag mode d

theorem collects_services (h : ∀ e ∈ steps mode file, Acts e.2 (.ok (op e)) (ds e)) :
    Collects op ds c (fun doc => file.services.foldlM (addService mode) doc) (steps mode file)
      (file.services.flatMap (tagsOf mode)) :=
  collects_foldlM fun d hd =>
    collects_addService fun e he => h e (List.mem_flatMap.2 ⟨d, hd, he⟩)

end Steps

/-- Where the operations of all services have been put into a document, every step has succeeded. -/
theorem ends_of_mem_steps {doc doc' : Object}
    (h : Ends (file.services.foldlM (addService mode) doc) s doc' t) {e : Place × Building Object}
    (he : e ∈ steps mode file) : ∃ s' o t', Ends e.2 s' o t' := by
  obtain ⟨d, hd, he⟩ := List.mem_flatMap.1 he
  obtain ⟨⟨m, b⟩, hmb, he⟩ := List.mem_flatMap.1 he
  obtain ⟨_, _, _, _, hservice⟩ := exists_ends_of_foldlM h hd
  obtain ⟨_, _, hloop, -⟩ := ends_bind.1 hservice
  obtain ⟨doc, _, _, _, hround⟩ := exists_ends_of_foldlM hloop hmb
  have hany : b.verb ≠ everyVerb := by
    intro hany
    rw [stepsBy_of_everyVerb hany] at he
    cases he
  obtain ⟨p, -, rfl⟩ := List.mem_map.1 he
  dsimp only at hround
  rw [addBinding_eq hany] at hround
  obtain ⟨op, _, hop, -⟩ := ends_bind.1 hround
  exact ⟨_, op, _, hop⟩

end IdlBridge.Generation
