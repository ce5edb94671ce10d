import IdlBridge.Proofs.Generation.Steps

/-! # The order of services and methods

    Services can be declared in any order, and so can the methods of a service: the document of the
    file stays the same, as data.

    The steps in another order build the same operations, require the same names and register the
    same schemas.  From there on the expansion reaches the same names, and finishing the document
    forgets the order.  If a payload stops one of the two generations, it stops the other one, too.
-/

namespace IdlBridge

/-- The methods of a service in another order. -/
structure ServiceDesc.Rearranged (d d' : ServiceDesc) : Prop where
  name : d'.name = d.name
  annotations : d'.annotations = d.annotations
  comment : d'.comment = d.comment
  methods : d.methods.Perm d'.methods

/-- The services of a file, and the methods inside them, in another order. -/
structure FileDesc.Rearranged (file file' : FileDesc) : Prop where
  path : file'.path = file.path
  package : file'.package = file.package
  services : Paired ServiceDesc.Rearranged file.services file'.services
  structs : file'.structs = file.structs
  enums : file'.enums = file.enums
  localStructs : file'.localStructs = file.localStructs

namespace Generation

open OpenApi Object

variable {file file' : FileDesc} {mode : Mode} {c : Config} {s t : Session}

/-! ## Steps in another order -/

/-- Of the service, an operation only depends on the name and the annotations. -/
theorem boundOperation_eq {d d' : ServiceDesc} (h : d.Rearranged d') :
    boundOperation mode d' = boundOperation mode d := by
  funext m b
  unfold boundOperation operationOf declaredServer? methodOwner
  rw [h.name, h.annotations]

theorem perm_boundMethods {d d' : ServiceDesc} (h : d.Rearranged d') :
    (boundMethods mode d).Perm (boundMethods mode d') :=
  h.methods.flatMap_right _

theorem perm_steps (h : file.Rearranged file') : (steps mode file).Perm (steps mode file') := by
  refine h.services.flatMap_perm fun d _ d' hd => ?_
  have hsteps : stepsBy mode d' = stepsBy mode d := by
    unfold stepsBy
    rw [boundOperation_eq hd]
  rw [hsteps]
  exact (perm_boundMethods hd).flatMap_right _

/-! ## Whole documents -/

/-- The document as it is finished. -/
def finished (c : Config) (doc : Object) : Object :=
  (fillInfo (promoteTag doc)).hoistServers c.fallbackServer

theorem ends_buildDocument_iff (howner : documentOwner? file = none) {doc : Object} :
    Ends (buildDocument c file) s doc t ↔ ∃ mid u,
      Ends (file.services.foldlM (addService c.mode) (blankDocument c)) s mid u ∧
        Ends (expandAll file) u () t ∧
        addComponents t.registry.schemas (sortDocument (finished c mid)) = doc := by
  unfold buildDocument openingDocument
  rw [howner]
  constructor
  · intro h
    obtain ⟨blank, _, hblank, h⟩ := ends_bind.1 h
    obtain ⟨rfl, rfl⟩ := ends_pure.1 hblank
    obtain ⟨mid, u, hmid, h⟩ := ends_bind.1 h
    obtain ⟨_, v, hexpand, h⟩ := ends_bind.1 h
    obtain ⟨_, _, hget, h⟩ := ends_bind.1 h
    obtain ⟨rfl, rfl⟩ := ends_get.1 hget
    obtain ⟨rfl, rfl⟩ := ends_pure.1 h
    exact ⟨mid, u, hmid, hexpand, rfl⟩
  · rintro ⟨mid, u, hmid, hexpand, rfl⟩
    refine ends_bind.2 ⟨_, s, ends_pure.2 ⟨rfl, rfl⟩, ends_bind.2 ⟨mid, u, hmid, ?_⟩⟩
    refine ends_bind.2 ⟨(), t, hexpand, ends_bind.2 ⟨t, t, ends_get.2 ⟨rfl, rfl⟩, ?_⟩⟩
    exact ends_pure.2 ⟨rfl, rfl⟩

theorem componentsOf_finished (c : Config) (doc : Object) :
    componentsOf (finished c doc) = componentsOf doc := by
  have hpromote : (promoteTag doc).get .components = doc.get .components := by
    unfold promoteTag
    split
    · rw [get_set, if_neg (by decide), get_set, if_neg (by decide)]
    · rfl
  have hfill : (fillInfo (promoteTag doc)).get .components = doc.get .components := by
    unfold fillInfo
    rw [get_set, if_neg (by decide), hpromote]
  obtain ⟨hkind, hgiven⟩ := kind_and_given?_hoistServers (fillInfo (promoteTag doc))
    c.fallbackServer (m := .components) (by decide) (by decide)
  unfold componentsOf object? finished
  rw [← hfill]
  unfold Object.get
  rw [hkind, hgiven]

theorem Collected.componentsOf_eq {c : Config} {doc : Object} {ops : List (Place × Object)}
    {tags : List Object} (h : Collected c doc ops tags) : componentsOf doc = [] := by
  unfold componentsOf object? Object.get
  rw [h.given _ (by decide) (by decide), h.kind]
  rfl

theorem SameButOrder.finished {doc doc' : Object} (h : SameButOrder doc doc') (c : Config) :
    SameButOrder (finished c doc) (Generation.finished c doc') :=
  h.promoteTag.fillInfo.hoistServers c.fallbackServer

/-! ## Tags -/

theorem tagsOf_eq {d d' : ServiceDesc} (h : d.Rearranged d') : tagsOf mode d' = tagsOf mode d := by
  unfold tagsOf
  rw [h.name, h.comment, (perm_boundMethods h).any_eq]

theorem perm_tags (h : file.Rearranged file') (mode : Mode) :
    (file.services.flatMap (tagsOf mode)).Perm (file'.services.flatMap (tagsOf mode)) :=
  h.services.flatMap_perm fun _ _ _ hd => .of_eq (tagsOf_eq hd).symm

/-- A service has at most one tag, of its own name. -/
theorem nodup_tagNames (h : (file.services.map fun d => d.name).Nodup) (mode : Mode) :
    ((file.services.flatMap (tagsOf mode)).map fun tag => tag.text .name).Nodup := by
  -- The names of the tags are those of some of the services, in their order.
  refine List.Sublist.nodup ?_ h
  generalize file.services = ds
  induction ds with
  | nil => exact .slnil
  | cons d rest ih =>
    rw [List.flatMap_cons, List.map_append, List.map_cons]
    unfold tagsOf at ih ⊢
    split
    · exact ih.cons_cons _
    · exact ih.cons _

/-! ## Outcomes -/

/-- The outcome of a generation. -/
def outcome (c : Config) (file : FileDesc) (notices : List Notice) :
    Except GenerationError Object :=
  ((documentOf c file).run.run notices).1

theorem outcome_eq_ok {notices : List Notice} {doc : Object}
    (h : Ends (buildDocument c file) ⟨.empty, notices⟩ doc t) : outcome c file notices = .ok doc :=
  congrArg Prod.fst h

/-- There is only one way to fail. -/
theorem outcome_eq_error {notices : List Notice}
    (h : ∀ doc t, ¬ Ends (buildDocument c file) ⟨.empty, notices⟩ doc t) :
    outcome c file notices = .error .impossiblePayload := by
  rcases houtcome : outcome c file notices with ⟨⟩ | doc
  · rfl
  · exact (h doc _ (Prod.ext houtcome rfl)).elim

/-- When all steps succeed, the generation fails exactly if the expansion does. -/
theorem outcome_of_acts {op : Place × Building Object → Object}
    {ds : Place × Building Object → List Demand} (hgrounded : Grounded file)
    (howner : documentOwner? file = none)
    (hacts : ∀ e ∈ steps c.mode file, Acts e.2 (.ok (op e)) (ds e))
    (hds : ∀ n, Demand.require n ∈ (steps c.mode file).flatMap ds → n ∈ referredStructs file)
    (notices : List Notice) :
    ∃ mid, Collected c mid ((steps c.mode file).map fun e => (e.1, op e))
        (file.services.flatMap (tagsOf c.mode)) ∧
      ((∃ schemas, Expanded file (registryOf ((steps c.mode file).flatMap ds)) schemas ∧
          ¬ Fails file (registryOf ((steps c.mode file).flatMap ds)) ∧
          outcome c file notices = .ok (addComponents schemas (sortDocument (finished c mid)))) ∨
        (Fails file (registryOf ((steps c.mode file).flatMap ds)) ∧
          outcome c file notices = .error .impossiblePayload)) := by
  obtain ⟨mid, hloop, hmid⟩ := collects_services hacts _ _ _ (collected_blankDocument c)
  obtain ⟨u, hu, hregistry⟩ := hloop.ends ⟨.empty, notices⟩
  refine ⟨mid, hmid, ?_⟩
  -- The expansion starts in the registry that the demands of the steps lead to.
  have hstart := expanding_registryOf hds
  change u.registry = registryOf ((steps c.mode file).flatMap ds) at hregistry
  rw [← hregistry] at hstart ⊢
  rcases expandAll_expanded_or_fails hgrounded hstart with
    ⟨t, ht, hexpanded, hfails⟩ | ⟨hnone, hfails⟩
  · refine Or.inl ⟨t.registry.schemas, hexpanded, hfails, outcome_eq_ok (t := t) ?_⟩
    exact (ends_buildDocument_iff howner).2 ⟨mid, u, hu, ht, rfl⟩
  · refine Or.inr ⟨hfails, outcome_eq_error fun doc t h => ?_⟩
    obtain ⟨mid', u', hu', ht, -⟩ := (ends_buildDocument_iff howner).1 h
    obtain rfl : u = u' := (Prod.mk.inj (hu.symm.trans hu')).2
    exact hnone t ht

/-- When a step fails, so does the generation. -/
theorem outcome_of_step (howner : documentOwner? file = none) {e : Place × Building Object}
    (he : e ∈ steps c.mode file) (h : ∀ s o t, ¬ Ends e.2 s o t) (notices : List Notice) :
    outcome c file notices = .error .impossiblePayload := by
  refine outcome_eq_error fun doc t hends => ?_
  obtain ⟨mid, u, hloop, -⟩ := (ends_buildDocument_iff howner).1 hends
  obtain ⟨s, o, t, hstep⟩ := ends_of_mem_steps hloop he
  exact h s o t hstep

/-! ## Services and methods in another order -/

theorem documentOwner?_of_rearranged (h : file.Rearranged file')
    (howner : documentOwner? file = none) : documentOwner? file' = none := by
  have hservices := h.services.map_perm (f := fun d => (d.name, d.annotations))
    fun d _ d' hd => by rw [hd.name, hd.annotations]
  unfold documentOwner? FileDesc.findStruct at howner ⊢
  rw [h.localStructs, h.structs]
  rw [List.find?_eq_none] at howner ⊢
  intro o ho
  exact howner o ((hservices.append_right _).mem_iff.2 ho)

theorem grounded_of_rearranged (h : file.Rearranged file') (hgrounded : Grounded file) :
    Grounded file' := by
  unfold Grounded RequiresStruct referredStructs FileDesc.findStruct at *
  rw [h.structs]
  exact hgrounded

/-- When all steps succeed, both orders have the same operations and the same demands. -/
theorem toValue_outcome_of_acts {op : Place × Building Object → Object}
    {ds : Place × Building Object → List Demand} (hclosed : file.Closed)
    (howner : documentOwner? file = none) (hservices : (file.services.map fun d => d.name).Nodup)
    (hplaces : ((asked c.mode file).map Prod.fst).Nodup)
    (hapart : c.mode = .http → NamesApart file) (hfile' : file.Rearranged file')
    (hacts : ∀ e ∈ steps c.mode file, Acts e.2 (.ok (op e)) (ds e))
    (hasks : ∀ e ∈ steps c.mode file, ∀ d ∈ ds e, Asks c.mode file d)
    (notices notices' : List Notice) :
    (outcome c file' notices').map toValue = (outcome c file notices).map toValue := by
  have hsteps : (steps c.mode file).Perm (steps c.mode file') := perm_steps hfile'
  have hdemands := hsteps.flatMap_right ds
  have hall : ∀ d ∈ (steps c.mode file).flatMap ds, Asks c.mode file d := by
    intro d hd
    obtain ⟨e, he, hd⟩ := List.mem_flatMap.1 hd
    exact hasks e he d hd
  -- The demands agree on what they register, so their order is forgotten.
  have hcoherent : Coherent ((steps c.mode file).flatMap ds) := fun n o o' ho ho' =>
    eq_of_asks hclosed hapart (hall _ ho) (hall _ ho')
  have hsame := sameEntries_of_perm hcoherent hdemands
  have hgrounded := grounded_of_closed hclosed
  have hrequired' : ∀ n, Demand.require n ∈ (steps c.mode file').flatMap ds →
      n ∈ referredStructs file' := by
    intro n hn
    unfold referredStructs
    rw [hfile'.structs]
    exact hall _ (hdemands.mem_iff.2 hn)
  obtain ⟨mid, hmid, hfirst⟩ :=
    outcome_of_acts hgrounded howner hacts (fun n hn => hall _ hn) notices
  obtain ⟨mid', hmid', hsecond⟩ := outcome_of_acts (grounded_of_rearranged hfile' hgrounded)
    (documentOwner?_of_rearranged hfile' howner) (fun e he => hacts e (hsteps.mem_iff.2 he))
    hrequired' notices'
  rcases hfirst with ⟨schemas, hexpanded, hfails, hfirst⟩ | ⟨hfails, hfirst⟩ <;>
    rcases hsecond with ⟨schemas', hexpanded', hfails', hsecond⟩ | ⟨hfails', hsecond⟩
  -- Both expansions succeed: the documents before them differ in their order only.
  · have hplaces' : (((steps c.mode file).map fun e => (e.1, op e)).map Prod.fst).Nodup := by
      rw [List.map_map]
      exact map_fst_steps c.mode file ▸ hplaces
    have hdocs := (hmid.sameButOrder hmid' (hsteps.map _) hplaces' (perm_tags hfile' _)
      (nodup_tagNames hservices _)).finished c
    have hown : componentsOf (finished c mid) = [] := by
      rw [componentsOf_finished, hmid.componentsOf_eq]
    rw [hfirst, hsecond]
    exact congrArg Except.ok (hdocs.toValue_addComponents hown hexpanded.keys
      (hsame.perm hfile'.structs hexpanded hexpanded'))
  -- The expansion does not fail in one order only.
  · exact absurd (hsame.symm.fails hfile'.structs.symm hfails') hfails
  · exact absurd (hsame.fails hfile'.structs hfails) hfails'
  · rw [hfirst, hsecond]

/-- The document of a reflected file does not depend on the order in which its services and their
    methods are declared.  It is the same data, with its keys in the same order; and where one
    order fails, so does every other. -/
theorem toValue_documentOf_of_rearranged (h : Reflected file)
    (howner : documentOwner? file = none) (hservices : (file.services.map fun d => d.name).Nodup)
    (hplaces : ((asked c.mode file).map Prod.fst).Nodup)
    (hapart : c.mode = .http → NamesApart file) (hfile' : file.Rearranged file')
    (notices notices' : List Notice) :
    ((documentOf c file').run.run notices').1.map Object.toValue =
      ((documentOf c file).run.run notices).1.map Object.toValue := by
  show (outcome c file' notices').map toValue = (outcome c file notices).map toValue
  have huniform : ∀ e ∈ steps c.mode file, Uniform (Asks c.mode file) e.2 := fun e he =>
    uniform_of_mem_steps h.closed he
  -- A step fails from every session or from none.
  by_cases hall : ∀ e ∈ steps c.mode file, ∃ op ds, Acts e.2 (.ok op) ds ∧
      ∀ d ∈ ds, Asks c.mode file d
  · have : Nonempty Object := ⟨.empty .document⟩
    choose! op ds hacts hasks using hall
    exact toValue_outcome_of_acts h.closed howner hservices hplaces hapart hfile' hacts hasks _ _
  · -- Some step fails, in whatever order it is taken.
    obtain ⟨e, he, hfails⟩ : ∃ e ∈ steps c.mode file, ∀ s o t, ¬ Ends e.2 s o t := by
      by_contra hnone
      refine hall fun e he => ?_
      obtain ⟨r, ds, hacts, hds⟩ := huniform e he
      by_contra hop
      refine hnone ⟨e, he, fun s o t hends => hop ⟨o, ds, ?_, hds⟩⟩
      rwa [← hacts.eq_ok hends]
    have he' := (perm_steps hfile').mem_iff.1 he
    rw [outcome_of_step howner he hfails,
      outcome_of_step (documentOwner?_of_rearranged hfile' howner) he' hfails]

/-- A source with two services, one of which has two methods. -/
def basketSources : Proto.SourceSet where
  sources := [
    { path := "basket.proto", imports := []
      file := { Proto.File.empty with
        messages := [
          ⟨"Item", [⟨"string", "name", 1, false, none, none, [⟨"api.body", .text "name"⟩], []⟩],
            [], [], [], []⟩,
          ⟨"Page", [⟨"Item", "items", 1, true, none, none, [⟨"api.body", .text "items"⟩], []⟩],
            [], [], [], []⟩]
        services := [
          ⟨"Basket", [
            ⟨"List", "google.protobuf.Empty", "Page", false, false,
              [⟨"api.get", .text "/items"⟩], []⟩,
            ⟨"Add", "Item", "Item", false, false, [⟨"api.post", .text "/items"⟩], []⟩], [], []⟩,
          ⟨"Stock", [⟨"Take", "Item", "google.protobuf.Empty", false, false,
            [⟨"api.delete", .text "/items"⟩], []⟩], [], []⟩] } }]

/-- An item of a basket. -/
def basketItem : StructDesc :=
  ⟨"Item", [⟨"name", .scalar "string", [("api.body", .scalar "name")], [], false⟩], [], []⟩

/-- A page of items. -/
def basketPage : StructDesc :=
  ⟨"Page", [⟨"items", .list (.struct "Item"), [("api.body", .scalar "items")], [], false⟩], [], []⟩

/-- A service with two methods. -/
def basketService : ServiceDesc :=
  ⟨"Basket", [⟨"List", none, some basketPage, [("api.get", .scalar "/items")], []⟩,
    ⟨"Add", some basketItem, some basketItem, [("api.post", .scalar "/items")], []⟩], [], []⟩

/-- A service with one method. -/
def stockService : ServiceDesc :=
  ⟨"Stock", [⟨"Take", some basketItem, none, [("api.delete", .scalar "/items")], []⟩], [], []⟩

/-- What the source reflects to. -/
def basketFile : FileDesc where
  path := "basket.proto"
  package := []
  services := [basketService, stockService]
  structs := [("Item", basketItem), ("Page", basketPage)]
  enums := []
  localStructs := ["Item", "Page"]

/-- The other service first, and the methods of this one the other way round. -/
def turnedFile : FileDesc :=
  { basketFile with
    services := [stockService, { basketService with methods := basketService.methods.reverse }] }

theorem reflected_basketFile : Reflected basketFile := by
  have horder : basketSources.order = [0] := by
    simp [basketSources, Proto.SourceSet.order, Traversal.breadthFirst, Traversal.sweep,
      Proto.SourceSet.source?]
  refine .proto (ends_of_toOption (x := basketSources.reflect) (s := []) ?_)
  unfold Proto.SourceSet.reflect Proto.SourceSet.symbols Proto.SourceSet.enums
    Proto.SourceSet.files
  rw [horder]
  decide +kernel

theorem rearranged_turnedFile : basketFile.Rearranged turnedFile where
  path := rfl
  package := rfl
  services := by
    refine ⟨[(basketService, { basketService with methods := basketService.methods.reverse }),
      (stockService, stockService)], rfl, List.Perm.swap _ _ [], ?_⟩
    intro p hp
    rcases List.mem_cons.1 hp with rfl | hp
    · exact ⟨rfl, rfl, rfl, (List.reverse_perm _).symm⟩
    · cases List.mem_singleton.1 hp
      exact ⟨rfl, rfl, rfl, .refl _⟩
  structs := rfl
  enums := rfl
  localStructs := rfl

theorem namesApart_basketFile : NamesApart basketFile := by
  have hresponses : ∀ x, IsResponse basketFile x → x = basketPage ∨ x = basketItem := by
    rintro x ⟨d, hd, m, hm, hx⟩
    have hall : ∀ d ∈ basketFile.services, ∀ m ∈ d.methods,
        m.response = none ∨ m.response = some basketPage ∨ m.response = some basketItem := by
      decide
    rcases hall d hd m hm with h | h | h <;> rw [h] at hx <;> cases hx
    · exact Or.inl rfl
    · exact Or.inr rfl
  intro x y hx hy e he f hf _ _ hname
  have hnames : ∀ x ∈ [basketPage, basketItem], ∀ y ∈ [basketPage, basketItem],
      ∀ e ∈ responseNames .http x, ∀ f ∈ responseNames .http y,
        e.1 = f.1 → x = y ∧ e.2 = f.2 := by
    decide
  refine hnames x ?_ y ?_ e he f hf hname
  · rcases hresponses x hx with rfl | rfl <;> simp
  · rcases hresponses y hy with rfl | rfl <;> simp

/-- Both orders have a document, and it is the same. -/
theorem toValue_turnedDocument : Reflected basketFile ∧ basketFile.Rearranged turnedFile ∧
    ∃ doc doc' notices notices', Ends (documentOf {} basketFile) [] doc notices ∧
      Ends (documentOf {} turnedFile) [] doc' notices' ∧ doc'.toValue = doc.toValue := by
  have hreflected := reflected_basketFile
  have hplain : basketFile.Plain := by
    constructor <;> unfold Annotations.Plain <;> decide
  have howner := documentOwner?_eq_none hplain
  obtain ⟨doc, notices, hends, -⟩ := ends_documentOf hreflected.closed hplain {} []
  have hplaces : ((asked .http basketFile).map Prod.fst).Nodup := by
    decide +kernel
  have hsame := toValue_documentOf_of_rearranged (c := {}) hreflected howner (by decide) hplaces
    (fun _ => namesApart_basketFile) rearranged_turnedFile [] []
  rw [hends] at hsame
  rcases hrun : (documentOf {} turnedFile).run.run [] with ⟨_ | doc', notices'⟩
  · rw [hrun] at hsame
    cases hsame
  · rw [hrun] at hsame
    exact ⟨hreflected, rearranged_turnedFile, doc, doc', notices, notices', hends, hrun,
      Except.ok.inj hsame⟩

end Generation

end IdlBridge
