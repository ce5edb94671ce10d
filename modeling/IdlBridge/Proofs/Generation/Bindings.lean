import IdlBridge.Proofs.Collections
import IdlBridge.Proofs.Generation.Document
import IdlBridge.Proofs.OpenApi.Operations
import IdlBridge.Proofs.Reflection.Worded
import Mathlib.Data.List.Dedup

/-! # Operations of bindings

    Every binding of a method asks for an operation at a place.  The operations are put there one
    after the other, and an operation takes the place of the one before it.  So a document has
    exactly the places that are asked for, and at each the operation that has been asked for last
    (`Gathers`): no operation is lost if and only if no place is asked for twice.
-/

namespace IdlBridge.Generation

open OpenApi Object

variable {file : FileDesc} {s t : Session}

/-! ## What is asked for -/

/-- The place of the operation of a binding; the binding to every verb has none. -/
def placeOf? (b : Binding) : Option Place :=
  (verb? b.verb).map fun v => (Route.colonsToBraces b.path, v)

/-- The identifier of the operations of a method. -/
def operationIdOf (d : ServiceDesc) (m : MethodDesc) : Text :=
  d.name ++ "_" ++ m.name

/-- The place and the identifier that a binding asks for. -/
def askedBy (d : ServiceDesc) (e : MethodDesc × Binding) : List (Place × Text) :=
  (placeOf? e.2).toList.map fun p => (p, operationIdOf d e.1)

/-- The operations that a file asks for, in the order in which they are put into the document. -/
def asked (mode : Mode) (file : FileDesc) : List (Place × Text) :=
  file.services.flatMap fun d => (boundMethods mode d).flatMap (askedBy d)

/-- The identifier that is asked for last at a place. -/
def lastAsked (xs : List (Place × Text)) (p : Place) : Option Text :=
  (xs.reverse.find? (·.1 = p)).map (·.2)

theorem lastAsked_concat (xs : List (Place × Text)) (p q : Place) (id : Text) :
    lastAsked (xs ++ [(p, id)]) q = if p = q then some id else lastAsked xs q := by
  unfold lastAsked
  rw [List.reverse_append, List.reverse_singleton, List.singleton_append]
  by_cases hpq : p = q <;> simp [hpq]

/-! ## Putting operations into a document -/

/-- The document has the operations of the list, the last one at each place. -/
structure Gathers (doc : Object) (xs : List (Place × Text)) : Prop where
  keys : (doc.table .paths).keys.Nodup
  last : ∀ path, ∀ v ∈ verbs,
    ((doc.table .paths).get? path).bind (fun item => item.operationIdAt v) =
      lastAsked xs (path, v)

theorem Gathers.putOperation {doc op : Object} {xs : List (Place × Text)} {d : ServiceDesc}
    {m : MethodDesc} (h : Gathers doc xs) (hop : op.text .operationId = operationIdOf d m)
    (b : Binding) :
    Gathers (putOperation (Route.colonsToBraces b.path) b.verb op doc)
      (xs ++ askedBy d (m, b)) := by
  unfold Generation.putOperation askedBy placeOf?
  dsimp only
  generalize Route.colonsToBraces b.path = path
  constructor
  · rw [table_set_self]
    exact Table.nodup_keys_insert h.keys _ _
  · intro path' v' hv'
    -- A path that is not there yet counts as one without operations.
    have hitem : (((doc.table .paths).get? path).getD (.empty .pathItem)).operationIdAt v' =
        lastAsked xs (path, v') := by
      rw [← h.last path v' hv']
      cases (doc.table .paths).get? path with
      | some item => rfl
      | none =>
        revert hv'
        cases v' <;> decide
    rw [table_set_self, Table.get?_insert]
    unfold setOperation?
    cases hverb : verb? b.verb with
    | none =>
      rw [Option.map_none, Option.map_none, Option.toList_none, List.map_nil, List.append_nil]
      split
      · next hpath =>
        subst hpath
        exact hitem
      · exact h.last path' v' hv'
    | some v =>
      rw [Option.map_some, Option.map_some, Option.toList_some, List.map_singleton,
        lastAsked_concat]
      by_cases hpath : path = path'
      · subst hpath
        rw [if_pos rfl, Option.bind_some, Option.getD_some, operationIdAt_set, hop, hitem]
        by_cases hv : v = v' <;> simp [hv]
      · have hplace : ((path, v) : Place) ≠ (path', v') := fun heq => hpath (Prod.mk.inj heq).1
        rw [if_neg hpath, if_neg hplace]
        exact h.last path' v' hv'

theorem Gathers.set {doc : Object} {xs : List (Place × Text)} (h : Gathers doc xs) {m : Member}
    (hm : m ≠ .paths) (c : Slot) : Gathers (doc.set m c) xs := by
  constructor
  · rw [table_set_of_ne hm]
    exact h.keys
  · rw [table_set_of_ne hm]
    exact h.last

/-! ## Steps of a generation -/

theorem operationId_of_operationOf {mode : Mode} {d : ServiceDesc} {m : MethodDesc} {verb : Text}
    {op : Object} (h : Ends (operationOf mode d m verb) s op t) :
    op.text .operationId = operationIdOf d m := by
  unfold operationOf at h
  obtain ⟨⟨parameters, body⟩, _, -, h⟩ := ends_bind.1 h
  obtain ⟨response, _, -, h⟩ := ends_bind.1 h
  obtain ⟨rfl, -⟩ := ends_pure.1 h
  split
  · exact text_set_of_ne (by decide) _ _
  · rfl

/-- Where the key of a payload is missing, there is none. -/
theorem eq_none_of_payload? {as : Annotations} {key owner : Text} {k : Kind} {p : Option Object}
    (hkey : as.has key = false) (h : Ends (Building.payload? as key k owner) s p t) : p = none := by
  unfold Building.payload? Annotations.data? at h
  rw [Table.get?_eq_none_of_has hkey] at h
  exact (ends_pure.1 h).1.symm

theorem Gathers.addBinding {mode : Mode} {d : ServiceDesc} {m : MethodDesc} {b : Binding}
    {doc doc' : Object} {xs : List (Place × Text)} (hplain : m.annotations.Plain)
    (h : Gathers doc xs) (hends : Ends (addBinding mode d m b doc) s doc' t) :
    Gathers doc' (xs ++ askedBy d (m, b)) := by
  unfold Generation.addBinding at hends
  dsimp only at hends
  split at hends
  · next hany =>
    obtain ⟨_, _, -, hends⟩ := ends_bind.1 hends
    obtain ⟨rfl, -⟩ := ends_pure.1 hends
    -- The binding to every verb is skipped, and asks for nothing.
    have hnone : verb? everyVerb = none := by decide +kernel
    have hasked : askedBy d (m, b) = [] := by
      unfold askedBy placeOf?
      rw [hany, hnone]
      rfl
    rw [hasked, List.append_nil]
    exact h
  · obtain ⟨_, _, -, hends⟩ := ends_bind.1 hends
    obtain ⟨op, _, hop, hends⟩ := ends_bind.1 hends
    obtain ⟨p, _, hp, hends⟩ := ends_bind.1 hends
    obtain ⟨rfl, -⟩ := ends_pure.1 hends
    obtain rfl := eq_none_of_payload? (hplain _ (by decide)) hp
    exact h.putOperation (operationId_of_operationOf hop) b

/-- A loop whose rounds add operations adds those of all rounds. -/
theorem Gathers.foldlM {α : Type} {f : Object → α → Building Object}
    {g : α → List (Place × Text)} {as : List α}
    (hf : ∀ a ∈ as, ∀ {s t doc doc' xs}, Gathers doc xs → Ends (f doc a) s doc' t →
      Gathers doc' (xs ++ g a))
    {doc doc' : Object} {xs : List (Place × Text)} (h : Gathers doc xs)
    (hends : Ends (as.foldlM f doc) s doc' t) : Gathers doc' (xs ++ as.flatMap g) := by
  induction as generalizing s doc xs with
  | nil =>
    obtain ⟨rfl, -⟩ := ends_pure.1 hends
    rw [List.flatMap_nil, List.append_nil]
    exact h
  | cons a rest ih =>
    rw [List.foldlM_cons] at hends
    obtain ⟨mid, _, hmid, hends⟩ := ends_bind.1 hends
    rw [List.flatMap_cons, ← List.append_assoc]
    refine ih (fun b hb => hf b (List.mem_cons_of_mem _ hb)) ?_ hends
    exact hf a List.mem_cons_self h hmid

theorem Gathers.addTag {doc : Object} {xs : List (Place × Text)} (h : Gathers doc xs) (mode : Mode)
    (d : ServiceDesc) : Gathers (addTag mode d doc) xs := by
  unfold Generation.addTag
  split
  · exact h.set (by decide) _
  · exact h

theorem Gathers.addService {mode : Mode} {d : ServiceDesc}
    (hplain : ∀ m ∈ d.methods, m.annotations.Plain) {doc doc' : Object}
    {xs : List (Place × Text)} (h : Gathers doc xs)
    (hends : Ends (addService mode doc d) s doc' t) :
    Gathers doc' (xs ++ (boundMethods mode d).flatMap (askedBy d)) := by
  unfold Generation.addService at hends
  obtain ⟨mid, _, hmid, hends⟩ := ends_bind.1 hends
  obtain ⟨rfl, -⟩ := ends_pure.1 hends
  refine Gathers.addTag (Gathers.foldlM ?_ h hmid) mode d
  rintro ⟨m, b⟩ hmb s t doc doc' xs h hends
  exact h.addBinding (hplain m (mem_of_mem_boundMethods hmb)) hends

/-! ## Whole documents -/

theorem gathers_blankDocument (c : Config) : Gathers (blankDocument c) [] := by
  constructor
  · exact List.nodup_nil
  · intro path v _
    rfl

/-- Sorting the paths changes nothing but the order. -/
theorem placed_sortDocument (doc : Object) : (sortDocument doc).placed.Perm doc.placed := by
  unfold sortDocument placed
  rw [table_set_self]
  exact (List.mergeSort_perm _ _).flatMap_right _

theorem placed_fillInfo (doc : Object) : (fillInfo doc).placed = doc.placed :=
  placed_set (by decide) doc _

theorem placed_promoteTag (doc : Object) : (promoteTag doc).placed = doc.placed := by
  unfold promoteTag
  split
  · dsimp only
    rw [placed_set (by decide), placed_set (by decide)]
  · rfl

theorem placed_addComponents (schemas : Table Object) (doc : Object) :
    (addComponents schemas doc).placed = doc.placed :=
  placed_set (by decide) doc _

theorem build_of_ends_documentOf {c : Config} {notices notices' : List Notice} {doc : Object}
    (h : Ends (documentOf c file) notices doc notices') :
    ∃ t, Ends (buildDocument c file) ⟨.empty, notices⟩ doc t := by
  have hrun : (((buildDocument c file).run.run ⟨.empty, notices⟩).1,
      ((buildDocument c file).run.run ⟨.empty, notices⟩).2.notices) = (.ok doc, notices') := h
  exact ⟨_, Prod.ext (Prod.mk.inj hrun).1 rfl⟩

/-- The operations of a generated document are those that the bindings have put together. -/
theorem exists_gathers_of_documentOf (hplain : file.Plain) {c : Config}
    {notices notices' : List Notice} {doc : Object}
    (h : Ends (documentOf c file) notices doc notices') :
    ∃ mid, Gathers mid (asked c.mode file) ∧ doc.placed.Perm mid.placed := by
  obtain ⟨t, h⟩ := build_of_ends_documentOf h
  unfold buildDocument openingDocument at h
  rw [documentOwner?_eq_none hplain] at h
  obtain ⟨blank, _, hblank, h⟩ := ends_bind.1 h
  obtain ⟨rfl, -⟩ := ends_pure.1 hblank
  obtain ⟨mid, _, hmid, h⟩ := ends_bind.1 h
  obtain ⟨_, _, -, h⟩ := ends_bind.1 h
  obtain ⟨_, _, -, h⟩ := ends_bind.1 h
  obtain ⟨rfl, -⟩ := ends_pure.1 h
  refine ⟨mid, Gathers.foldlM (fun d hd => ?_) (gathers_blankDocument c) hmid, ?_⟩
  · intro s t doc doc' xs h hends
    exact h.addService (hplain.methods d hd) hends
  · rw [placed_addComponents]
    refine (placed_sortDocument _).trans ?_
    rw [placed_hoistServers, placed_fillInfo, placed_promoteTag]

/-! ## Counting operations -/

theorem Gathers.mem_placed {doc : Object} {xs : List (Place × Text)} (h : Gathers doc xs)
    {p : Place} {id : Text} :
    (p, id) ∈ doc.placed ↔ p.2 ∈ verbs ∧ lastAsked xs p = some id := by
  obtain ⟨path, v⟩ := p
  rw [OpenApi.Object.mem_placed h.keys]
  refine and_congr_right fun hv => ?_
  rw [h.last path v hv]

theorem mem_verbs_of_asked {mode : Mode} {e : Place × Text} (he : e ∈ asked mode file) :
    e.1.2 ∈ verbs := by
  obtain ⟨d, -, he⟩ := List.mem_flatMap.1 he
  obtain ⟨⟨m, b⟩, -, he⟩ := List.mem_flatMap.1 he
  obtain ⟨p, hp, rfl⟩ := List.mem_map.1 he
  obtain ⟨v, hv, rfl⟩ := Option.map_eq_some_iff.1 (Option.mem_toList.1 hp)
  exact List.mem_of_find?_eq_some hv

theorem isSome_lastAsked {xs : List (Place × Text)} {p : Place} :
    (lastAsked xs p).isSome ↔ p ∈ xs.map (·.1) := by
  unfold lastAsked
  rw [Option.isSome_map, List.find?_isSome]
  simp only [List.mem_reverse, decide_eq_true_eq, List.mem_map]

/-- Where no place is asked for twice, the last identifier that is asked for is the only one. -/
theorem lastAsked_eq_some {xs : List (Place × Text)} (h : (xs.map (·.1)).Nodup) {e : Place × Text}
    (he : e ∈ xs) : lastAsked xs e.1 = some e.2 := by
  have hsome : (lastAsked xs e.1).isSome := isSome_lastAsked.2 (List.mem_map_of_mem he)
  obtain ⟨id, hid⟩ := Option.isSome_iff_exists.1 hsome
  obtain ⟨f, hf, rfl⟩ := Option.map_eq_some_iff.1 hid
  have hplace : f.1 = e.1 := by simpa using List.find?_some hf
  have hmem : f ∈ xs := List.mem_reverse.1 (List.mem_of_find?_eq_some hf)
  rw [hid, List.inj_on_of_nodup_map h hmem he hplace]

/-- A document has as many operations as places are asked for. -/
theorem Gathers.length_placed {doc : Object} {mode : Mode} (h : Gathers doc (asked mode file)) :
    doc.placed.length = ((asked mode file).map (·.1)).dedup.length := by
  -- Both lists are without repetitions and have the same places.
  have hperm : (doc.placed.map (·.1)).Perm ((asked mode file).map (·.1)).dedup := by
    refine (List.perm_ext_iff_of_nodup (nodup_placed h.keys) (List.nodup_dedup _)).2 fun p => ?_
    rw [List.mem_dedup]
    constructor
    · intro hp
      obtain ⟨e, he, rfl⟩ := List.mem_map.1 hp
      rw [← isSome_lastAsked, (h.mem_placed.1 he).2]
      rfl
    · intro hp
      obtain ⟨id, hid⟩ := Option.isSome_iff_exists.1 (isSome_lastAsked.2 hp)
      obtain ⟨e, he, rfl⟩ := List.mem_map.1 hp
      exact List.mem_map.2 ⟨(e.1, id), h.mem_placed.2 ⟨mem_verbs_of_asked he, hid⟩, rfl⟩
  rw [← hperm.length_eq, List.length_map]

/-- The keys of a single verb that a method carries, with their verbs. -/
def verbsOf (m : MethodDesc) : List (Text × Text) :=
  List.filter (fun e => e.1 ≠ everyVerbKey ∧ m.annotations.has e.1 = true) Annotation.verbs

/-- The number of operations that a file is meant to have: one for each method, or one for each key
    of a single verb that a method carries. -/
def operationCount (mode : Mode) (file : FileDesc) : Nat :=
  let methods := file.services.flatMap fun d => d.methods
  match mode with
  | .rpc => methods.length
  | .http => (methods.flatMap verbsOf).length

theorem length_placesOf {mode : Mode} {m : MethodDesc} (h : m.annotations.Worded) :
    ((bindingsOf mode m).filterMap placeOf?).length =
      match mode with
      | .rpc => 1
      | .http => (verbsOf m).length := by
  cases mode with
  | rpc =>
    have hpost : verb? "POST" = some .post := by decide +kernel
    simp [bindingsOf, placeOf?, hpost]
  | http =>
    -- A key has a verb of its own unless it is that of every verb.
    have hverbs : ∀ e ∈ Annotation.verbs, (verb? e.2).isSome = decide (e.1 ≠ everyVerbKey) := by
      decide +kernel
    unfold bindingsOf verbsOf
    rw [List.filterMap_filterMap, List.length_filterMap_eq_countP, List.countP_eq_length_filter]
    refine congrArg List.length (List.filter_congr fun e he => ?_)
    have hfirst := h.isSome_first? e.1
    have hverb := hverbs e he
    unfold placeOf?
    cases hpath : m.annotations.first? e.1 with
    | none =>
      rw [hpath] at hfirst
      simp [← hfirst]
    | some path =>
      rw [hpath] at hfirst
      simp [← hfirst, hverb]

theorem length_askedBy (d : ServiceDesc) (m : MethodDesc) (bs : List Binding) :
    ((bs.map fun b => (m, b)).flatMap (askedBy d)).length = (bs.filterMap placeOf?).length := by
  induction bs with
  | nil => rfl
  | cons b rest ih =>
    rw [List.map_cons, List.flatMap_cons, List.length_append, ih, List.filterMap_cons]
    unfold askedBy
    cases placeOf? b with
    | none => simp
    | some p => simp [Nat.add_comm]

/-- A file asks for as many operations as it is meant to have. -/
theorem length_asked (h : file.Worded) (mode : Mode) :
    (asked mode file).length = operationCount mode file := by
  have hmethod : ∀ d ∈ file.services, ∀ m ∈ d.methods,
      (((bindingsOf mode m).map fun b => (m, b)).flatMap (askedBy d)).length = _ :=
    fun d hd m hm => (length_askedBy d m _).trans (length_placesOf (h d hd m hm))
  unfold asked operationCount boundMethods
  cases mode with
  | rpc =>
    refine length_flatMap_congr fun d hd => ?_
    rw [List.flatMap_assoc]
    refine (length_flatMap_congr (g := fun m => [m]) fun m hm => hmethod d hd m hm).trans ?_
    rw [List.flatMap_singleton']
  | http =>
    dsimp only
    rw [List.flatMap_assoc]
    refine length_flatMap_congr fun d hd => ?_
    rw [List.flatMap_assoc]
    exact length_flatMap_congr fun m hm => hmethod d hd m hm

/-! ## No operation is lost -/

/-- The document has all operations that the file is meant to have, under the verbs of their keys
    and with the identifiers of their methods. -/
structure Complete (mode : Mode) (file : FileDesc) (doc : Object) : Prop where
  count : doc.placed.length = operationCount mode file
  present : ∀ d ∈ file.services, ∀ m ∈ d.methods, ∀ b ∈ bindingsOf mode m, ∀ p,
    placeOf? b = some p → (p, operationIdOf d m) ∈ doc.placed

theorem mem_asked {mode : Mode} {d : ServiceDesc} (hd : d ∈ file.services) {m : MethodDesc}
    (hm : m ∈ d.methods) {b : Binding} (hb : b ∈ bindingsOf mode m) {p : Place}
    (hp : placeOf? b = some p) : (p, operationIdOf d m) ∈ asked mode file := by
  refine List.mem_flatMap.2 ⟨d, hd, List.mem_flatMap.2 ⟨(m, b), ?_, ?_⟩⟩
  · exact List.mem_flatMap.2 ⟨m, hm, List.mem_map.2 ⟨b, hb, rfl⟩⟩
  · exact List.mem_map.2 ⟨p, Option.mem_toList.2 hp, rfl⟩

theorem complete_iff_of_gathers {mode : Mode} (hworded : file.Worded) {mid doc : Object}
    (h : Gathers mid (asked mode file)) (hperm : doc.placed.Perm mid.placed) :
    Complete mode file doc ↔ ((asked mode file).map (·.1)).Nodup := by
  have hcount : doc.placed.length = operationCount mode file ↔
      ((asked mode file).map (·.1)).Nodup := by
    -- There are as many operations as places, and as many as asked for if no place comes twice.
    rw [hperm.length_eq, h.length_placed, ← length_asked hworded mode,
      ← List.length_map (f := fun e : Place × Text => e.1), (List.dedup_sublist _).length_eq,
      List.dedup_eq_self]
  constructor
  · intro hcomplete
    exact hcount.1 hcomplete.count
  · intro hnodup
    refine ⟨hcount.2 hnodup, fun d hd m hm b hb p hp => ?_⟩
    have hasked := mem_asked hd hm hb hp
    refine hperm.mem_iff.2 (h.mem_placed.2 ⟨mem_verbs_of_asked hasked, ?_⟩)
    exact lastAsked_eq_some hnodup hasked

/-- The document of a reflected file has one operation at each place that is asked for, the last one
    that is asked for there; so none is lost exactly if no place is asked for twice. -/
theorem complete_iff_nodup (h : Reflected file) (hplain : file.Plain) (c : Config)
    (notices : List Notice) : ∃ doc notices', Ends (documentOf c file) notices doc notices' ∧
      (doc.placed.map (·.1)).Nodup ∧
      (∀ p id, (p, id) ∈ doc.placed ↔ lastAsked (asked c.mode file) p = some id) ∧
      (Complete c.mode file doc ↔ ((asked c.mode file).map (·.1)).Nodup) := by
  obtain ⟨doc, notices', hends, -⟩ := ends_documentOf h.closed hplain c notices
  obtain ⟨mid, hmid, hperm⟩ := exists_gathers_of_documentOf hplain hends
  refine ⟨doc, notices', hends, ?_, ?_, complete_iff_of_gathers h.worded hmid hperm⟩
  · exact (hperm.map (·.1)).nodup_iff.2 (nodup_placed hmid.keys)
  · intro p id
    rw [hperm.mem_iff, hmid.mem_placed]
    -- Whatever is asked for is asked for under a verb.
    refine and_iff_right_of_imp fun hid => ?_
    have hp : p ∈ (asked c.mode file).map (·.1) := by
      rw [← isSome_lastAsked, hid]
      rfl
    obtain ⟨e, he, rfl⟩ := List.mem_map.1 hp
    exact mem_verbs_of_asked he

/-- The ring has a single method, whose operation is there. -/
theorem complete_ringDocument : Reflected ringFile ∧ ringFile.Plain ∧
    ∃ doc notices, Ends (documentOf { mode := .rpc } ringFile) [] doc notices ∧
      Complete .rpc ringFile doc := by
  obtain ⟨doc, notices, hends, -, -, hcomplete⟩ :=
    complete_iff_nodup reflected_ringFile plain_ringFile { mode := .rpc } []
  exact ⟨reflected_ringFile, plain_ringFile, doc, notices, hends,
    hcomplete.2 (List.nodup_singleton _)⟩

/-- A source with two services that have a method of the same name. -/
def twinSources : Thrift.SourceSet :=
  let get : Thrift.Function := ⟨"Get", none, [], [], false, [], []⟩
  { sources := [{ path := "twin.thrift", includes := []
                  document := { Thrift.Document.empty with
                    services := [⟨"A", none, [get], [], []⟩, ⟨"B", none, [get], [], []⟩] } }] }

/-- What the source reflects to. -/
def twinFile : FileDesc :=
  let get : MethodDesc := ⟨"Get", none, none, [], []⟩
  { path := "twin.thrift", package := []
    services := [⟨"A", [get], [], []⟩, ⟨"B", [get], [], []⟩]
    structs := [], enums := [], localStructs := [] }

theorem reflected_twinFile : Reflected twinFile := by
  have horder : twinSources.order = [0] := by
    simp [twinSources, Thrift.SourceSet.order, Traversal.preorder, Traversal.sweep,
      Thrift.SourceSet.source?, Table.values]
  refine .thrift (ends_of_toOption (x := twinSources.reflect) (s := []) ?_)
  unfold Thrift.SourceSet.reflect Thrift.SourceSet.enums
  rw [horder]
  decide +kernel

/-- In the `rpc` mode both methods are bound to the same path, and only one of them gets there. -/
theorem incomplete_twinDocument : Reflected twinFile ∧ twinFile.Plain ∧
    (twinFile.services.map (·.name)).Nodup ∧
    (∀ d ∈ twinFile.services, (d.methods.map (·.name)).Nodup) ∧
    ∃ doc notices, Ends (documentOf { mode := .rpc } twinFile) [] doc notices ∧
      ¬ Complete .rpc twinFile doc := by
  have hreflected := reflected_twinFile
  have hplain : twinFile.Plain := by
    constructor <;> unfold Annotations.Plain <;> decide
  obtain ⟨doc, notices, hends, -⟩ :=
    ends_documentOf hreflected.closed hplain { mode := .rpc } []
  obtain ⟨mid, hmid, hperm⟩ := exists_gathers_of_documentOf hplain hends
  have hplaces : ¬ ((asked .rpc twinFile).map (·.1)).Nodup := by
    intro h
    exact (List.nodup_cons.1 h).1 (List.mem_singleton.2 rfl)
  refine ⟨hreflected, hplain, by decide, by decide, doc, notices, hends, fun hcomplete => ?_⟩
  exact hplaces ((complete_iff_of_gathers hreflected.worded hmid hperm).1 hcomplete)

end IdlBridge.Generation
