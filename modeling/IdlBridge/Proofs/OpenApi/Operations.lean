import IdlBridge.Proofs.OpenApi.Linked

/-! # The operations of a document

    An operation stands under a path and a verb, its place.  A document has at most one operation at
    a place, since its paths are a table and each path has one slot for a verb (`nodup_placed`).
    What is done to a document beyond setting operations leaves the places alone and the identifiers
    of the operations with them: servers are moved, and paths change their order.
-/

namespace IdlBridge.OpenApi.Object

/-- Where an operation stands: its path and its verb. -/
abbrev Place := Text × Member

/-- The places of the operations of a document with the identifiers of the operations. -/
def placed (doc : Object) : List (Place × Text) :=
  (doc.table .paths).flatMap fun e =>
    e.2.operations.map fun o => ((e.1, o.1), o.2.text .operationId)

/-! ## Setting members -/

@[simp] theorem get_set (o : Object) (m m' : Member) (c : Slot) :
    (o.set m c).get m' = if m = m' then c else o.get m' := by
  unfold get
  rw [given?_set, kind_set]
  split <;> rfl

theorem table_set_self (o : Object) (m : Member) (es : Table Object) :
    (o.set m (.table es)).table m = es := by
  simp [table]

theorem table_set_of_ne {m m' : Member} (h : m ≠ m') (o : Object) (c : Slot) :
    (o.set m c).table m' = o.table m' := by
  simp [table, h]

theorem text_set_of_ne {m m' : Member} (h : m ≠ m') (o : Object) (c : Slot) :
    (o.set m c).text m' = o.text m' := by
  simp [text, text?, h]

theorem insertMember_self {ms : List (Member × Slot)} {m : Member} {c : Slot}
    (h : (ms.find? (·.1 = m)).map (·.2) = some c) : insertMember ms m c = ms := by
  induction ms with
  | nil => cases h
  | cons e rest ih =>
    obtain ⟨m', c'⟩ := e
    rw [insertMember]
    by_cases hm : m' = m
    · subst hm
      have hc : c' = c := by simpa using h
      rw [if_pos rfl, hc]
    · have hrest : (rest.find? (·.1 = m)).map (·.2) = some c := by simpa [hm] using h
      rw [if_neg hm, ih hrest]

/-- Giving a member what it has been given changes nothing. -/
theorem set_self {o : Object} {m : Member} {c : Slot} (h : o.given? m = some c) :
    o.set m c = o := by
  obtain ⟨k, ms, es⟩ := o
  have hms : insertMember ms m c = ms := insertMember_self h
  show Object.mk k (insertMember ms m c) es = _
  rw [hms]

/-! ## Paths -/

/-- The identifier of the operation that a path has for a verb. -/
def operationIdAt (item : Object) (v : Member) : Option Text :=
  (item.object? v).map fun op => op.text .operationId

/-- The second path has operations for the same verbs, with the same identifiers. -/
def SameOperations (item item' : Object) : Prop :=
  ∀ v ∈ verbs, item'.operationIdAt v = item.operationIdAt v

theorem SameOperations.trans {o o' o'' : Object} (h : SameOperations o o')
    (h' : SameOperations o' o'') : SameOperations o o'' :=
  fun v hv => (h' v hv).trans (h v hv)

theorem operationIdAt_set (item : Object) (v v' : Member) (op : Object) :
    (item.set v (.object op)).operationIdAt v' =
      if v = v' then some (op.text .operationId) else item.operationIdAt v' := by
  unfold operationIdAt object?
  rw [get_set]
  by_cases hv : v = v' <;> simp [hv]

theorem sameOperations_set {m : Member} (hm : m ∉ verbs) (item : Object) (c : Slot) :
    SameOperations item (item.set m c) := by
  intro v hv
  have hne : m ≠ v := fun h => hm (h ▸ hv)
  unfold operationIdAt object?
  rw [get_set, if_neg hne]

/-- The operations of a path, read off verb by verb. -/
theorem map_operations (item : Object) (path : Text) :
    (item.operations.map fun o => (((path, o.1) : Place), o.2.text .operationId)) =
      verbs.filterMap fun v => (item.operationIdAt v).map fun id => ((path, v), id) := by
  unfold operations
  rw [List.map_filterMap]
  refine List.filterMap_congr fun v _ => ?_
  unfold operationIdAt
  rw [Option.map_map, Option.map_map]
  rfl

theorem SameOperations.map_eq {item item' : Object} (h : SameOperations item item') (path : Text) :
    (item'.operations.map fun o => (((path, o.1) : Place), o.2.text .operationId)) =
      item.operations.map fun o => ((path, o.1), o.2.text .operationId) := by
  rw [map_operations, map_operations]
  refine List.filterMap_congr fun v hv => ?_
  rw [h v hv]

/-! ## Places -/

theorem mem_placed {doc : Object} (h : (doc.table .paths).keys.Nodup) {path id : Text}
    {v : Member} : ((path, v), id) ∈ doc.placed ↔
      v ∈ verbs ∧ ((doc.table .paths).get? path).bind (fun item => item.operationIdAt v) =
        some id := by
  unfold placed
  simp only [map_operations, List.mem_flatMap, List.mem_filterMap]
  constructor
  · rintro ⟨e, he, w, hw, hid⟩
    obtain ⟨id', hid', heq⟩ := Option.map_eq_some_iff.1 hid
    cases heq
    refine ⟨hw, ?_⟩
    rw [Table.get?_of_mem h he, Option.bind_some]
    exact hid'
  · rintro ⟨hv, hid⟩
    obtain ⟨item, hitem, hid⟩ := Option.bind_eq_some_iff.1 hid
    refine ⟨(path, item), Table.mem_of_get? hitem, v, hv, ?_⟩
    rw [hid]
    rfl

/-- No two operations of a document have the same place. -/
theorem nodup_placed {doc : Object} (h : (doc.table .paths).keys.Nodup) :
    (doc.placed.map (·.1)).Nodup := by
  have hverbs : ∀ (item : Object) (path : Text),
      ((item.operations.map fun o => (((path, o.1) : Place), o.2.text .operationId)).map
        (·.1)).Sublist (verbs.map fun v => (path, v)) := by
    intro item path
    rw [map_operations]
    generalize verbs = vs
    induction vs with
    | nil => exact .slnil
    | cons v rest ih =>
      rw [List.filterMap_cons]
      cases item.operationIdAt v with
      | none => exact ih.cons _
      | some id => exact ih.cons_cons _
  unfold placed
  rw [List.map_flatMap, List.nodup_flatMap]
  constructor
  · -- The operations of one path differ in their verbs.
    intro e _
    refine (hverbs e.2 e.1).nodup (List.Nodup.map (fun v w hvw => ?_) (by decide))
    exact (Prod.mk.inj hvw).2
  · -- Those of different paths differ in the path.
    unfold Table.keys at h
    refine (List.pairwise_map.1 h).imp fun {e f} hef => ?_
    intro x hx hx'
    obtain ⟨v, -, rfl⟩ := List.mem_map.1 ((hverbs e.2 e.1).subset hx)
    obtain ⟨w, -, hw⟩ := List.mem_map.1 ((hverbs f.2 f.1).subset hx')
    exact hef (Prod.mk.inj hw).1.symm

/-! ## Changing what is not an operation -/

theorem placed_set {m : Member} (hm : m ≠ .paths) (doc : Object) (c : Slot) :
    (doc.set m c).placed = doc.placed := by
  unfold placed
  rw [table_set_of_ne hm]

theorem placed_mapPaths (doc : Object) {doc' : Object} {f : Object → Object}
    (hf : ∀ item, SameOperations item (f item))
    (h : doc'.table .paths = (doc.table .paths).map fun e => (e.1, f e.2)) :
    doc'.placed = doc.placed := by
  unfold placed
  rw [h, List.flatMap_map]
  refine List.flatMap_congr fun e _ => ?_
  exact (hf e.2).map_eq e.1

/-- Changing the operations of a path changes what its verbs hold and nothing else. -/
theorem get_mapOperations (f : Object → Object) (item : Object) (m : Member) :
    (item.mapOperations f).get m =
      if m ∈ verbs then ((item.object? m).map fun op => Content.object (f op)).getD (item.get m)
      else item.get m := by
  -- Along the loop the item changes, but the operations that are set come from the first one.
  have hloop : ∀ (ops : List (Member × Object)), (∀ e ∈ ops, item.object? e.1 = some e.2) →
      ∀ o : Object, (ops.foldl (fun o e => o.set e.1 (.object (f e.2))) o).get m =
        if m ∈ ops.map (·.1) then
          ((item.object? m).map fun op => Content.object (f op)).getD (o.get m)
        else o.get m := by
    intro ops
    induction ops with
    | nil =>
      intro _ o
      rfl
    | cons e rest ih =>
      intro hops o
      obtain ⟨he, hrest⟩ := List.forall_mem_cons.1 hops
      rw [List.foldl_cons, ih hrest, get_set, List.map_cons]
      by_cases hm : e.1 = m
      · have hop : item.object? m = some e.2 := hm ▸ he
        simp [hm, hop]
      · have hmem : m ∈ e.1 :: rest.map (·.1) ↔ m ∈ rest.map (·.1) := by
          rw [List.mem_cons, or_iff_right (Ne.symm hm)]
        rw [if_neg hm]
        exact (if_congr hmem rfl rfl).symm
  have hops : ∀ e ∈ item.operations, e.1 ∈ verbs ∧ item.object? e.1 = some e.2 := by
    intro e he
    obtain ⟨v, hv, hop⟩ := List.mem_filterMap.1 he
    obtain ⟨op, hget, rfl⟩ := Option.map_eq_some_iff.1 hop
    exact ⟨hv, hget⟩
  have hget := hloop item.operations (fun e he => (hops e he).2) item
  unfold mapOperations
  rw [hget]
  by_cases hm : m ∈ item.operations.map (·.1)
  · obtain ⟨e, he, rfl⟩ := List.mem_map.1 hm
    rw [if_pos hm, if_pos (hops e he).1]
  · -- A verb without an operation holds none.
    rw [if_neg hm]
    split
    · next hv =>
      cases hop : item.object? m with
      | none => rfl
      | some op =>
        refine absurd (List.mem_map.2 ⟨(m, op), List.mem_filterMap.2 ⟨m, hv, ?_⟩, rfl⟩) hm
        rw [hop]
        rfl
    · rfl

theorem object?_mapOperations {v : Member} (hv : v ∈ verbs) (f : Object → Object) (item : Object) :
    (item.mapOperations f).object? v = (item.object? v).map f := by
  have hget := get_mapOperations f item v
  rw [if_pos hv] at hget
  cases hop : item.object? v with
  | none =>
    rw [hop] at hget
    unfold object? at hop ⊢
    rw [hget]
    exact hop
  | some op =>
    rw [hop] at hget
    unfold object?
    rw [hget]
    rfl

theorem sameOperations_mapOperations {f : Object → Object}
    (hf : ∀ op, (f op).text .operationId = op.text .operationId) (item : Object) :
    SameOperations item (item.mapOperations f) := by
  intro v hv
  unfold operationIdAt
  rw [object?_mapOperations hv, Option.map_map]
  exact congrArg (fun g => (item.object? v).map g) (funext hf)

theorem sameOperations_withoutServers (item : Object) : SameOperations item item.withoutServers :=
  sameOperations_set (by decide) item _

theorem sameOperations_hoistOperations (item : Object) :
    SameOperations item item.hoistOperations := by
  unfold hoistOperations
  split
  · refine (sameOperations_set (by decide) item _).trans
      (sameOperations_mapOperations (fun op => ?_) _)
    exact text_set_of_ne (by decide) op _
  · exact fun _ _ => rfl

/-- Moving servers up leaves every operation in its place. -/
theorem placed_hoistServers (doc : Object) (otherwise : Text) :
    (doc.hoistServers otherwise).placed = doc.placed := by
  have hor : ∀ doc : Object, (doc.orServer otherwise).placed = doc.placed := by
    intro doc
    unfold orServer
    split
    · exact placed_set (by decide) doc _
    · rfl
  have hhoisted := placed_mapPaths doc sameOperations_hoistOperations
    (table_set_self doc .paths _)
  unfold hoistServers
  dsimp only
  split
  · split
    · rw [hor, withServer, placed_set (by decide),
        placed_mapPaths _ sameOperations_withoutServers (table_set_self _ .paths _), hhoisted]
    · rw [hor, hhoisted]
  · rw [hor, hhoisted]

end IdlBridge.OpenApi.Object
