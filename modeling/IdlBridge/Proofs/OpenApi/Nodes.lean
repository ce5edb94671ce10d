import IdlBridge.Proofs.OpenApi.Additions
import IdlBridge.Proofs.OpenApi.Unmarked

/-! # The mappings with marks of an object

    The mappings that an object has after another one has been laid over it are those of the two
    objects, and what would be put into them when the upper object is laid over the result once more
    was either put into them before, or is what they are (`additions_again`).

    The objects of two documents share no mapping: the loads of one are numbered behind those of the
    other (`Loaded.later`).
-/

namespace IdlBridge.OpenApi.Object

open Value (Entries)

/-- The mappings with marks of an object, with their values. -/
def nodes (o : Object) : List (Mark × Entries) :=
  o.data.flatMap Loaded.nodes

/-- The mappings with marks of what a member holds, with their values. -/
def slotNodes (c : Slot) : List (Mark × Entries) :=
  (data.slot c).flatMap Loaded.nodes

section Nodes

variable {l u o : Object} {n : Mark × Entries}

theorem mem_nodes : n ∈ o.nodes ↔ ∃ x ∈ o.data, n ∈ x.nodes :=
  List.mem_flatMap

theorem mem_slotNodes {c : Slot} : n ∈ slotNodes c ↔ ∃ x ∈ data.slot c, n ∈ x.nodes :=
  List.mem_flatMap

theorem nodes_mk (k : Kind) (ms : List (Member × Slot)) (es : Table Loaded) :
    (Object.mk k ms es).nodes =
      (ms.flatMap fun e => slotNodes e.2) ++ es.flatMap fun e => e.2.nodes := by
  unfold nodes slotNodes
  rw [data_mk, List.flatMap_append, List.flatMap_assoc, List.flatMap_map]

theorem marks_eq (o : Object) : o.marks = o.nodes.map (·.1) := by
  unfold marks nodes
  rw [List.map_flatMap]
  exact List.flatMap_congr fun x _ => Loaded.marks_eq x

theorem mem_marks_iff {mark : Mark} : mark ∈ o.marks ↔ ∃ n ∈ o.nodes, n.1 = mark := by
  rw [marks_eq, List.mem_map]

/-- The mappings of what a member holds are those of the object. -/
theorem mem_nodes_of_get {m : Member} (h : n ∈ slotNodes (l.get m)) : n ∈ l.nodes := by
  obtain ⟨x, hx, hn⟩ := mem_slotNodes.1 h
  exact mem_nodes.2 ⟨x, mem_data_of_get hx, hn⟩

theorem mem_nodes_of_extras {key : Text} {x : Loaded} (hx : l.extras.get? key = some x)
    (h : n ∈ x.nodes) : n ∈ l.nodes :=
  mem_nodes.2 ⟨x, mem_data_of_extras hx, h⟩

/-! ## Overlays -/

theorem mem_nodes_layData {x : Option Loaded} {v : Loaded} (h : n ∈ (layData x v).nodes) :
    (∃ y, x = some y ∧ n ∈ y.nodes) ∨ n ∈ v.nodes := by
  unfold layData at h
  split at h
  · next es m fs =>
    rw [Loaded.nodes_map] at h
    obtain ⟨e, he, hn⟩ := List.mem_flatMap.1 h
    rw [Loaded.nodes_map m]
    rcases Entries.value_of_mem_insertAll he with hvalue | hvalue
    · obtain ⟨f, hf, hvalue⟩ := List.mem_map.1 hvalue
      refine Or.inl ⟨_, rfl, ?_⟩
      rw [Loaded.nodes_map]
      exact List.mem_append_right _ (List.mem_flatMap.2 ⟨f, hf, hvalue ▸ hn⟩)
    · obtain ⟨f, hf, hvalue⟩ := List.mem_map.1 hvalue
      exact Or.inr (List.mem_append_right _ (List.mem_flatMap.2 ⟨f, hf, hvalue ▸ hn⟩))
  · exact Or.inl ⟨_, rfl, h⟩
  · exact Or.inr h

theorem mem_slotNodes_lay {z c : Slot}
    (ih : ∀ u ∈ c.held, ∀ x ∈ z.held, n ∈ (x.lay u).nodes → n ∈ x.nodes ∨ n ∈ u.nodes)
    (h : n ∈ slotNodes (lay.slot z c)) : n ∈ slotNodes z ∨ n ∈ slotNodes c := by
  cases c with
  | object u =>
    cases z with
    | object x =>
      rw [lay.slot] at h
      split at h
      · exact ih u (List.mem_singleton_self u) x (List.mem_singleton_self x) h
      · exact Or.inr h
    | _ => exact Or.inr h
  | data v =>
    cases z with
    | data x =>
      have h : n ∈ (layData (some x) v).nodes := by simpa [slotNodes, data.slot, lay.slot] using h
      rcases mem_nodes_layData h with ⟨y, hy, hn⟩ | hn
      · cases hy
        exact Or.inl (List.mem_append_left _ hn)
      · exact Or.inr (List.mem_append_left _ hn)
    | _ => exact Or.inr h
  | dataTable t =>
    cases z with
    | dataTable s =>
      obtain ⟨x, hx, hn⟩ := mem_slotNodes.1 h
      obtain ⟨e, he, rfl⟩ := List.mem_map.1 hx
      rcases Table.mem_insertAll he with he | he
      · exact Or.inr (mem_slotNodes.2 ⟨e.2, List.mem_map_of_mem he, hn⟩)
      · exact Or.inl (mem_slotNodes.2 ⟨e.2, List.mem_map_of_mem he, hn⟩)
    | _ => exact Or.inr h
  | table t =>
    cases z with
    | table s =>
      unfold slotNodes at h ⊢
      rw [lay.slot, data.slot, data_table] at h
      obtain ⟨x, hx, hn⟩ := List.mem_flatMap.1 h
      obtain ⟨e, he, hx⟩ := List.mem_flatMap.1 hx
      rcases Table.mem_insertAll he with he | he
      · refine Or.inr (List.mem_flatMap.2 ⟨x, ?_, hn⟩)
        rw [data.slot, data_table]
        exact List.mem_flatMap.2 ⟨e, he, hx⟩
      · refine Or.inl (List.mem_flatMap.2 ⟨x, ?_, hn⟩)
        rw [data.slot, data_table]
        exact List.mem_flatMap.2 ⟨e, he, hx⟩
    | _ => exact Or.inr h
  | _ => exact Or.inr h

/-- The mappings of two objects that are laid over each other are those of the two. -/
theorem mem_nodes_lay (hu : Sound u) : ∀ {l : Object}, Sound l → n ∈ (l.lay u).nodes →
    n ∈ l.nodes ∨ n ∈ u.nodes := by
  induction hu with
  | @mk k ms es hms hfits hheld hkeys hvalues ih =>
    intro l hl h
    have hu : Sound (.mk k ms es) := .mk hms hfits hheld hkeys hvalues
    obtain ⟨x, hx, hn⟩ := mem_nodes.1 h
    have hplace : (∃ e ∈ (l.lay (.mk k ms es)).members, x ∈ data.slot e.2) ∨
        ∃ e ∈ (l.lay (.mk k ms es)).extras, e.2 = x := by
      generalize l.lay (.mk k ms es) = r at hx
      obtain ⟨k', ms', es'⟩ := r
      rw [data_mk] at hx
      exact (List.mem_append.1 hx).imp List.mem_flatMap.1 List.mem_map.1
    rcases hplace with ⟨e, he, hx⟩ | ⟨e, he, rfl⟩
    · have hn : n ∈ slotNodes e.2 := mem_slotNodes.2 ⟨x, hx, hn⟩
      rcases mem_members_lay hu hl he with ⟨f, hf, -, hvalue⟩ | he
      · rw [hvalue] at hn
        rcases mem_slotNodes_lay (fun o ho y hy hn => ih f hf o ho (hl.held_get hy) hn) hn with
          hn | hn
        · exact Or.inl (mem_nodes_of_get hn)
        · rw [nodes_mk]
          exact Or.inr (List.mem_append_left _ (List.mem_flatMap.2 ⟨f, hf, hn⟩))
      · obtain ⟨k', ms', es'⟩ := l
        rw [nodes_mk]
        exact Or.inl (List.mem_append_left _ (List.mem_flatMap.2 ⟨e, he, hn⟩))
    · have hget := Table.get?_of_mem (nodup_extras_lay hl.nodup_extras (.mk k ms es)) he
      rw [extras_lay, get?_layExtras hu.nodup_extras] at hget
      rcases Option.or_eq_some_iff.1 hget with hw | ⟨-, hx⟩
      · obtain ⟨v, hv, hw⟩ := Option.bind_eq_some_iff.1 hw
        rw [eq_layData hw] at hn
        rcases mem_nodes_layData hn with ⟨y, hy, hn⟩ | hn
        · exact Or.inl (mem_nodes_of_extras hy hn)
        · exact Or.inr (mem_nodes_of_extras hv hn)
      · exact Or.inl (mem_nodes_of_extras hx hn)

/-! ## The same object once more -/

variable {a : Mark × Entries Loaded}

/-- The mapping that the addition goes to, with the entries that are put into it. -/
def asNode (a : Mark × Entries Loaded) : Mark × Entries :=
  (a.1, a.2.mapValues Loaded.plain)

theorem additionsTo_self {v : Loaded} (h : a ∈ additionsTo (some v) v) : asNode a ∈ v.nodes := by
  obtain ⟨es, n, hl, rfl⟩ := mem_additionsTo.1 h
  cases hl
  rw [Loaded.nodes_map]
  exact List.mem_append_left _ (List.mem_singleton_self _)

theorem additions_slot_self {c : Slot} (ih : ∀ o ∈ c.held, a ∈ additions o o → asNode a ∈ o.nodes)
    (h : a ∈ additions.slot c c) : asNode a ∈ slotNodes c := by
  cases c with
  | object o =>
    rw [additions.slot, if_pos rfl] at h
    exact ih o (List.mem_singleton_self o) h
  | data v => exact List.mem_append_left _ (additionsTo_self h)
  | _ => cases h

/-- What is put into mappings when an object is laid over itself is what they are. -/
theorem additions_self (hu : Sound u) : a ∈ additions u u → asNode a ∈ u.nodes := by
  induction hu with
  | @mk k ms es hms hfits hheld hkeys hvalues ih =>
    intro h
    rw [nodes_mk]
    rcases mem_additions.1 h with ⟨e, he, ha⟩ | ⟨e, he, -, ha⟩
    · have hgiven : (Object.mk k ms es).given? e.1 = some e.2 := given?_of_mem hms he
      rw [get_of_given? hgiven] at ha
      exact List.mem_append_left _ (List.mem_flatMap.2
        ⟨e, he, additions_slot_self (fun o ho => ih e he o ho) ha⟩)
    · rw [show (Object.mk k ms es).extras.get? e.1 = some e.2 from Table.get?_of_mem hkeys he] at ha
      exact List.mem_append_right _ (List.mem_flatMap.2 ⟨e, he, additionsTo_self ha⟩)

theorem additionsTo_layData {x : Option Loaded} {v : Loaded}
    (h : a ∈ additionsTo (some (layData x v)) v) : a ∈ additionsTo x v ∨ asNode a ∈ v.nodes := by
  by_cases hmap : ∃ m es n fs, x = some (.map m es) ∧ v = .map n fs
  · obtain ⟨m, es, n, fs, rfl, rfl⟩ := hmap
    cases m with
    | none => cases h
    | some m => exact Or.inl h
  · rw [layData_of_not_map fun m es n fs hx hv => hmap ⟨m, es, n, fs, hx, hv⟩] at h
    exact Or.inr (additionsTo_self h)

theorem additions_slot_again {z c : Slot} (hsound : ∀ o ∈ c.held, Sound o)
    (ih : ∀ o ∈ c.held, ∀ x ∈ z.held, x.kind = o.kind → a ∈ additions (x.lay o) o →
      a ∈ additions x o ∨ asNode a ∈ o.nodes)
    (h : a ∈ additions.slot (lay.slot z c) c) :
    a ∈ additions.slot z c ∨ asNode a ∈ slotNodes c := by
  -- where nothing of the lower content is kept, the upper one is laid over itself
  have hself : lay.slot z c = c → a ∈ additions.slot z c ∨ asNode a ∈ slotNodes c := fun hz =>
    Or.inr (additions_slot_self (fun o ho => additions_self (hsound o ho)) (by rwa [hz] at h))
  cases c with
  | object o =>
    cases z with
    | object x =>
      by_cases hkind : x.kind = o.kind
      · rw [lay.slot, if_pos hkind, additions.slot, if_pos (by rw [kind_lay, hkind])] at h
        rw [additions.slot, if_pos hkind]
        exact ih o (List.mem_singleton_self o) x (List.mem_singleton_self x) hkind h
      · exact hself (by rw [lay.slot, if_neg hkind])
    | _ => exact hself rfl
  | data v =>
    cases z with
    | data x => exact (additionsTo_layData h).imp_right fun hn => List.mem_append_left _ hn
    | _ => exact hself rfl
  | _ => cases h

theorem additionsTo_again {k : Kind} {key : Text} {x : Option Loaded} {v : Loaded}
    (h : a ∈ additionsTo ((layExtra? k key x v).or x) v) :
    a ∈ additionsTo x v ∨ asNode a ∈ v.nodes := by
  cases hw : layExtra? k key x v with
  | none =>
    rw [hw, Option.none_or] at h
    exact Or.inl h
  | some w =>
    rw [hw, Option.some_or, eq_layData hw] at h
    exact additionsTo_layData h

/-- What is put into mappings when an object is laid over another one once more would have been put
    into them the first time, or is what they are. -/
theorem additions_again (hu : Sound u) : ∀ {l : Object}, Sound l → l.kind = u.kind →
    a ∈ additions (l.lay u) u → a ∈ additions l u ∨ asNode a ∈ u.nodes := by
  induction hu with
  | @mk k ms es hms hfits hheld hkeys hvalues ih =>
    intro l hl hkind h
    have hu : Sound (.mk k ms es) := .mk hms hfits hheld hkeys hvalues
    rw [nodes_mk]
    rcases mem_additions.1 h with ⟨e, he, ha⟩ | ⟨e, he, hlost, ha⟩
    · have hgiven : (Object.mk k ms es).given? e.1 = some e.2 := given?_of_mem hms he
      rw [get_lay hu.nodup_members, hgiven, Option.map_some, Option.getD_some] at ha
      have hagain := additions_slot_again (hheld e he)
        (fun o ho x hx => ih e he o ho (hl.held_get hx)) ha
      rcases hagain with ha | hn
      · exact Or.inl (mem_additions.2 (Or.inl ⟨e, he, ha⟩))
      · exact Or.inr (List.mem_append_left _ (List.mem_flatMap.2 ⟨e, he, hn⟩))
    · rw [kind_lay] at hlost
      have hget : (Object.mk k ms es).extras.get? e.1 = some e.2 := Table.get?_of_mem hkeys he
      rw [extras_lay, get?_layExtras hu.nodup_extras, hget, Option.bind_some] at ha
      rcases additionsTo_again ha with ha | hn
      · exact Or.inl (mem_additions.2 (Or.inr ⟨e, he, hlost, ha⟩))
      · exact Or.inr (List.mem_append_right _ (List.mem_flatMap.2 ⟨e, he, hn⟩))

end Nodes

/-! ## Loads -/

section Loads

variable {o u : Object} {mark : Mark} (loads : Nat)

theorem load_lt_loads (h : mark ∈ o.marks) : mark.load < o.loads := by
  have hfold : ∀ (ms : List Mark) (n : Nat), n ≤ ms.foldl (fun n m => max n (m.load + 1)) n ∧
      ∀ m ∈ ms, m.load < ms.foldl (fun n m => max n (m.load + 1)) n := by
    intro ms
    induction ms with
    | nil => exact fun n => ⟨Nat.le_refl n, fun m hm => nomatch hm⟩
    | cons m rest ih =>
      intro n
      obtain ⟨hle, hlt⟩ := ih (max n (m.load + 1))
      rw [List.foldl_cons]
      exact ⟨by omega, List.forall_mem_cons.2 ⟨by omega, hlt⟩⟩
  exact (hfold o.marks 0).2 mark h

theorem marks_mapData_later (o : Object) :
    (o.mapData (Loaded.later loads)).marks = o.marks.map (Mark.later loads) := by
  unfold marks
  rw [data_mapData, List.flatMap_map, List.map_flatMap]
  exact List.flatMap_congr fun x _ => Loaded.marks_later loads x

theorem unmarked_mapData_later (o : Object) :
    (o.mapData (Loaded.later loads)).unmarked = o.unmarked := by
  unfold unmarked
  rw [mapData_mapData]
  exact mapData_congr fun x _ => Loaded.unmarked_eq_iff.2 (Loaded.plain_later x loads)

theorem Sound.later (h : Sound o) : Sound (o.mapData (Loaded.later loads)) :=
  h.mapData (fun x hx => by rwa [Loaded.plain_later]) fun x hx => by
    unfold Loaded.Keyed
    rwa [Loaded.plain_later]

theorem relabels_later : Relabels (Mark.later loads) (Loaded.later loads) where
  map m es := ⟨_, Loaded.mapMarks_map _ m es⟩
  back _ m es h := Loaded.exists_map_of_rebuild _ m es h

theorem relabels_refill (as : Loaded.Additions) : Relabels id (Loaded.refill as) where
  map m es := ⟨_, by rw [Loaded.refill_map, Option.map_id, id]⟩
  back _ m es h := Loaded.exists_map_of_rebuild _ m es h

/-- An object of a later load shares no mapping with one whose loads come before. -/
theorem not_mem_marks_of_later (h : mark ∈ (o.mapData (Loaded.later u.loads)).marks) :
    mark ∉ u.marks := by
  intro hu
  rw [marks_mapData_later] at h
  obtain ⟨m, -, rfl⟩ := List.mem_map.1 h
  have := load_lt_loads hu
  simp only [Mark.later] at this
  omega

end Loads

/-! ## Objects that are read -/

/-- The data of a member is that which it is read from, or part of it. -/
theorem Reads.of_untyped {s : Shape} {v : Loaded} {c : Slot} (h : Reads s v c) {x : Loaded}
    (hx : x ∈ c.untyped) : x = v ∨ x ∈ v.parts := by
  cases h with
  | text _ | flag _ _ | texts _ _ | object _ _ | objects _ _ | table _ _ => cases hx
  | data _ => exact Or.inl (List.mem_singleton.1 hx)
  | dataList hitems =>
    refine Or.inr ?_
    unfold Reading.items? at hitems
    split at hitems <;> cases hitems <;> exact hx
  | @dataTable m es t ht =>
    refine Or.inr ?_
    obtain ⟨e, he, rfl⟩ := List.mem_map.1 hx
    have he := mem_of_mem_insertAll_nil he
    have hvalues : ∀ {es : Value.Entries Loaded} {t : List (Text × Loaded)},
        Reading.dataTable? es = some t → t.map (·.2) = es.map (·.2) := by
      intro es
      induction es with
      | nil =>
        intro t ht
        cases ht
        rfl
      | cons e rest ih =>
        intro t ht
        rw [Reading.dataTable?] at ht
        split at ht
        · next hrest =>
          cases ht
          exact congrArg (e.2 :: ·) (ih hrest)
        · cases ht
    show e.2 ∈ es.map (·.2)
    rw [← hvalues ht]
    exact List.mem_map_of_mem he

/-- The data of an object that is read is data that it is read from. -/
theorem data_ofValue? {P : Loaded → Prop} (hparts : ∀ x, P x → ∀ y ∈ x.parts, P y) {x : Loaded}
    (hx : P x) : ∀ k o, ofValue? k x = some o → ∀ y ∈ o.data, P y := by
  -- The members of an object are read from the values of a mapping, or from what these hold.
  suffices h : (∀ k o, ofValue? k x = some o → ∀ y ∈ o.data, P y) ∧
      ∀ w ∈ x.parts, ∀ k o, ofValue? k w = some o → ∀ y ∈ o.data, P y from h.1
  induction x using Loaded.inductionOnParts with
  | mk x ih =>
    refine ⟨fun k o ho y hy => ?_, fun w hw => (ih w hw (hparts x hx w hw)).1⟩
    obtain ⟨m, es, ms, rfl, hms, rfl⟩ := ofValue?_cases ho
    have hvalue : ∀ e ∈ es, P e.2 := fun e he => hparts _ hx _ (List.mem_map_of_mem he)
    rw [data_mk] at hy
    rcases List.mem_append.1 hy with hy | hy
    · obtain ⟨e, he, hy⟩ := List.mem_flatMap.1 hy
      obtain ⟨s, -, -, v, hv, hc⟩ := mem_of_membersOf? hms he
      have hv := Value.Entries.mem_of_get? hv
      have hpart : v ∈ (Loaded.map m es).parts := List.mem_map_of_mem hv
      rcases slotOf?_cases hc with ⟨-, hnull, -⟩ | ⟨-, hreads⟩
      · rw [hnull] at hy
        cases hy
      · rw [data_slot] at hy
        rcases List.mem_append.1 hy with hy | hy
        · rcases hreads.of_untyped hy with rfl | hy
          · exact hvalue _ hv
          · exact hparts _ (hvalue _ hv) y hy
        · obtain ⟨o, ho, hy⟩ := List.mem_flatMap.1 hy
          obtain ⟨k', w, rfl | hw, how⟩ := hreads.of_held ho
          · exact (ih w hpart (hvalue _ hv)).1 k' o how y hy
          · exact (ih v hpart (hvalue _ hv)).2 w hw k' o how y hy
    · obtain ⟨e, he, rfl⟩ := List.mem_map.1 hy
      exact hvalue _ (mem_extrasOf.1 he).1

theorem keyed_data_ofValue? {k : Kind} {x : Loaded} {o : Object} (hx : x.Keyed)
    (h : ofValue? k x = some o) : ∀ y ∈ o.data, y.Keyed :=
  data_ofValue? (fun _ hx _ hy => hx.of_parts hy) hx k o h

/-- The mappings of an object that is read are those that it is read from. -/
theorem mem_nodes_ofValue? {k : Kind} {x : Loaded} {o : Object} (h : ofValue? k x = some o)
    {n : Mark × Entries} (hn : n ∈ o.nodes) : n ∈ x.nodes := by
  obtain ⟨y, hy, hn⟩ := mem_nodes.1 hn
  exact data_ofValue? (P := fun y => ∀ n ∈ y.nodes, n ∈ x.nodes)
    (fun y hy z hz n hn => hy n (Loaded.mem_nodes_of_parts hz hn)) (fun _ => id) k o h y hy n hn

end IdlBridge.OpenApi.Object
