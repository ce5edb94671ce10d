import IdlBridge.Proofs.OpenApi.Sound

/-! # The untyped data of an object

    Changing the untyped data of an object goes down the objects inside it and leaves everything
    else as it is: the kinds, which members have been given, and the unknown keys.
-/

namespace IdlBridge.OpenApi

namespace Content

/-- The untyped data that a member holds itself. -/
def untyped {ω : Type} : Content ω → List Loaded
  | .data v => [v]
  | .dataList vs => vs
  | .dataTable es => es.map (·.2)
  | _ => []

end Content

namespace Object

/-! ## Objects by their members -/

theorem sizeOf_held {c : Slot} {o : Object} (h : o ∈ c.held) : sizeOf o < sizeOf c := by
  cases c with
  | object x =>
    rw [List.mem_singleton.1 h]
    simp
  | objects os =>
    have := List.sizeOf_lt_of_mem (show o ∈ os from h)
    simp
    omega
  | table es =>
    obtain ⟨e, he, rfl⟩ := List.mem_map.1 h
    have := List.sizeOf_lt_of_mem he
    have : sizeOf e.2 < sizeOf e := by
      cases e
      simp only [Prod.mk.sizeOf_spec]
      omega
    simp
    omega
  | _ => cases h

/-- Induction down the objects that members hold. -/
theorem inductionOn {P : Object → Prop} (o : Object)
    (mk : ∀ k ms es, (∀ e ∈ ms, ∀ x ∈ e.2.held, P x) → P (.mk k ms es)) : P o := by
  obtain ⟨k, ms, es⟩ := o
  refine mk k ms es fun e he x hx => ?_
  have := List.sizeOf_lt_of_mem he
  have := sizeOf_held hx
  have : sizeOf e.2 < sizeOf e := by
    cases e
    simp only [Prod.mk.sizeOf_spec]
    omega
  exact inductionOn x mk
termination_by sizeOf o
decreasing_by
  simp
  omega

section Forms

variable (f : Loaded → Loaded) (k : Kind) (ms : List (Member × Slot)) (es : Table Loaded)

theorem mapData_list (os : List Object) : mapData.list f os = os.map (mapData f) := by
  induction os with
  | nil => rfl
  | cons o rest ih => rw [mapData.list, ih, List.map_cons]

theorem mapData_table (t : Table Object) :
    mapData.table f t = t.map fun e => (e.1, e.2.mapData f) := by
  induction t with
  | nil => rfl
  | cons e rest ih =>
    obtain ⟨n, o⟩ := e
    rw [mapData.table, ih, List.map_cons]

theorem mapData_members :
    mapData.members f ms = ms.map fun e => (e.1, mapData.slot f e.2) := by
  induction ms with
  | nil => rfl
  | cons e rest ih =>
    obtain ⟨m, c⟩ := e
    rw [mapData.members, ih, List.map_cons]

theorem mapData_mk : (Object.mk k ms es).mapData f =
    .mk k (ms.map fun e => (e.1, mapData.slot f e.2)) (es.map fun e => (e.1, f e.2)) := by
  rw [mapData, mapData_members]

theorem data_list (os : List Object) : data.list os = os.flatMap data := by
  induction os with
  | nil => rfl
  | cons o rest ih => rw [data.list, ih, List.flatMap_cons]

theorem data_table (t : Table Object) : data.table t = t.flatMap fun e => e.2.data := by
  induction t with
  | nil => rfl
  | cons e rest ih =>
    obtain ⟨n, o⟩ := e
    rw [data.table, ih, List.flatMap_cons]

theorem data_members : data.members ms = ms.flatMap fun e => data.slot e.2 := by
  induction ms with
  | nil => rfl
  | cons e rest ih =>
    obtain ⟨m, c⟩ := e
    rw [data.members, ih, List.flatMap_cons]

theorem data_mk :
    (Object.mk k ms es).data = (ms.flatMap fun e => data.slot e.2) ++ es.map (·.2) := by
  rw [data, data_members]

/-- The data of a member is its own and that of the objects that it holds. -/
theorem data_slot (c : Slot) : data.slot c = c.untyped ++ c.held.flatMap data := by
  cases c with
  | object o => simp [data.slot, Content.untyped, Content.held]
  | objects os => simp [data.slot, Content.untyped, Content.held, data_list]
  | table t => simp [data.slot, Content.untyped, Content.held, data_table, List.flatMap_map]
  | _ => simp [data.slot, Content.untyped, Content.held]

/-- What a member holds by default has no data. -/
theorem data_default (m : Member) : data.slot (k.default m) = [] := by
  unfold Kind.default
  cases k.spec? m with
  | none => rfl
  | some s =>
    obtain ⟨m, shape, presence⟩ := s
    cases presence <;> cases shape <;> rfl

variable {o : Object} {x : Loaded}

/-- The data of a member is that of a content that has been given. -/
theorem mem_members_of_mem_data {m : Member} (h : x ∈ data.slot (o.get m)) :
    ∃ e ∈ o.members, e.1 = m ∧ o.get m = e.2 := by
  unfold get at h ⊢
  cases hc : o.given? m with
  | none =>
    rw [hc, Option.getD_none, data_default] at h
    cases h
  | some c =>
    obtain ⟨e, he, rfl⟩ := Option.map_eq_some_iff.1 hc
    exact ⟨e, List.mem_of_find?_eq_some he, by simpa using List.find?_some he, rfl⟩

theorem mem_data_of_get {m : Member} (h : x ∈ data.slot (o.get m)) : x ∈ o.data := by
  obtain ⟨e, he, -, hget⟩ := mem_members_of_mem_data h
  obtain ⟨k, ms, es⟩ := o
  rw [data_mk]
  exact List.mem_append_left _ (List.mem_flatMap.2 ⟨e, he, hget ▸ h⟩)

theorem mem_data_of_extras {key : Text} (h : o.extras.get? key = some x) : x ∈ o.data := by
  obtain ⟨k, ms, es⟩ := o
  rw [data_mk]
  exact List.mem_append_right _ (List.mem_map_of_mem (Table.mem_of_get? h))

end Forms

/-! ## Changed data -/

section MapData

variable (f g : Loaded → Loaded) (o : Object) (m : Member) (c : Slot)

@[simp] theorem kind_mapData : (o.mapData f).kind = o.kind := by
  obtain ⟨k, ms, es⟩ := o
  rw [mapData_mk]
  rfl

theorem members_mapData :
    (o.mapData f).members = o.members.map fun e => (e.1, mapData.slot f e.2) := by
  obtain ⟨k, ms, es⟩ := o
  rw [mapData_mk]
  rfl

theorem extras_mapData : (o.mapData f).extras = o.extras.map fun e => (e.1, f e.2) := by
  obtain ⟨k, ms, es⟩ := o
  rw [mapData_mk]
  rfl

theorem keys_members_mapData :
    (o.mapData f).members.map Prod.fst = o.members.map Prod.fst := by
  rw [members_mapData, List.map_map]
  rfl

theorem keys_extras_mapData : (o.mapData f).extras.keys = o.extras.keys := by
  rw [extras_mapData, Table.keys, List.map_map]
  rfl

theorem given?_mapData : (o.mapData f).given? m = (o.given? m).map (mapData.slot f) := by
  unfold given?
  rw [members_mapData, List.find?_map, Option.map_map, Option.map_map]
  rfl

theorem slot_default (k : Kind) : mapData.slot f (k.default m) = k.default m := by
  unfold Kind.default
  cases k.spec? m with
  | none => rfl
  | some s =>
    obtain ⟨m, shape, presence⟩ := s
    cases presence <;> cases shape <;> rfl

theorem get_mapData : (o.mapData f).get m = mapData.slot f (o.get m) := by
  unfold get
  rw [given?_mapData, kind_mapData]
  cases o.given? m with
  | none => exact (slot_default f m o.kind).symm
  | some c => rfl

theorem get?_extras_mapData (key : Text) :
    (o.mapData f).extras.get? key = (o.extras.get? key).map f := by
  rw [extras_mapData, Table.get?_mapValues]

theorem held_mapData : (mapData.slot f c).held = c.held.map (mapData f) := by
  cases c with
  | objects os => rw [mapData.slot, mapData_list]; rfl
  | table t =>
    rw [mapData.slot, mapData_table]
    show List.map _ (List.map _ t) = List.map _ (List.map _ t)
    rw [List.map_map, List.map_map]
    rfl
  | _ => rfl

variable {f g}

/-- Data that is changed in the same way gives the same content. -/
theorem slot_congr {c : Slot} (huntyped : ∀ x ∈ c.untyped, f x = g x)
    (hheld : ∀ o ∈ c.held, o.mapData f = o.mapData g) : mapData.slot f c = mapData.slot g c := by
  cases c with
  | data v => exact congrArg Content.data (huntyped v (List.mem_singleton_self v))
  | dataList vs => exact congrArg Content.dataList (List.map_congr_left huntyped)
  | dataTable es =>
    refine congrArg Content.dataTable (List.map_congr_left fun e he => ?_)
    rw [huntyped e.2 (List.mem_map_of_mem he)]
  | object o => exact congrArg Content.object (hheld o (List.mem_singleton_self o))
  | objects os =>
    rw [mapData.slot, mapData.slot, mapData_list, mapData_list]
    exact congrArg Content.objects (List.map_congr_left hheld)
  | table t =>
    rw [mapData.slot, mapData.slot, mapData_table, mapData_table]
    refine congrArg Content.table (List.map_congr_left fun e he => ?_)
    rw [hheld e.2 (List.mem_map_of_mem he)]
  | _ => rfl

/-- Data that is changed in the same way gives the same object. -/
theorem mapData_congr {o : Object} (h : ∀ x ∈ o.data, f x = g x) : o.mapData f = o.mapData g := by
  induction o using inductionOn with
  | mk k ms es ih =>
    rw [data_mk] at h
    rw [mapData_mk, mapData_mk]
    have hslots : ∀ e ∈ ms, ∀ x ∈ data.slot e.2, f x = g x := fun e he x hx =>
      h x (List.mem_append_left _ (List.mem_flatMap.2 ⟨e, he, hx⟩))
    congr 1
    · refine List.map_congr_left fun e he => ?_
      rw [slot_congr (fun x hx => hslots e he x ?_) fun o ho => ih e he o ho fun x hx =>
        hslots e he x ?_]
      · rw [data_slot]
        exact List.mem_append_left _ hx
      · rw [data_slot]
        exact List.mem_append_right _ (List.mem_flatMap.2 ⟨o, ho, hx⟩)
    · refine List.map_congr_left fun e he => ?_
      rw [h e.2 (List.mem_append_right _ (List.mem_map_of_mem he))]

theorem slot_id_of_held {c : Slot} (hheld : ∀ o ∈ c.held, o.mapData (fun x => x) = o) :
    mapData.slot (fun x => x) c = c := by
  cases c with
  | dataList vs => exact congrArg Content.dataList (List.map_id vs)
  | dataTable es => exact congrArg Content.dataTable (List.map_id es)
  | object o => exact congrArg Content.object (hheld o (List.mem_singleton_self o))
  | objects os =>
    rw [mapData.slot, mapData_list]
    exact congrArg Content.objects ((List.map_congr_left hheld).trans (List.map_id os))
  | table t =>
    rw [mapData.slot, mapData_table]
    refine congrArg Content.table ((List.map_congr_left fun e he => ?_).trans (List.map_id t))
    rw [hheld e.2 (List.mem_map_of_mem he)]
    rfl
  | _ => rfl

theorem mapData_id (o : Object) : o.mapData (fun x => x) = o := by
  induction o using inductionOn with
  | mk k ms es ih =>
    rw [mapData_mk]
    refine congrArg₂ (Object.mk k) ((List.map_congr_left fun e he => ?_).trans (List.map_id ms))
      (List.map_id es)
    rw [slot_id_of_held (ih e he)]
    rfl

theorem slot_id (c : Slot) : mapData.slot (fun x => x) c = c :=
  slot_id_of_held fun o _ => mapData_id o

/-- An object whose data stays as it is stays as it is. -/
theorem mapData_eq_self {o : Object} (h : ∀ x ∈ o.data, f x = x) : o.mapData f = o :=
  (mapData_congr h).trans (mapData_id o)

theorem slot_congr_data {c : Slot} (h : ∀ x ∈ data.slot c, f x = g x) :
    mapData.slot f c = mapData.slot g c := by
  rw [data_slot] at h
  exact slot_congr (fun x hx => h x (List.mem_append_left _ hx)) fun o ho =>
    mapData_congr fun x hx => h x (List.mem_append_right _ (List.mem_flatMap.2 ⟨o, ho, hx⟩))

/-- A content without data stays as it is. -/
theorem slot_eq_self {c : Slot} (h : data.slot c = []) : mapData.slot f c = c := by
  rw [slot_congr_data (g := fun x => x) (by simp [h]), slot_id]

/-- A text or a flag is read without data. -/
theorem Reads.data_eq_nil {s : Shape} {v : Loaded} {c : Slot} (h : Reads s v c)
    (hs : s = .text ∨ s = .flag) : data.slot c = [] := by
  cases h with
  | text _ | flag _ _ | texts _ _ => rfl
  | data _ | dataList _ | dataTable _ | objects _ _ => simp at hs
  | object hshape _ => rcases hs with rfl | rfl <;> simp at hshape
  | table hshape _ => rcases hs with rfl | rfl <;> simp at hshape

theorem slot_comp {c : Slot}
    (hheld : ∀ o ∈ c.held, (o.mapData f).mapData g = o.mapData fun x => g (f x)) :
    mapData.slot g (mapData.slot f c) = mapData.slot (fun x => g (f x)) c := by
  cases c with
  | dataList vs => exact congrArg Content.dataList List.map_map
  | dataTable es => exact congrArg Content.dataTable List.map_map
  | object o => exact congrArg Content.object (hheld o (List.mem_singleton_self o))
  | objects os =>
    rw [mapData.slot, mapData.slot, mapData.slot, mapData_list, mapData_list, mapData_list,
      List.map_map]
    exact congrArg Content.objects (List.map_congr_left hheld)
  | table t =>
    rw [mapData.slot, mapData.slot, mapData.slot, mapData_table, mapData_table, mapData_table,
      List.map_map]
    refine congrArg Content.table (List.map_congr_left fun e he => ?_)
    show (e.1, (e.2.mapData f).mapData g) = _
    rw [hheld e.2 (List.mem_map_of_mem he)]
  | _ => rfl

/-- Changing data twice is changing it once. -/
theorem mapData_mapData (o : Object) : (o.mapData f).mapData g = o.mapData fun x => g (f x) := by
  induction o using inductionOn with
  | mk k ms es ih =>
    rw [mapData_mk, mapData_mk, mapData_mk, List.map_map, List.map_map]
    congr 1
    refine List.map_congr_left fun e he => ?_
    show (e.1, mapData.slot g (mapData.slot f e.2)) = _
    rw [slot_comp (ih e he)]

theorem slot_mapData_slot (c : Slot) :
    mapData.slot g (mapData.slot f c) = mapData.slot (fun x => g (f x)) c :=
  slot_comp fun o _ => mapData_mapData o

/-- The data of an object with changed data. -/
theorem data_mapData (o : Object) : (o.mapData f).data = o.data.map f := by
  induction o using inductionOn with
  | mk k ms es ih =>
    rw [mapData_mk, data_mk, data_mk, List.map_append, List.map_flatMap, List.flatMap_map,
      List.map_map, List.map_map]
    congr 1
    refine List.flatMap_congr fun e he => ?_
    have huntyped : (mapData.slot f e.2).untyped = e.2.untyped.map f := by
      cases e.2 with
      | dataTable es =>
        show List.map _ (List.map _ es) = List.map f (List.map _ es)
        rw [List.map_map, List.map_map]
        rfl
      | _ => rfl
    rw [data_slot, data_slot, held_mapData, huntyped, List.map_append, List.map_flatMap,
      List.flatMap_map]
    congr 1
    exact List.flatMap_congr (ih e he)

theorem Fits.mapData {s : MemberSpec} {c : Slot} (h : Fits s c)
    (hnull : ∀ x, x.plain ≠ .null → (f x).plain ≠ .null) (hkeyed : ∀ x, x.Keyed → (f x).Keyed) :
    Fits s (mapData.slot f c) := by
  rcases h with ⟨rfl, hoptional⟩ | h
  · exact Or.inl ⟨rfl, hoptional⟩
  refine Or.inr ?_
  generalize s.shape = shape at h
  cases c with
  | data x =>
    cases shape <;> first | exact ⟨hnull x h.1, hkeyed x h.2⟩ | exact h.elim
  | dataTable t =>
    cases shape <;> first | exact h.elim | skip
    show (Table.keys (t.map _)).Nodup
    rw [Table.keys, List.map_map]
    exact h
  | object o =>
    cases shape <;> simp only [Admits, mapData.slot, kind_mapData] at h ⊢ <;> exact h
  | objects os =>
    cases shape <;> first | exact h.elim | skip
    rw [mapData.slot, mapData_list]
    exact List.forall_mem_map.2 fun o ho => (kind_mapData f o).trans (h o ho)
  | table t =>
    rw [mapData.slot, mapData_table]
    cases shape <;> first | exact h.elim | skip
    · refine ⟨by rw [Table.keys, List.map_map]; exact h.1, List.forall_mem_map.2 fun e he => ?_⟩
      rw [kind_mapData]
      exact h.2 e he
    · refine ⟨by rw [Table.keys, List.map_map]; exact h.1, List.forall_mem_map.2 fun e he => ?_⟩
      rw [kind_mapData]
      exact h.2 e he
  | _ => cases shape <;> exact h

/-- A sound object stays sound as long as its data stays data of a member. -/
theorem Sound.mapData {o : Object} (h : Sound o)
    (hnull : ∀ x, x.plain ≠ .null → (f x).plain ≠ .null) (hkeyed : ∀ x, x.Keyed → (f x).Keyed) :
    Sound (o.mapData f) := by
  induction h with
  | @mk k ms es hnodup hfits _ hkeys hvalues ih =>
    rw [mapData_mk]
    refine .mk ?_ ?_ ?_ ?_ ?_
    · rw [List.map_map]
      exact hnodup
    · refine List.forall_mem_map.2 fun e he => ?_
      obtain ⟨s, hs, hmember, hfit⟩ := hfits e he
      exact ⟨s, hs, hmember, hfit.mapData hnull hkeyed⟩
    · refine List.forall_mem_map.2 fun e he o ho => ?_
      rw [held_mapData] at ho
      obtain ⟨x, hx, rfl⟩ := List.mem_map.1 ho
      exact ih e he x hx
    · rw [Table.keys, List.map_map]
      exact hkeys
    · exact List.forall_mem_map.2 fun e he => hkeyed e.2 (hvalues e he)

end MapData

/-! ## Objects in which nothing is shared -/

/-- The object with no mapping shared. -/
def unmarked (o : Object) : Object :=
  o.mapData Loaded.unmarked

/-- What a member holds with no mapping shared. -/
def unmarkedSlot (c : Slot) : Slot :=
  mapData.slot Loaded.unmarked c

theorem Sound.unmarked {o : Object} (h : Sound o) : Sound o.unmarked :=
  h.mapData (fun x hx => by rwa [Loaded.plain_unmarked]) fun x hx => by
    unfold Loaded.Keyed
    rwa [Loaded.plain_unmarked]

end Object

end IdlBridge.OpenApi
