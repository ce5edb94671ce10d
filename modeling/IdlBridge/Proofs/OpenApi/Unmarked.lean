import IdlBridge.Proofs.Collections
import IdlBridge.Proofs.OpenApi.Overlay

/-! # Overlays without marks

    An object that has its mappings filled before another one is laid over it can come to the same,
    apart from marks, as the object itself with nothing shared.  It does so if each of its places
    does (`unmarked_lay_of_slots`): the places that the upper object has no say in stay as they are,
    and the others come to what is laid over them.
-/

namespace IdlBridge.OpenApi.Object

/-! ## What decides an object -/

/-- Objects of one kind with the same keys are the same if they have been given the same. -/
theorem eq_of_given? {a b : Object} (hkind : a.kind = b.kind)
    (hmembers : a.members.map Prod.fst = b.members.map Prod.fst)
    (hnodup : (a.members.map Prod.fst).Nodup) (hgiven : ∀ m, a.given? m = b.given? m)
    (hextras : a.extras.keys = b.extras.keys) (hkeys : a.extras.keys.Nodup)
    (hget : ∀ key, a.extras.get? key = b.extras.get? key) : a = b := by
  obtain ⟨k, ms, es⟩ := a
  obtain ⟨k', ms', es'⟩ := b
  obtain rfl : k = k' := hkind
  have hms : ms = ms' := eq_of_find?_eq hmembers hnodup hgiven
  have hes : es = es' := eq_of_find?_eq hextras hkeys hget
  rw [hms, hes]

theorem keys_insertMember {ms ms' : List (Member × Slot)}
    (h : ms.map Prod.fst = ms'.map Prod.fst) (m : Member) (c c' : Slot) :
    (insertMember ms m c).map Prod.fst = (insertMember ms' m c').map Prod.fst := by
  induction ms generalizing ms' with
  | nil =>
    rw [List.map_eq_nil_iff.1 h.symm]
    rfl
  | cons e rest ih =>
    cases ms' with
    | nil => cases h
    | cons e' rest' =>
      obtain ⟨hkey, hrest⟩ := List.cons.inj h
      obtain ⟨n, d⟩ := e
      obtain ⟨n', d'⟩ := e'
      obtain rfl : n = n' := hkey
      rw [insertMember, insertMember]
      split
      · exact congrArg (n :: ·) hrest
      · exact congrArg (n :: ·) (ih hrest)

section Keys

variable {a b : Object}

theorem keys_layMembers {ms ms' : List (Member × Slot)} (hms : ms.map Prod.fst = ms'.map Prod.fst)
    (h : a.members.map Prod.fst = b.members.map Prod.fst) :
    (lay.members a ms).members.map Prod.fst = (lay.members b ms').members.map Prod.fst := by
  induction ms generalizing ms' a b with
  | nil =>
    rw [List.map_eq_nil_iff.1 hms.symm]
    exact h
  | cons e rest ih =>
    cases ms' with
    | nil => cases hms
    | cons e' rest' =>
      obtain ⟨hkey, hrest⟩ := List.cons.inj hms
      obtain ⟨m, c⟩ := e
      obtain ⟨m', c'⟩ := e'
      obtain rfl : m = m' := hkey
      rw [lay.members, lay.members]
      exact ih hrest (keys_insertMember h m _ _)

theorem keys_members_lay {u u' : Object} (hu : u.members.map Prod.fst = u'.members.map Prod.fst)
    (h : a.members.map Prod.fst = b.members.map Prod.fst) :
    (a.lay u).members.map Prod.fst = (b.lay u').members.map Prod.fst := by
  obtain ⟨k, ms, es⟩ := u
  obtain ⟨k', ms', es'⟩ := u'
  rw [lay_eq, lay_eq]
  exact keys_layMembers hu h

/-- An unknown key is added if it can be set. -/
theorem keys_layExtra (k : Kind) (lower : Table Loaded) (e : Text × Loaded) :
    (layExtra k lower e).keys =
      if isLost k e.1 || isHidden e.1 || lower.has e.1 then lower.keys
      else lower.keys ++ [e.1] := by
  unfold layExtra layExtra?
  cases hlost : isLost k e.1 with
  | true => rfl
  | false =>
    cases hhidden : isHidden e.1 with
    | false => exact Table.keys_insert lower e.1 _
    | true =>
      -- a key that cannot be set changes only where it is
      cases hx : lower.get? e.1 with
      | none => rfl
      | some x =>
        have hhas : lower.has e.1 = true := Table.has_of_mem (e := (e.1, x)) (Table.mem_of_get? hx)
        have hinsert : ∀ w, (lower.insert e.1 w).keys = lower.keys := fun w => by
          rw [Table.keys_insert, if_pos hhas]
        cases x with
        | map m es => cases e.2 <;> first | exact hinsert _ | rfl
        | _ => rfl

theorem keys_layExtras {k : Kind} {lower lower' upper upper' : Table Loaded}
    (hupper : upper.keys = upper'.keys) (h : lower.keys = lower'.keys) :
    (layExtras k lower upper).keys = (layExtras k lower' upper').keys := by
  induction upper generalizing lower lower' upper' with
  | nil =>
    rw [List.map_eq_nil_iff.1 (show upper'.map (·.1) = [] from hupper.symm)]
    exact h
  | cons e rest ih =>
    cases upper' with
    | nil => cases hupper
    | cons e' rest' =>
      obtain ⟨hkey, hrest⟩ := List.cons.inj hupper
      obtain ⟨key, v⟩ := e
      obtain ⟨key', v'⟩ := e'
      obtain rfl : key = key' := hkey
      rw [layExtras_cons, layExtras_cons]
      refine ih hrest ?_
      have hhas : lower.has key = lower'.has key := by
        rw [Bool.eq_iff_iff, ← Table.mem_keys, ← Table.mem_keys, h]
      rw [keys_layExtra, keys_layExtra]
      dsimp only
      rw [hhas, h]

end Keys

/-! ## Contents -/

section Slots

variable {f : Loaded → Loaded}

theorem layData_of_not_map {l : Option Loaded} {v : Loaded}
    (h : ∀ m es n fs, l = some (.map m es) → v ≠ .map n fs) : layData l v = v := by
  unfold layData
  split
  · exact absurd rfl (h _ _ _ _ rfl)
  · exact absurd rfl (h _ _ _ _ rfl)
  · rfl

/-- Both data are mappings. -/
def BothMaps (x v : Loaded) : Prop :=
  ∃ m es n fs, x = .map m es ∧ v = .map n fs

/-- A key that cannot be set stays as it is where something of the two is no mapping. -/
theorem layExtra?_of_hidden {key : Text} {x v : Loaded} (hhidden : isHidden key = true)
    (hmaps : ¬ BothMaps x v) (k : Kind) : layExtra? k key (some x) v = none := by
  unfold layExtra?
  rw [if_pos hhidden]
  split
  · rfl
  split
  · next m es n fs hx => exact absurd ⟨m, es, n, fs, Option.some.inj hx, rfl⟩ hmaps
  · rfl

/-- Every other key, unless it is not found, has what is laid over it. -/
theorem layExtra?_of_set {k : Kind} {key : Text} {x v : Loaded} (hlost : isLost k key = false)
    (hset : isHidden key = true → BothMaps x v) :
    layExtra? k key (some x) v = some (layData (some x) v) := by
  unfold layExtra?
  rw [hlost]
  cases hhidden : isHidden key with
  | false => rfl
  | true =>
    obtain ⟨m, es, n, fs, rfl, rfl⟩ := hset hhidden
    rfl

/-- Whether data is a mapping shows in its value. -/
theorem bothMaps_congr {x y v w : Loaded} (hxy : x.plain = y.plain) (hvw : v.plain = w.plain)
    (h : BothMaps x v) : BothMaps y w := by
  obtain ⟨m, es, n, fs, rfl, rfl⟩ := h
  rw [Loaded.plain_map] at hxy hvw
  obtain ⟨m', es', rfl⟩ := Loaded.exists_map_of_plain hxy.symm
  obtain ⟨n', fs', rfl⟩ := Loaded.exists_map_of_plain hvw.symm
  exact ⟨m', es', n', fs', rfl, rfl⟩

theorem bothMaps_unmarked {x v : Loaded} : BothMaps x.unmarked v.unmarked ↔ BothMaps x v :=
  ⟨bothMaps_congr (Loaded.plain_unmarked x) (Loaded.plain_unmarked v),
    bothMaps_congr (Loaded.plain_unmarked x).symm (Loaded.plain_unmarked v).symm⟩

/-- The data of an unknown key comes to the same without marks if what is laid over it does, and it
    stays as it is where something of the two is no mapping. -/
theorem unmarked_layExtra? {k : Kind} {key : Text} (hlost : isLost k key = false) {x y v : Loaded}
    (hmaps : BothMaps y v ↔ BothMaps x v)
    (hlay : (isHidden key = true → BothMaps x v) →
      (layData (some y) v).unmarked = layData (some x.unmarked) v.unmarked)
    (hrest : ¬ BothMaps x v → y.unmarked = x.unmarked) :
    ((layExtra? k key (some y) v).getD y).unmarked =
      (layExtra? k key (some x.unmarked) v.unmarked).getD x.unmarked := by
  have hunmarked := @bothMaps_unmarked x v
  by_cases hkept : isHidden key = true ∧ ¬ BothMaps x v
  · rw [layExtra?_of_hidden hkept.1 (hmaps.not.2 hkept.2),
      layExtra?_of_hidden hkept.1 (hunmarked.not.2 hkept.2)]
    exact hrest hkept.2
  · have hset : isHidden key = true → BothMaps x v := fun h => not_not.1 (not_and.1 hkept h)
    rw [layExtra?_of_set hlost (hmaps.2 ∘ hset), layExtra?_of_set hlost (hunmarked.2 ∘ hset)]
    exact hlay hset

/-- A content over which another one is laid comes to the same without marks if its own data and the
    objects in it do, and tables stay as they are. -/
theorem unmarked_slot {z c : Slot}
    (hdata : ∀ x v, z = .data x → c = .data v →
      (layData (some (f x)) v).unmarked = layData (some x.unmarked) v.unmarked)
    (htable : (∃ u, c = .dataTable u) ∨ (∃ u, c = .table u) →
      unmarkedSlot (mapData.slot f z) = unmarkedSlot z)
    (hobject : ∀ x u, z = .object x → c = .object u → x.kind = u.kind →
      ((x.mapData f).lay u).unmarked = x.unmarked.lay u.unmarked) :
    unmarkedSlot (lay.slot (mapData.slot f z) c) = lay.slot (unmarkedSlot z) (unmarkedSlot c) := by
  cases c with
  | object u =>
    cases z with
    | object x =>
      show unmarkedSlot (if (x.mapData f).kind = u.kind then _ else _) =
        if x.unmarked.kind = u.unmarked.kind then _ else _
      have hkinds : (x.unmarked.kind = u.unmarked.kind) = (x.kind = u.kind) := by
        rw [unmarked, unmarked, kind_mapData, kind_mapData]
      simp only [kind_mapData, hkinds]
      by_cases hkind : x.kind = u.kind
      · rw [if_pos hkind, if_pos hkind]
        exact congrArg Content.object (hobject x u rfl rfl hkind)
      · rw [if_neg hkind, if_neg hkind]
        rfl
    | _ => rfl
  | data v =>
    cases z with
    | data x => exact congrArg Content.data (hdata x v rfl rfl)
    | _ => rfl
  | dataTable u =>
    cases z with
    | dataTable t =>
      have ht := Content.dataTable.inj (htable (Or.inl ⟨u, rfl⟩))
      show Content.dataTable ((Table.insertAll (t.map _) u).map _) =
        .dataTable (Table.insertAll (t.map _) (u.map _))
      rw [← Table.insertAll_mapValues, ht]
    | _ => rfl
  | table u =>
    cases z with
    | table t =>
      have ht := Content.table.inj (htable (Or.inr ⟨u, rfl⟩))
      show Content.table (mapData.table _ (Table.insertAll (mapData.table _ t) u)) =
        .table (Table.insertAll (mapData.table _ t) (mapData.table _ u))
      rw [mapData_table, mapData_table] at ht
      rw [mapData_table, mapData_table, mapData_table, mapData_table, ← Table.insertAll_mapValues,
        ht, mapData_table]
    | _ => rfl
  | _ => rfl

end Slots

/-! ## Objects -/

section Objects

variable {f : Loaded → Loaded} {l u : Object}

theorem given?_unmarked_lay (hu : Sound u)
    (hslot : ∀ m c, u.given? m = some c → unmarkedSlot (lay.slot (mapData.slot f (l.get m)) c) =
      lay.slot (unmarkedSlot (l.get m)) (unmarkedSlot c))
    (hrest : ∀ m, u.given? m = none →
      unmarkedSlot (mapData.slot f (l.get m)) = unmarkedSlot (l.get m)) (m : Member) :
    ((l.mapData f).lay u).unmarked.given? m = (l.unmarked.lay u.unmarked).given? m := by
  rw [unmarked, given?_mapData, given?_lay hu.nodup_members, given?_lay hu.unmarked.nodup_members,
    unmarked, given?_mapData, unmarked, given?_mapData, given?_mapData, get_mapData, get_mapData]
  cases hc : u.given? m with
  | some c => exact congrArg some (hslot m c hc)
  | none =>
    cases hz : l.given? m with
    | none => rfl
    | some z => exact congrArg some (get_of_given? hz ▸ hrest m hc)

theorem get?_unmarked_lay (hu : Sound u)
    (hextra : ∀ key x v, l.extras.get? key = some x → u.extras.get? key = some v →
      isLost l.kind key = false → ((layExtra? l.kind key (some (f x)) v).getD (f x)).unmarked =
        (layExtra? l.kind key (some x.unmarked) v.unmarked).getD x.unmarked)
    (hrest : ∀ key x, l.extras.get? key = some x →
      u.extras.get? key = none ∨ isLost l.kind key = true → (f x).unmarked = x.unmarked)
    (key : Text) : ((l.mapData f).lay u).unmarked.extras.get? key =
      (l.unmarked.lay u.unmarked).extras.get? key := by
  rw [unmarked, get?_extras_mapData, extras_lay, extras_lay, get?_layExtras hu.nodup_extras,
    get?_layExtras hu.unmarked.nodup_extras, unmarked, get?_extras_mapData, unmarked,
    get?_extras_mapData, get?_extras_mapData, kind_mapData, kind_mapData]
  have hleft : u.extras.get? key = none ∨ isLost l.kind key = true →
      ((l.extras.get? key).map f).map Loaded.unmarked =
        (l.extras.get? key).map Loaded.unmarked := by
    intro h
    cases hx : l.extras.get? key with
    | none => rfl
    | some x => exact congrArg some (hrest key x hx h)
  cases hv : u.extras.get? key with
  | none => exact hleft (Or.inl hv)
  | some v =>
    rw [Option.map_some, Option.bind_some, Option.bind_some]
    cases hlost : isLost l.kind key with
    | true =>
      rw [layExtra?_of_isLost hlost, layExtra?_of_isLost hlost]
      exact hleft (Or.inr hlost)
    | false =>
      cases hx : l.extras.get? key with
      | none =>
        unfold layExtra?
        rw [hlost]
        cases isHidden key <;> rfl
      | some x =>
        rw [Option.map_some, Option.map_some, Option.or_some, Option.or_some, Option.map_some]
        exact congrArg some (hextra key x v hx hv hlost)

/-- An object over which another one is laid comes to the same without marks if all its places
    do. -/
theorem unmarked_lay_of_slots (hl : Sound l)
    (hgiven : ∀ m, ((l.mapData f).lay u).unmarked.given? m = (l.unmarked.lay u.unmarked).given? m)
    (hget : ∀ key, ((l.mapData f).lay u).unmarked.extras.get? key =
      (l.unmarked.lay u.unmarked).extras.get? key) :
    ((l.mapData f).lay u).unmarked = l.unmarked.lay u.unmarked := by
  refine eq_of_given? ?_ ?_ ?_ hgiven ?_ ?_ hget
  · simp only [unmarked, kind_mapData, kind_lay]
  · rw [unmarked, keys_members_mapData]
    refine keys_members_lay ?_ ?_ <;> simp only [unmarked, keys_members_mapData]
  · rw [unmarked, keys_members_mapData]
    refine nodup_members_lay ?_ _
    rw [keys_members_mapData]
    exact hl.nodup_members
  · rw [unmarked, keys_extras_mapData, extras_lay, extras_lay, unmarked, kind_mapData, kind_mapData]
    refine keys_layExtras ?_ ?_
    · rw [unmarked, keys_extras_mapData]
    · rw [keys_extras_mapData, keys_extras_mapData]
  · rw [unmarked, keys_extras_mapData]
    refine nodup_extras_lay ?_ _
    rw [keys_extras_mapData]
    exact hl.nodup_extras

end Objects

end IdlBridge.OpenApi.Object
