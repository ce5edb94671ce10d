import IdlBridge.Proofs.OpenApi.Data
import IdlBridge.Proofs.OpenApi.Operations
import IdlBridge.Proofs.Sorting
import IdlBridge.Proofs.Text
import Mathlib.Data.List.Perm.Basic

/-! # Objects with the same members

    The members of an object are written in the order of its kind, not in the order in which they
    have been given.  So two objects that have been given the same members come out the same
    (`Alike`), and operations can be put under a path in any order as long as no two of them have
    the same place.
-/

namespace IdlBridge.OpenApi.Object

/-! ## Alike objects -/

/-- Objects of one kind that have been given the same members, in any order. -/
structure Alike (o o' : Object) : Prop where
  kind : o'.kind = o.kind
  extras : o'.extras = o.extras
  given : ∀ m, o'.given? m = o.given? m

namespace Alike

variable {o o' o'' : Object}

theorem refl (o : Object) : Alike o o :=
  ⟨rfl, rfl, fun _ => rfl⟩

theorem trans (h : Alike o o') (h' : Alike o' o'') : Alike o o'' :=
  ⟨h'.kind.trans h.kind, h'.extras.trans h.extras, fun m => (h'.given m).trans (h.given m)⟩

theorem get (h : Alike o o') (m : Member) : o'.get m = o.get m := by
  unfold Object.get
  rw [h.given, h.kind]

theorem set (h : Alike o o') (m : Member) (c : Slot) : Alike (o.set m c) (o'.set m c) := by
  refine ⟨h.kind, h.extras, fun m' => ?_⟩
  rw [given?_set, given?_set, h.given]

/-- Different members can be given in either order. -/
theorem set_comm (o : Object) {m m' : Member} (hm : m ≠ m') (c c' : Slot) :
    Alike ((o.set m c).set m' c') ((o.set m' c').set m c) := by
  refine ⟨rfl, rfl, fun m'' => ?_⟩
  simp only [given?_set]
  by_cases h : m = m''
  · subst h
    simp [hm.symm]
  · simp [h]

end Alike

/-- Objects of one kind come out as the same data if their members do. -/
theorem toValue_congr {o o' : Object} (hkind : o'.kind = o.kind) (hextras : o'.extras = o.extras)
    (h : ∀ m, (o'.given? m).map toValue.slot = (o.given? m).map toValue.slot) :
    o'.toValue = o.toValue := by
  obtain ⟨k, ms, es⟩ := o
  obtain ⟨k', ms', es'⟩ := o'
  obtain rfl : k' = k := hkind
  obtain rfl : es' = es := hextras
  have hmember : memberValue ms' = memberValue ms := by
    funext s
    exact congrArg (fun v => v.getD (missingValue s)) (h s.member)
  rw [toValue_eq, toValue_eq]
  unfold entries
  simp only [memberValue_eq, hmember]

theorem Alike.toValue_eq {o o' : Object} (h : Alike o o') : o'.toValue = o.toValue :=
  toValue_congr h.kind h.extras fun m => by rw [h.given]

/-! ## Operations of alike paths -/

section Operations

variable {o o' : Object}

theorem Alike.operations_eq (h : Alike o o') : o'.operations = o.operations := by
  unfold operations object?
  simp only [h.get]

theorem Alike.soleServers_eq (h : Alike o o') : o'.soleServers = o.soleServers := by
  unfold soleServers
  rw [h.operations_eq]

theorem Alike.mapOperations (h : Alike o o') (f : Object → Object) :
    Alike (o.mapOperations f) (o'.mapOperations f) := by
  unfold Object.mapOperations
  rw [h.operations_eq]
  generalize o.operations = ops
  induction ops generalizing o o' with
  | nil => exact h
  | cons e rest ih => exact ih (h.set e.1 _)

theorem Alike.withoutServers (h : Alike o o') : Alike o.withoutServers o'.withoutServers :=
  h.set .servers _

theorem Alike.hoistOperations (h : Alike o o') : Alike o.hoistOperations o'.hoistOperations := by
  unfold Object.hoistOperations
  rw [h.soleServers_eq]
  split
  · exact Alike.mapOperations (h.set .servers _) _
  · exact h

end Operations

/-! ## Putting operations into paths -/

/-- Puts an operation at its place. -/
def place (paths : Table Object) (e : Place × Object) : Table Object :=
  paths.insert e.1.1 (((paths.get? e.1.1).getD (.empty .pathItem)).set e.1.2 (.object e.2))

/-- The tables have the same paths, with alike items. -/
def SamePaths (t t' : Table Object) : Prop :=
  ∀ path, Option.Rel Alike (t.get? path) (t'.get? path)

section Places

variable {t t' t'' : Table Object}

theorem SamePaths.refl (t : Table Object) : SamePaths t t := by
  intro path
  cases t.get? path with
  | none => exact .none
  | some item => exact .some (.refl item)

theorem SamePaths.trans (h : SamePaths t t') (h' : SamePaths t' t'') : SamePaths t t'' := by
  intro path
  have hpath := h path
  have hpath' := h' path
  revert hpath hpath'
  cases t.get? path <;> cases t'.get? path <;> cases t''.get? path <;> rintro ⟨⟩ ⟨⟩
  · exact .none
  · exact .some (Alike.trans ‹_› ‹_›)

theorem SamePaths.getD (h : SamePaths t t') (path : Text) (otherwise : Object) :
    Alike ((t.get? path).getD otherwise) ((t'.get? path).getD otherwise) := by
  have hpath := h path
  revert hpath
  cases t.get? path <;> cases t'.get? path <;> rintro ⟨⟩
  · exact .refl otherwise
  · assumption

theorem SamePaths.place (h : SamePaths t t') (e : Place × Object) :
    SamePaths (place t e) (place t' e) := by
  intro path
  unfold Object.place
  rw [Table.get?_insert, Table.get?_insert]
  split
  · exact .some ((h.getD _ _).set _ _)
  · exact h path

theorem SamePaths.foldl_place (h : SamePaths t t') (es : List (Place × Object)) :
    SamePaths (es.foldl Object.place t) (es.foldl Object.place t') := by
  induction es generalizing t t' with
  | nil => exact h
  | cons e rest ih => exact ih (h.place e)

/-- Operations at different places can be put there in either order. -/
theorem samePaths_place_comm (t : Table Object) {e f : Place × Object} (hef : e.1 ≠ f.1) :
    SamePaths (place (place t e) f) (place (place t f) e) := by
  obtain ⟨⟨p, v⟩, op⟩ := e
  obtain ⟨⟨q, w⟩, op'⟩ := f
  intro path
  unfold place
  simp only [Table.get?_insert]
  by_cases hpq : p = q
  · -- on one path the verbs are different
    subst hpq
    have hvw : v ≠ w := fun h => hef (by rw [h])
    by_cases hpath : p = path
    · simp only [hpath, if_true, Option.getD_some]
      exact .some (Alike.set_comm _ hvw _ _)
    · simp only [hpath, if_false]
      exact SamePaths.refl t path
  · by_cases hpath : p = path
    · subst hpath
      simp only [Ne.symm hpq, hpq, if_true, if_false]
      exact .some (.refl _)
    · by_cases hpath' : q = path
      · simp only [hpath, hpath', if_true, if_false]
        exact .some (.refl _)
      · simp only [hpath, hpath', if_false]
        exact SamePaths.refl t path

/-- Operations at different places can be put there in any order. -/
theorem samePaths_of_perm {es fs : List (Place × Object)} (h : es.Perm fs)
    (hnodup : (es.map Prod.fst).Nodup) (ht : SamePaths t t') :
    SamePaths (es.foldl place t) (fs.foldl place t') := by
  induction h generalizing t t' with
  | nil => exact ht
  | cons e _ ih => exact ih (List.nodup_cons.1 hnodup).2 (ht.place e)
  | swap e f rest =>
    -- neighbours have different places, so the rest starts from the same paths
    have hef : f.1 ≠ e.1 := fun hfe =>
      (List.nodup_cons.1 hnodup).1 (by rw [hfe]; exact List.mem_cons_self)
    exact ((samePaths_place_comm t hef).trans ((ht.place e).place f)).foldl_place rest
  | trans h₁ _ ih₁ ih₂ =>
    refine (ih₁ hnodup (.refl t)).trans (ih₂ ((h₁.map Prod.fst).nodup_iff.1 hnodup) ht)

theorem nodup_keys_foldl_place (h : t.keys.Nodup) (es : List (Place × Object)) :
    (es.foldl place t).keys.Nodup := by
  induction es generalizing t with
  | nil => exact h
  | cons e rest ih => exact ih (Table.nodup_keys_insert h _ _)

end Places

/-! ## Entries in another order -/

/-- Entries of one key with alike objects. -/
def SameEntry (e e' : Text × Object) : Prop :=
  e'.1 = e.1 ∧ Alike e.2 e'.2

theorem SamePaths.paired {t t' : Table Object} (h : SamePaths t t') (ht : t.keys.Nodup)
    (ht' : t'.keys.Nodup) : Paired SameEntry t t' := by
  -- Every entry is paired with the one that the other table has for its key.
  let other (e : Text × Object) : Text × Object := (e.1, (t'.get? e.1).getD e.2)
  have hother : ∀ e ∈ t, t'.get? e.1 = some (other e).2 ∧ Alike e.2 (other e).2 := by
    intro e he
    have hpath := h e.1
    rw [Table.get?_of_mem ht he] at hpath
    show t'.get? e.1 = some ((t'.get? e.1).getD e.2) ∧ Alike e.2 ((t'.get? e.1).getD e.2)
    revert hpath
    cases t'.get? e.1 <;> rintro ⟨⟩
    exact ⟨rfl, ‹_›⟩
  refine ⟨t.map fun e => (e, other e), ?_, ?_, ?_⟩
  · rw [List.map_map]
    exact List.map_id t
  · rw [List.map_map]
    have hkeys : (t.map other).map Prod.fst = t.keys := by
      rw [List.map_map]
      rfl
    refine (List.perm_ext_iff_of_nodup ?_ (List.Nodup.of_map _ ht')).2 ?_
    · exact List.Nodup.of_map Prod.fst (hkeys ▸ ht)
    · intro e'
      rw [List.mem_map]
      constructor
      · rintro ⟨e, he, rfl⟩
        exact Table.mem_of_get? (hother e he).1
      · intro he'
        have hpath := h e'.1
        rw [Table.get?_of_mem ht' he'] at hpath
        obtain ⟨o, ho⟩ : ∃ o, t.get? e'.1 = some o := by
          revert hpath
          cases t.get? e'.1 <;> rintro ⟨⟩
          exact ⟨_, rfl⟩
        have he := Table.mem_of_get? ho
        refine ⟨_, he, ?_⟩
        have heq := (hother _ he).1
        rw [Table.get?_of_mem ht' he'] at heq
        exact Prod.ext rfl (Option.some.inj heq).symm
  · intro p hp
    obtain ⟨e, he, rfl⟩ := List.mem_map.1 hp
    exact ⟨rfl, (hother e he).2⟩

/-- Sorted by their keys, tables of alike entries are the same as data. -/
theorem slot_sort_eq {t t' : Table Object} (h : Paired SameEntry t t') (ht : t.keys.Nodup) :
    toValue.slot (.table t'.sort) = toValue.slot (.table t.sort) := by
  -- Sorting looks at the keys only, so the entries can be turned into data before.
  have hmap : ∀ u : Table Object, toValue.table u.sort =
      ((u.map fun e => (e.1, e.2.toValue)).mergeSort fun a b => Text.le a.1 b.1).map
        fun e => (.text e.1, e.2) := by
    intro u
    unfold Table.sort
    rw [table_eq_map, ← List.map_mergeSort, List.map_map]
    · rfl
    · intro a _ b _
      rfl
  have hperm := h.map_perm (f := fun e => (e.1, e.2.toValue)) fun e _ e' he =>
    Prod.ext he.1 he.2.toValue_eq
  have hkeys : ((t.map fun e => (e.1, e.2.toValue)).map Prod.fst).Nodup := by
    rw [List.map_map]
    exact ht
  rw [toValue.slot, toValue.slot, hmap, hmap, mergeSort_eq_of_perm_names hkeys hperm]

/-- The servers that operations declare do not depend on the order of the paths. -/
theorem perm_soleServersOfPaths {t t' : Table Object} (h : Paired SameEntry t t') :
    (soleServersOfPaths t).Perm (soleServersOfPaths t') := by
  have hflat : ∀ u : Table Object, soleServersOfPaths u =
      (u.map fun e => e.2.soleServers).flatten.foldl Text.insertNew [] := by
    intro u
    unfold soleServersOfPaths
    rw [List.foldl_flatten, List.foldl_map]
  have hperm := h.map_perm (f := fun e => e.2.soleServers) fun e _ e' he => he.2.soleServers_eq
  rw [hflat, hflat]
  refine (List.perm_ext_iff_of_nodup (Text.nodup_foldl_insertNew List.nodup_nil _)
    (Text.nodup_foldl_insertNew List.nodup_nil _)).2 fun url => ?_
  rw [Text.mem_foldl_insertNew, Text.mem_foldl_insertNew, hperm.flatten.mem_iff]

end IdlBridge.OpenApi.Object
