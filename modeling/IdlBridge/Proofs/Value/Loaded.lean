import IdlBridge.Proofs.Value.Entries
import IdlBridge.Value.Loaded
import Mathlib.Data.List.Nodup

/-! # Data with shared mappings

    Marks have nothing to do with the data itself (`plain_mapMarks`).  What is put into mappings
    with marks changes data only where it holds such a mapping (`refill_of_disjoint`), and not even
    there where the mapping has it already (`plain_refill_of_absorbs`).
-/

namespace IdlBridge

/-- The mark of the mapping in a later load. -/
def Mark.later (loads : Nat) (m : Mark) : Mark :=
  { m with load := m.load + loads }

theorem Mark.later_injective (loads : Nat) : Function.Injective (Mark.later loads) := by
  rintro ⟨load, anchor, place⟩ ⟨load', anchor', place'⟩ h
  obtain ⟨hload, hanchor, hplace⟩ := Mark.mk.inj h
  exact congr (congr (congrArg Mark.mk (Nat.add_right_cancel hload)) hanchor) hplace

/-- Everything but a collection is the same key as itself. -/
theorem Value.sameKey_self {v : Value} (h : v.isAtomic = true) : v.sameKey v = true := by
  refine sameKey_iff.2 ⟨?_, rfl⟩
  cases v <;> first | rfl | cases h

namespace Loaded

open Value (Entries)

/-! ## Data by its form -/

/-- Induction along all collections. -/
theorem inductionOn {P : Loaded → Prop} (x : Loaded) (atom : ∀ v h, P (.atom v h))
    (list : ∀ xs, (∀ x ∈ xs, P x) → P (.list xs)) (set : ∀ xs, (∀ x ∈ xs, P x) → P (.set xs))
    (pair : ∀ a b, P a → P b → P (.pair a b))
    (map : ∀ m (es : Entries Loaded), (∀ e ∈ es, P e.2) → P (.map m es)) : P x := by
  match x with
  | .atom v h => exact atom v h
  | .list xs =>
    refine list xs fun x hx => ?_
    have := List.sizeOf_lt_of_mem hx
    exact inductionOn x atom list set pair map
  | .set xs =>
    refine set xs fun x hx => ?_
    have := List.sizeOf_lt_of_mem hx
    exact inductionOn x atom list set pair map
  | .pair a b =>
    exact pair a b (inductionOn a atom list set pair map) (inductionOn b atom list set pair map)
  | .map m es =>
    refine map m es fun e he => ?_
    have := List.sizeOf_lt_of_mem he
    have : sizeOf e.2 < sizeOf e := by
      cases e
      simp only [Prod.mk.sizeOf_spec]
      omega
    exact inductionOn e.2 atom list set pair map
termination_by sizeOf x
decreasing_by
  all_goals
    simp
    try omega

section Forms

variable (f : Option Mark → Entries Loaded → Loaded) (xs : List Loaded) (a b : Loaded)
  (m : Option Mark) (es : Entries Loaded)

theorem plain_items : plain.items xs = xs.map plain := by
  induction xs with
  | nil => rfl
  | cons x rest ih => rw [plain.items, ih, List.map_cons]

theorem plain_entries : plain.entries es = es.mapValues plain := by
  induction es with
  | nil => rfl
  | cons e rest ih =>
    obtain ⟨k, x⟩ := e
    rw [plain.entries, ih, Entries.mapValues_cons]

@[simp] theorem plain_atom (v : Value) (h : v.isAtomic = true) : (Loaded.atom v h).plain = v := by
  rw [plain]

@[simp] theorem plain_list : (Loaded.list xs).plain = .list (xs.map plain) := by
  rw [plain, plain_items]

@[simp] theorem plain_set : (Loaded.set xs).plain = .set (xs.map plain) := by
  rw [plain, plain_items]

@[simp] theorem plain_pair : (Loaded.pair a b).plain = .pair a.plain b.plain := by
  rw [plain]

@[simp] theorem plain_map : (Loaded.map m es).plain = .map (es.mapValues plain) := by
  rw [plain, plain_entries]

theorem rebuild_items : rebuild.items f xs = xs.map (rebuild f) := by
  induction xs with
  | nil => rfl
  | cons x rest ih => rw [rebuild.items, ih, List.map_cons]

theorem rebuild_entries : rebuild.entries f es = es.mapValues (rebuild f) := by
  induction es with
  | nil => rfl
  | cons e rest ih =>
    obtain ⟨k, x⟩ := e
    rw [rebuild.entries, ih, Entries.mapValues_cons]

@[simp] theorem rebuild_atom (v : Value) (h : v.isAtomic = true) :
    rebuild f (.atom v h) = .atom v h := by
  rw [rebuild]

@[simp] theorem rebuild_list : rebuild f (.list xs) = .list (xs.map (rebuild f)) := by
  rw [rebuild, rebuild_items]

@[simp] theorem rebuild_set : rebuild f (.set xs) = .set (xs.map (rebuild f)) := by
  rw [rebuild, rebuild_items]

@[simp] theorem rebuild_pair : rebuild f (.pair a b) = .pair (rebuild f a) (rebuild f b) := by
  rw [rebuild]

@[simp] theorem rebuild_map : rebuild f (.map m es) = f m (es.mapValues (rebuild f)) := by
  rw [rebuild, rebuild_entries]

/-- What is a mapping when it is made anew was one. -/
theorem exists_map_of_rebuild {x : Loaded} (h : rebuild f x = .map m es) :
    ∃ n fs, x = .map n fs := by
  cases x with
  | map n fs => exact ⟨n, fs, rfl⟩
  | atom v hv =>
    rw [rebuild_atom] at h
    cases h
  | list xs =>
    rw [rebuild_list] at h
    cases h
  | set xs =>
    rw [rebuild_set] at h
    cases h
  | pair a b =>
    rw [rebuild_pair] at h
    cases h

end Forms

/-! ## Values as data -/

theorem ofValue_items (vs : List Value) : ofValue.items vs = vs.map ofValue := by
  induction vs with
  | nil => rfl
  | cons v rest ih => rw [ofValue.items, ih, List.map_cons]

theorem ofValue_entries (es : Entries) : ofValue.entries es = es.mapValues ofValue := by
  induction es with
  | nil => rfl
  | cons e rest ih =>
    obtain ⟨k, v⟩ := e
    rw [ofValue.entries, ih, Entries.mapValues_cons]

theorem ofValue_of_isAtomic {v : Value} (h : v.isAtomic = true) : ofValue v = .atom v h := by
  cases v <;> first | rfl | cases h

/-- A value as data is the value. -/
@[simp] theorem plain_ofValue (v : Value) : (ofValue v).plain = v := by
  match v with
  | .null | .bool _ | .int _ | .float _ | .text _ | .date _ | .timestamp _ | .bytes _ =>
    exact plain_atom _ rfl
  | .list xs =>
    rw [ofValue, ofValue_items, plain_list, List.map_map]
    refine congrArg Value.list ((List.map_congr_left fun x hx => ?_).trans (List.map_id xs))
    have := List.sizeOf_lt_of_mem hx
    exact plain_ofValue x
  | .set xs =>
    rw [ofValue, ofValue_items, plain_set, List.map_map]
    refine congrArg Value.set ((List.map_congr_left fun x hx => ?_).trans (List.map_id xs))
    have := List.sizeOf_lt_of_mem hx
    exact plain_ofValue x
  | .pair a b => rw [ofValue, plain_pair, plain_ofValue a, plain_ofValue b]
  | .map es =>
    rw [ofValue, ofValue_entries, plain_map, Entries.mapValues_mapValues]
    refine congrArg Value.map (Entries.mapValues_id fun e he => ?_)
    have := List.sizeOf_lt_of_mem he
    have : sizeOf e.2 < sizeOf e := by
      cases e
      simp only [Prod.mk.sizeOf_spec]
      omega
    exact plain_ofValue e.2
termination_by sizeOf v
decreasing_by
  all_goals
    simp
    try omega

/-! ## Data without repeated keys -/

/-- The data that a collection holds, the keys of a mapping left out. -/
def parts : Loaded → List Loaded
  | .list xs | .set xs => xs
  | .pair a b => [a, b]
  | .map _ es => es.map (·.2)
  | .atom _ _ => []

/-- No mapping inside the data gives a key twice. -/
def Keyed (x : Loaded) : Prop := x.plain.Keyed

/-- Induction along the parts of collections. -/
theorem inductionOnParts {P : Loaded → Prop} (x : Loaded)
    (mk : ∀ x : Loaded, (∀ y ∈ x.parts, P y) → P x) : P x := by
  induction x using inductionOn with
  | atom v h => exact mk _ fun _ hy => nomatch hy
  | list xs ih => exact mk _ ih
  | set xs ih => exact mk _ ih
  | pair a b iha ihb => exact mk _ (List.forall_mem_cons.2 ⟨iha, List.forall_mem_singleton.2 ihb⟩)
  | map m es ih => exact mk _ (List.forall_mem_map.2 ih)

theorem parts_plain (x : Loaded) : x.plain.parts = x.parts.map plain := by
  cases x with
  | atom v h =>
    rw [plain_atom]
    cases v <;> first | rfl | cases h
  | list xs => rw [plain_list]; rfl
  | set xs => rw [plain_set]; rfl
  | pair a b => rw [plain_pair]; rfl
  | map m es =>
    rw [plain_map]
    show (Entries.mapValues plain es).map (·.2) = (es.map (·.2)).map plain
    rw [Entries.mapValues, List.map_map, List.map_map]
    rfl

/-- Only a mapping has the value of one. -/
theorem exists_map_of_plain {x : Loaded} {es : Entries} (h : x.plain = .map es) :
    ∃ m fs, x = .map m fs := by
  cases x with
  | map m fs => exact ⟨m, fs, rfl⟩
  | atom v hv =>
    rw [plain_atom] at h
    rw [h] at hv
    cases hv
  | list xs =>
    rw [plain_list] at h
    cases h
  | set xs =>
    rw [plain_set] at h
    cases h
  | pair a b =>
    rw [plain_pair] at h
    cases h

/-- Only an empty list has the value of one. -/
theorem eq_list_nil {x : Loaded} (h : x.plain = .list []) : x = .list [] := by
  cases x with
  | list xs =>
    rw [plain_list] at h
    rw [List.map_eq_nil_iff.1 (Value.list.inj h)]
  | atom v hv =>
    rw [plain_atom] at h
    rw [h] at hv
    cases hv
  | set xs => simp at h
  | pair a b => simp at h
  | map m es => simp at h

/-- Only an empty set has the value of one. -/
theorem eq_set_nil {x : Loaded} (h : x.plain = .set []) : x = .set [] := by
  cases x with
  | set xs =>
    rw [plain_set] at h
    rw [List.map_eq_nil_iff.1 (Value.set.inj h)]
  | atom v hv =>
    rw [plain_atom] at h
    rw [h] at hv
    cases hv
  | list xs => simp at h
  | pair a b => simp at h
  | map m es => simp at h

section Keyed

variable {m : Option Mark} {es : Entries Loaded}

@[simp] theorem keyed_map_iff : Keyed (.map m es) ↔ es.Proper ∧ ∀ e ∈ es, e.2.Keyed := by
  unfold Keyed
  rw [plain_map, Value.keyed_map_iff, Entries.proper_mapValues, Entries.mapValues,
    List.forall_mem_map]

@[simp] theorem keyed_atom (v : Value) (h : v.isAtomic = true) : Keyed (.atom v h) := by
  unfold Keyed
  rw [plain_atom]
  have hparts : v.parts = [] := by cases v <;> first | rfl | cases h
  refine .mk (fun es hes => ?_) fun w hw => ?_
  · rw [hes] at h
    cases h
  · rw [hparts] at hw
    cases hw

/-- Data that is no mapping gives no key twice if its parts do not. -/
theorem keyed_iff_parts {x : Loaded} (h : ∀ m es, x ≠ .map m es) :
    x.Keyed ↔ ∀ y ∈ x.parts, y.Keyed := by
  have hplain : ∀ es, x.plain ≠ .map es := by
    intro es hes
    obtain ⟨m, fs, rfl⟩ := exists_map_of_plain hes
    exact h m fs rfl
  unfold Keyed
  rw [← List.forall_mem_map, ← parts_plain]
  exact ⟨fun ⟨_, hparts⟩ => hparts, fun hparts => .mk (fun es hes => absurd hes (hplain es)) hparts⟩

@[simp] theorem keyed_list_iff {xs : List Loaded} : Keyed (.list xs) ↔ ∀ x ∈ xs, x.Keyed :=
  keyed_iff_parts (fun _ _ h => nomatch h)

@[simp] theorem keyed_set_iff {xs : List Loaded} : Keyed (.set xs) ↔ ∀ x ∈ xs, x.Keyed :=
  keyed_iff_parts (fun _ _ h => nomatch h)

@[simp] theorem keyed_pair_iff {a b : Loaded} : Keyed (.pair a b) ↔ a.Keyed ∧ b.Keyed := by
  rw [keyed_iff_parts (by simp)]
  simp [parts]

@[simp] theorem keyed_ofValue_iff {v : Value} : (ofValue v).Keyed ↔ v.Keyed := by
  unfold Keyed
  rw [plain_ofValue]

theorem Keyed.proper (h : Keyed (.map m es)) : es.Proper :=
  (keyed_map_iff.1 h).1

theorem Keyed.of_mem (h : Keyed (.map m es)) {e : Value × Loaded} (he : e ∈ es) : e.2.Keyed :=
  (keyed_map_iff.1 h).2 e he

theorem Keyed.of_get? (h : Keyed (.map m es)) {k : Value} {x : Loaded} (hx : es.get? k = some x) :
    x.Keyed := by
  obtain ⟨e, he, rfl⟩ := Option.map_eq_some_iff.1 hx
  exact h.of_mem (List.mem_of_find?_eq_some he)

/-- Mappings that are laid over each other give no key twice. -/
theorem Keyed.insertAll {n k : Option Mark} {fs : Entries Loaded} (h : Keyed (.map m es))
    (hfs : Keyed (.map n fs)) : Keyed (.map k (es.insertAll fs)) := by
  refine keyed_map_iff.2 ⟨h.proper.insertAll hfs.proper.found, fun e he => ?_⟩
  rcases Entries.value_of_mem_insertAll he with hvalue | hvalue
  · obtain ⟨e', he', hvalue⟩ := List.mem_map.1 hvalue
    exact hvalue ▸ h.of_mem he'
  · obtain ⟨e', he', hvalue⟩ := List.mem_map.1 hvalue
    exact hvalue ▸ hfs.of_mem he'

/-- A mapping that is made of entries gives no key twice, though the entries may. -/
theorem keyed_ofList (hkeys : ∀ e ∈ es, e.1.isAtomic = true) (hvalues : ∀ e ∈ es, e.2.Keyed) :
    Keyed (.map m (Entries.ofList es)) := by
  refine keyed_map_iff.2 ⟨Entries.proper_ofList (List.forall_mem_map.2 fun e he =>
    Value.sameKey_self (hkeys e he)), fun e he => ?_⟩
  obtain ⟨f, hf, hvalue⟩ := List.mem_map.1 (Entries.value_of_mem_ofList he)
  exact hvalue ▸ hvalues f hf

/-- Induction along data in which no mapping gives a key twice. -/
@[elab_as_elim]
theorem Keyed.inductionOn {P : Loaded → Prop} {x : Loaded} (h : x.Keyed)
    (mk : ∀ x : Loaded, x.Keyed → (∀ y ∈ x.parts, P y) → P x) : P x := by
  generalize hv : x.plain = v at *
  unfold Keyed at h
  rw [hv] at h
  induction h generalizing x with
  | @mk v hproper hparts ih =>
    subst hv
    refine mk x (.mk hproper hparts) fun y hy => ih y.plain ?_ rfl
    rw [parts_plain]
    exact List.mem_map_of_mem hy

end Keyed

/-! ## Other marks -/

/-- Data whose mappings are made anew with their entries is the same data. -/
theorem plain_rebuild {f : Option Mark → Entries Loaded → Loaded} {x : Loaded}
    (h : ∀ m es, (f m es).plain = .map (es.mapValues plain)) : (rebuild f x).plain = x.plain := by
  induction x using inductionOn with
  | atom v hv => rw [rebuild_atom]
  | list xs ih =>
    rw [rebuild_list, plain_list, plain_list, List.map_map]
    exact congrArg Value.list (List.map_congr_left ih)
  | set xs ih =>
    rw [rebuild_set, plain_set, plain_set, List.map_map]
    exact congrArg Value.set (List.map_congr_left ih)
  | pair a b iha ihb => rw [rebuild_pair, plain_pair, plain_pair, iha, ihb]
  | map m es ih =>
    rw [rebuild_map, h, plain_map, Entries.mapValues_mapValues]
    exact congrArg Value.map (Entries.mapValues_congr ih)

section MapMarks

variable (g : Option Mark → Option Mark) (x : Loaded)

theorem mapMarks_map (m : Option Mark) (es : Entries Loaded) :
    (Loaded.map m es).mapMarks g = .map (g m) (es.mapValues (mapMarks g)) :=
  rebuild_map _ m es

@[simp] theorem plain_mapMarks : (x.mapMarks g).plain = x.plain :=
  plain_rebuild fun m es => plain_map (g m) es

theorem unmarked_map (m : Option Mark) (es : Entries Loaded) :
    (Loaded.map m es).unmarked = .map none (es.mapValues unmarked) :=
  mapMarks_map _ m es

@[simp] theorem plain_unmarked : x.unmarked.plain = x.plain :=
  plain_mapMarks _ x

@[simp] theorem plain_later (loads : Nat) : (x.later loads).plain = x.plain :=
  plain_mapMarks _ x

/-- Unmarked data is its value. -/
theorem unmarked_eq : x.unmarked = ofValue x.plain := by
  induction x using inductionOn with
  | atom v hv => rw [plain_atom, ofValue_of_isAtomic hv, unmarked, mapMarks, rebuild_atom]
  | list xs ih =>
    rw [plain_list, ofValue, ofValue_items, List.map_map, unmarked, mapMarks, rebuild_list]
    exact congrArg Loaded.list (List.map_congr_left ih)
  | set xs ih =>
    rw [plain_set, ofValue, ofValue_items, List.map_map, unmarked, mapMarks, rebuild_set]
    exact congrArg Loaded.set (List.map_congr_left ih)
  | pair a b iha ihb =>
    rw [plain_pair, ofValue, ← iha, ← ihb, unmarked, mapMarks, rebuild_pair]
  | map m es ih =>
    rw [plain_map, ofValue, ofValue_entries, Entries.mapValues_mapValues, unmarked, mapMarks_map]
    exact congrArg (Loaded.map none) (Entries.mapValues_congr ih)

variable {x} {y : Loaded}

theorem unmarked_eq_iff : x.unmarked = y.unmarked ↔ x.plain = y.plain := by
  constructor
  · intro h
    rw [← plain_unmarked x, h, plain_unmarked]
  · intro h
    rw [unmarked_eq, unmarked_eq, h]

end MapMarks

/-! ## Mappings with marks -/

/-- The mappings with marks in the data, with their values. -/
def nodes : Loaded → List (Mark × Entries)
  | .atom _ _ => []
  | .list xs => items xs
  | .set xs => items xs
  | .pair a b => nodes a ++ nodes b
  | .map m es => (m.toList.map fun m => (m, Entries.mapValues plain es)) ++ entries es
where
  items : List Loaded → List (Mark × Entries)
    | [] => []
    | x :: rest => nodes x ++ items rest
  entries : List (Value × Loaded) → List (Mark × Entries)
    | [] => []
    | (_, x) :: rest => nodes x ++ entries rest

section Nodes

variable (xs : List Loaded) (a b : Loaded) (m : Option Mark) (es : Entries Loaded)

theorem nodes_items : nodes.items xs = xs.flatMap nodes := by
  induction xs with
  | nil => rfl
  | cons x rest ih => rw [nodes.items, ih, List.flatMap_cons]

theorem nodes_entries : nodes.entries es = es.flatMap fun e => e.2.nodes := by
  induction es with
  | nil => rfl
  | cons e rest ih =>
    obtain ⟨k, x⟩ := e
    rw [nodes.entries, ih, List.flatMap_cons]

@[simp] theorem nodes_atom (v : Value) (h : v.isAtomic = true) : (Loaded.atom v h).nodes = [] := by
  rw [nodes]

@[simp] theorem nodes_list : (Loaded.list xs).nodes = xs.flatMap nodes := by
  rw [nodes, nodes_items]

@[simp] theorem nodes_set : (Loaded.set xs).nodes = xs.flatMap nodes := by
  rw [nodes, nodes_items]

@[simp] theorem nodes_pair : (Loaded.pair a b).nodes = a.nodes ++ b.nodes := by
  rw [nodes]

@[simp] theorem nodes_map : (Loaded.map m es).nodes =
    (m.toList.map fun m => (m, es.mapValues plain)) ++ es.flatMap fun e => e.2.nodes := by
  rw [nodes, nodes_entries]

theorem marks_items : marks.items xs = xs.flatMap marks := by
  induction xs with
  | nil => rfl
  | cons x rest ih => rw [marks.items, ih, List.flatMap_cons]

theorem marks_entries : marks.entries es = es.flatMap fun e => e.2.marks := by
  induction es with
  | nil => rfl
  | cons e rest ih =>
    obtain ⟨k, x⟩ := e
    rw [marks.entries, ih, List.flatMap_cons]

@[simp] theorem marks_map :
    (Loaded.map m es).marks = m.toList ++ es.flatMap fun e => e.2.marks := by
  rw [marks, marks_entries]

theorem marks_eq (x : Loaded) : x.marks = x.nodes.map (·.1) := by
  induction x using inductionOn with
  | atom v h => rw [marks, nodes_atom, List.map_nil]
  | list xs ih =>
    rw [marks, marks_items, nodes_list, List.map_flatMap]
    exact List.flatMap_congr ih
  | set xs ih =>
    rw [marks, marks_items, nodes_set, List.map_flatMap]
    exact List.flatMap_congr ih
  | pair a b iha ihb => rw [marks, nodes_pair, List.map_append, iha, ihb]
  | map m es ih =>
    rw [marks_map, nodes_map, List.map_append, List.map_flatMap, List.map_map]
    refine congrArg₂ (· ++ ·) (List.map_id _).symm (List.flatMap_congr ih)

/-- Other marks are those of the same mappings. -/
theorem nodes_mapMarks (g : Mark → Mark) (x : Loaded) :
    (x.mapMarks (Option.map g)).nodes = x.nodes.map fun n => (g n.1, n.2) := by
  induction x using inductionOn with
  | atom v h => rw [mapMarks, rebuild_atom, nodes_atom, List.map_nil]
  | list xs ih =>
    rw [mapMarks, rebuild_list, nodes_list, nodes_list, List.flatMap_map, List.map_flatMap]
    exact List.flatMap_congr ih
  | set xs ih =>
    rw [mapMarks, rebuild_set, nodes_set, nodes_set, List.flatMap_map, List.map_flatMap]
    exact List.flatMap_congr ih
  | pair a b iha ihb =>
    rw [mapMarks, rebuild_pair, nodes_pair, nodes_pair, List.map_append, ← iha, ← ihb]
    rfl
  | map m es ih =>
    have hplain : (es.mapValues (mapMarks (Option.map g))).mapValues plain =
        es.mapValues plain := by
      rw [Entries.mapValues_mapValues]
      exact Entries.mapValues_congr fun e _ => plain_mapMarks _ e.2
    rw [mapMarks_map, nodes_map, nodes_map, hplain, List.map_append, List.map_flatMap]
    refine congrArg₂ (· ++ ·) (by cases m <;> rfl) ?_
    rw [Entries.mapValues, List.flatMap_map]
    exact List.flatMap_congr ih

/-- The mappings of a part of the data. -/
theorem mem_nodes_of_parts {x y : Loaded} (hy : y ∈ x.parts) {n : Mark × Entries}
    (h : n ∈ y.nodes) : n ∈ x.nodes := by
  cases x with
  | atom v hv => cases hy
  | list xs => exact nodes_list xs ▸ List.mem_flatMap.2 ⟨y, hy, h⟩
  | set xs => exact nodes_set xs ▸ List.mem_flatMap.2 ⟨y, hy, h⟩
  | pair a b =>
    rw [nodes_pair]
    rcases List.mem_cons.1 hy with rfl | hy
    · exact List.mem_append_left _ h
    · exact List.mem_append_right _ (List.mem_singleton.1 hy ▸ h)
  | map m es =>
    obtain ⟨e, he, rfl⟩ := List.mem_map.1 hy
    rw [nodes_map]
    exact List.mem_append_right _ (List.mem_flatMap.2 ⟨e, he, h⟩)

/-- A mapping with a mark is the data itself or lies in one of its parts. -/
theorem mem_nodes_cases {x : Loaded} {n : Mark × Entries} (h : n ∈ x.nodes) :
    (∃ es : Entries Loaded, x = .map (some n.1) es ∧ n.2 = es.mapValues plain) ∨
      ∃ y ∈ x.parts, n ∈ y.nodes := by
  cases x with
  | atom v hv =>
    rw [nodes_atom] at h
    cases h
  | list xs => exact Or.inr (List.mem_flatMap.1 (nodes_list xs ▸ h))
  | set xs => exact Or.inr (List.mem_flatMap.1 (nodes_set xs ▸ h))
  | pair a b =>
    rw [nodes_pair] at h
    rcases List.mem_append.1 h with h | h
    · exact Or.inr ⟨a, List.mem_cons_self, h⟩
    · exact Or.inr ⟨b, List.mem_cons_of_mem _ (List.mem_singleton_self b), h⟩
  | map m es =>
    rw [nodes_map] at h
    rcases List.mem_append.1 h with h | h
    · obtain ⟨mark, hmark, rfl⟩ := List.mem_map.1 h
      obtain rfl : m = some mark := by simpa using hmark
      exact Or.inl ⟨es, rfl, rfl⟩
    · obtain ⟨e, he, hn⟩ := List.mem_flatMap.1 h
      exact Or.inr ⟨e.2, List.mem_map_of_mem he, hn⟩

theorem Keyed.of_parts {x y : Loaded} (h : x.Keyed) (hy : y ∈ x.parts) : y.Keyed := by
  obtain ⟨-, hparts⟩ := h
  exact hparts _ (parts_plain x ▸ List.mem_map_of_mem hy)

theorem Keyed.proper_of_nodes {x : Loaded} (h : x.Keyed) {n : Mark × Entries} (hn : n ∈ x.nodes) :
    n.2.Proper := by
  induction x using inductionOnParts with
  | mk x ih =>
    rcases mem_nodes_cases hn with ⟨es, rfl, hes⟩ | ⟨y, hy, hn⟩
    · rw [hes]
      exact Entries.proper_mapValues.2 h.proper
    · exact ih y hy (h.of_parts hy) hn

theorem nodes_later (loads : Nat) (x : Loaded) :
    (x.later loads).nodes = x.nodes.map fun n => (n.1.later loads, n.2) :=
  nodes_mapMarks (Mark.later loads) x

theorem marks_later (loads : Nat) (x : Loaded) :
    (x.later loads).marks = x.marks.map (Mark.later loads) := by
  rw [marks_eq, marks_eq, nodes_later, List.map_map, List.map_map]
  rfl

theorem nodes_unmarked (x : Loaded) : x.unmarked.nodes = [] := by
  induction x using inductionOn with
  | atom v h => rw [unmarked, mapMarks, rebuild_atom, nodes_atom]
  | list xs ih =>
    rw [unmarked, mapMarks, rebuild_list, nodes_list, List.flatMap_map]
    exact List.flatMap_eq_nil_iff.2 ih
  | set xs ih =>
    rw [unmarked, mapMarks, rebuild_set, nodes_set, List.flatMap_map]
    exact List.flatMap_eq_nil_iff.2 ih
  | pair a b iha ihb =>
    rw [unmarked, mapMarks, rebuild_pair, nodes_pair]
    exact List.append_eq_nil_iff.2 ⟨iha, ihb⟩
  | map m es ih =>
    rw [unmarked_map, nodes_map]
    exact List.flatMap_eq_nil_iff.2 (List.forall_mem_map.2 ih)

/-- A value as data shares nothing. -/
@[simp] theorem nodes_ofValue (v : Value) : (ofValue v).nodes = [] := by
  have hunmarked := unmarked_eq (ofValue v)
  rw [plain_ofValue] at hunmarked
  rw [← hunmarked, nodes_unmarked]

/-- Mappings with one mark are one mapping, as they are in all data that is read. -/
def Coherent (x : Loaded) : Prop :=
  ∀ n ∈ x.nodes, ∀ n' ∈ x.nodes, n.1 = n'.1 → n.2 = n'.2

end Nodes

/-! ## Shared updates -/

section Refill

variable {as : Additions} {m : Option Mark} {es : Entries Loaded}

theorem fill_cons (a : Mark × Entries Loaded) (as : Additions) (m : Option Mark)
    (es : Entries Loaded) : Additions.fill (a :: as) m es =
      Additions.fill as m (if some a.1 = m then es.insertAll a.2 else es) := rfl

@[simp] theorem refill_map (as : Additions) (m : Option Mark) (es : Entries Loaded) :
    refill as (.map m es) = .map m (as.fill m (es.mapValues (refill as))) :=
  rebuild_map _ m es

/-- Nothing is put into a mapping that none of the additions is for. -/
theorem fill_of_ne (h : ∀ a ∈ as, some a.1 ≠ m) : as.fill m es = es := by
  induction as generalizing es with
  | nil => rfl
  | cons a as ih =>
    obtain ⟨ha, has⟩ := List.forall_mem_cons.1 h
    rw [fill_cons, if_neg ha, ih has]

theorem fill_none : as.fill none es = es :=
  fill_of_ne fun _ _ h => nomatch h

/-- A mapping that one addition is for. -/
theorem fill_of_mem (hnodup : (as.map (·.1)).Nodup) {a : Mark × Entries Loaded} (ha : a ∈ as) :
    as.fill (some a.1) es = es.insertAll a.2 := by
  induction as generalizing es with
  | nil => cases ha
  | cons b as ih =>
    obtain ⟨hb, has⟩ := List.nodup_cons.1 hnodup
    rw [fill_cons]
    rcases List.mem_cons.1 ha with rfl | ha
    · rw [if_pos rfl]
      exact fill_of_ne fun c hc heq => hb (List.mem_map.2 ⟨c, hc, Option.some.inj heq⟩)
    · rw [if_neg fun heq => hb (List.mem_map.2 ⟨a, ha, (Option.some.inj heq).symm⟩), ih has ha]

/-- A mapping that has what is put into it stays as it is. -/
theorem fill_of_absorbs (h : ∀ a ∈ as, some a.1 = m →
      (es.mapValues plain).insertAll (a.2.mapValues plain) = es.mapValues plain) :
    (as.fill m es).mapValues plain = es.mapValues plain := by
  induction as generalizing es with
  | nil => rfl
  | cons a as ih =>
    obtain ⟨ha, has⟩ := List.forall_mem_cons.1 h
    rw [fill_cons]
    split
    · next hm =>
      have hplain : (es.insertAll a.2).mapValues plain = es.mapValues plain := by
        rw [← Entries.insertAll_mapValues, ha hm]
      rw [ih (by rwa [hplain]), hplain]
    · exact ih has

/-- Data in which none of the mappings is changed stays as it is. -/
theorem refill_of_disjoint {x : Loaded} (h : ∀ a ∈ as, a.1 ∉ x.marks) : refill as x = x := by
  induction x using inductionOn with
  | atom v hv => exact rebuild_atom _ v hv
  | list xs ih =>
    rw [refill, rebuild_list]
    refine congrArg Loaded.list ((List.map_congr_left fun x hx => ih x hx fun a ha hm => ?_).trans
      (List.map_id xs))
    refine h a ha ?_
    rw [marks, marks_items]
    exact List.mem_flatMap.2 ⟨x, hx, hm⟩
  | set xs ih =>
    rw [refill, rebuild_set]
    refine congrArg Loaded.set ((List.map_congr_left fun x hx => ih x hx fun a ha hm => ?_).trans
      (List.map_id xs))
    refine h a ha ?_
    rw [marks, marks_items]
    exact List.mem_flatMap.2 ⟨x, hx, hm⟩
  | pair x y ihx ihy =>
    rw [marks] at h
    have hx : refill as x = x := ihx fun a ha hm => h a ha (List.mem_append_left _ hm)
    have hy : refill as y = y := ihy fun a ha hm => h a ha (List.mem_append_right _ hm)
    rw [refill, rebuild_pair, ← refill, hx, hy]
  | map m es ih =>
    rw [marks_map] at h
    have hvalues : es.mapValues (refill as) = es := Entries.mapValues_id fun e he =>
      ih e he fun a ha hm => h a ha (List.mem_append_right _ (List.mem_flatMap.2 ⟨e, he, hm⟩))
    rw [refill_map, hvalues, fill_of_ne]
    rintro a ha rfl
    exact h a ha (List.mem_append_left _ (List.mem_singleton_self a.1))

/-- Data whose mappings have what is put into them stays as it is. -/
theorem plain_refill_of_absorbs {x : Loaded} (h : ∀ a ∈ as, ∀ n ∈ x.nodes, a.1 = n.1 →
      n.2.insertAll (a.2.mapValues plain) = n.2) : (refill as x).plain = x.plain := by
  induction x using inductionOn with
  | atom v hv => rw [refill, rebuild_atom]
  | list xs ih =>
    rw [refill, rebuild_list, plain_list, plain_list, List.map_map]
    refine congrArg Value.list (List.map_congr_left fun x hx => ih x hx fun a ha n hn => ?_)
    exact h a ha n (by rw [nodes_list]; exact List.mem_flatMap.2 ⟨x, hx, hn⟩)
  | set xs ih =>
    rw [refill, rebuild_set, plain_set, plain_set, List.map_map]
    refine congrArg Value.set (List.map_congr_left fun x hx => ih x hx fun a ha n hn => ?_)
    exact h a ha n (by rw [nodes_set]; exact List.mem_flatMap.2 ⟨x, hx, hn⟩)
  | pair x y ihx ihy =>
    rw [nodes_pair] at h
    have hx := ihx fun a ha n hn => h a ha n (List.mem_append_left _ hn)
    have hy := ihy fun a ha n hn => h a ha n (List.mem_append_right _ hn)
    rw [refill, rebuild_pair, plain_pair, plain_pair, ← refill, hx, hy]
  | map m es ih =>
    rw [nodes_map] at h
    have hvalues : (es.mapValues (refill as)).mapValues plain = es.mapValues plain := by
      rw [Entries.mapValues_mapValues]
      exact Entries.mapValues_congr fun e he => ih e he fun a ha n hn =>
        h a ha n (List.mem_append_right _ (List.mem_flatMap.2 ⟨e, he, hn⟩))
    rw [refill_map, plain_map, plain_map, fill_of_absorbs, hvalues]
    rintro a ha rfl
    rw [hvalues]
    exact h a ha (a.1, es.mapValues plain) (List.mem_append_left _ (List.mem_singleton_self _)) rfl

theorem Keyed.fill (has : ∀ a ∈ as, Keyed (.map none a.2)) (h : Keyed (.map m es)) :
    Keyed (.map m (as.fill m es)) := by
  induction as generalizing es with
  | nil => exact h
  | cons a as ih =>
    obtain ⟨ha, has⟩ := List.forall_mem_cons.1 has
    rw [fill_cons]
    split
    · exact ih has (h.insertAll ha)
    · exact ih has h

/-- Filled data gives no key twice if what is put into it does not. -/
theorem Keyed.refill {x : Loaded} (has : ∀ a ∈ as, Keyed (.map none a.2)) (h : x.Keyed) :
    (refill as x).Keyed := by
  induction x using Loaded.inductionOn with
  | atom v hv =>
    rw [Loaded.refill, rebuild_atom]
    exact h
  | list xs ih =>
    rw [Loaded.refill, rebuild_list, keyed_list_iff, List.forall_mem_map]
    exact fun x hx => ih x hx (keyed_list_iff.1 h x hx)
  | set xs ih =>
    rw [Loaded.refill, rebuild_set, keyed_set_iff, List.forall_mem_map]
    exact fun x hx => ih x hx (keyed_set_iff.1 h x hx)
  | pair a b iha ihb =>
    obtain ⟨ha, hb⟩ := keyed_pair_iff.1 h
    rw [Loaded.refill, rebuild_pair]
    exact keyed_pair_iff.2 ⟨iha ha, ihb hb⟩
  | map m es ih =>
    rw [refill_map]
    refine Keyed.fill has (keyed_map_iff.2 ⟨?_, ?_⟩)
    · exact Entries.proper_mapValues.2 h.proper
    · exact List.forall_mem_map.2 fun e he => ih e he (h.of_mem he)

/-- A mapping of filled data was put in, or it is one of the data and has what is put into it. -/
theorem nodes_refill (hnodup : (as.map (·.1)).Nodup) (hproper : ∀ a ∈ as, a.2.Proper) {x : Loaded}
    {n : Mark × Entries} (h : n ∈ (refill as x).nodes) :
    (∃ a ∈ as, n ∈ a.2.flatMap fun e => e.2.nodes) ∨
      n.1 ∈ x.marks ∧ ∀ a ∈ as, a.1 = n.1 → n.2.insertAll (a.2.mapValues plain) = n.2 := by
  induction x using inductionOn with
  | atom v hv =>
    rw [refill, rebuild_atom, nodes_atom] at h
    cases h
  | list xs ih =>
    rw [refill, rebuild_list, nodes_list, List.flatMap_map] at h
    obtain ⟨x, hx, hn⟩ := List.mem_flatMap.1 h
    refine (ih x hx hn).imp_right fun hown => ⟨?_, hown.2⟩
    rw [marks, marks_items]
    exact List.mem_flatMap.2 ⟨x, hx, hown.1⟩
  | set xs ih =>
    rw [refill, rebuild_set, nodes_set, List.flatMap_map] at h
    obtain ⟨x, hx, hn⟩ := List.mem_flatMap.1 h
    refine (ih x hx hn).imp_right fun hown => ⟨?_, hown.2⟩
    rw [marks, marks_items]
    exact List.mem_flatMap.2 ⟨x, hx, hown.1⟩
  | pair x y ihx ihy =>
    rw [refill, rebuild_pair, nodes_pair] at h
    rw [marks]
    rcases List.mem_append.1 h with h | h
    · exact (ihx h).imp_right fun hown => ⟨List.mem_append_left _ hown.1, hown.2⟩
    · exact (ihy h).imp_right fun hown => ⟨List.mem_append_right _ hown.1, hown.2⟩
  | map m es ih =>
    rw [refill_map, nodes_map] at h
    rw [marks_map]
    have hold : n ∈ (es.mapValues (refill as)).flatMap (fun e => e.2.nodes) →
        (∃ a ∈ as, n ∈ a.2.flatMap fun e => e.2.nodes) ∨
          n.1 ∈ m.toList ++ es.flatMap (fun e => e.2.marks) ∧
            ∀ a ∈ as, a.1 = n.1 → n.2.insertAll (a.2.mapValues plain) = n.2 := by
      intro h
      rw [Entries.mapValues, List.flatMap_map] at h
      obtain ⟨e, he, hn⟩ := List.mem_flatMap.1 h
      exact (ih e he hn).imp_right fun hown =>
        ⟨List.mem_append_right _ (List.mem_flatMap.2 ⟨e, he, hown.1⟩), hown.2⟩
    rcases List.mem_append.1 h with h | h
    · obtain ⟨mark, hmark, rfl⟩ := List.mem_map.1 h
      obtain rfl : m = some mark := by simpa using hmark
      -- What has just been put into the mapping is in it.
      refine Or.inr ⟨List.mem_append_left _ hmark, fun a ha heq => ?_⟩
      obtain rfl : a.1 = mark := heq
      dsimp only
      rw [fill_of_mem hnodup ha, ← Entries.insertAll_mapValues]
      exact Entries.insertAll_insertAll (Entries.proper_mapValues.2 (hproper a ha)) _
    · by_cases hin : ∃ a ∈ as, some a.1 = m
      · obtain ⟨a, ha, rfl⟩ := hin
        rw [fill_of_mem hnodup ha] at h
        obtain ⟨e, he, hn⟩ := List.mem_flatMap.1 h
        rcases Entries.value_of_mem_insertAll he with hvalue | hvalue
        · obtain ⟨e', he', hvalue⟩ := List.mem_map.1 hvalue
          exact hold (List.mem_flatMap.2 ⟨e', he', hvalue ▸ hn⟩)
        · obtain ⟨e', he', hvalue⟩ := List.mem_map.1 hvalue
          exact Or.inl ⟨a, ha, List.mem_flatMap.2 ⟨e', he', hvalue ▸ hn⟩⟩
      · rw [fill_of_ne fun a ha heq => hin ⟨a, ha, heq⟩] at h
        exact hold h

end Refill

end Loaded

end IdlBridge
