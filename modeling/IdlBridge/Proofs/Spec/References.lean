import IdlBridge.Proofs.Value.Entries
import IdlBridge.Spec.Loading

/-! # The references inside data

    The references of data are those of its mappings, at any depth.  They are collected by three
    recursions over data, over items and over entries; here the latter two become statements about
    members.

    A reference is open when no mapping around it has a reference itself.  These are the references
    that the loader meets on its way through a path item.
-/

namespace IdlBridge.Spec

/-- All mappings of the data, at any depth. -/
def mappings : Value → List Value.Entries
  | .list xs => items xs
  | .map es => es :: entries es
  | _ => []
where
  items : List Value → List Value.Entries
    | [] => []
    | x :: rest => mappings x ++ items rest
  entries : List (Value × Value) → List Value.Entries
    | [] => []
    | (_, v) :: rest => mappings v ++ entries rest

/-- The references of the data that are not strictly inside a mapping with a reference. -/
def openReferences : Value → List Text
  | .list xs => items xs
  | .map es =>
    match reference? es with
    | some ref => [ref]
    | none => entries es
  | _ => []
where
  items : List Value → List Text
    | [] => []
    | x :: rest => openReferences x ++ items rest
  entries : List (Value × Value) → List Text
    | [] => []
    | (_, v) :: rest => openReferences v ++ entries rest

/-! ## References -/

theorem mem_references_items {xs : List Value} {ref : Text} :
    ref ∈ references.items xs ↔ ∃ x ∈ xs, ref ∈ references x := by
  induction xs with
  | nil => simp [references.items]
  | cons x rest ih => simp [references.items, ih]

theorem mem_references_entries {es : Value.Entries} {ref : Text} :
    ref ∈ references.entries es ↔ ∃ e ∈ es, ref ∈ references e.2 := by
  induction es with
  | nil => simp [references.entries]
  | cons e rest ih =>
    obtain ⟨k, v⟩ := e
    simp [references.entries, ih]

theorem mem_references_list {xs : List Value} {ref : Text} :
    ref ∈ references (.list xs) ↔ ∃ x ∈ xs, ref ∈ references x := by
  rw [references, mem_references_items]

theorem mem_references_map {es : Value.Entries} {ref : Text} :
    ref ∈ references (.map es) ↔ reference? es = some ref ∨ ∃ e ∈ es, ref ∈ references e.2 := by
  rw [references, List.mem_append, mem_references_entries, Option.mem_toList]

/-- The reference of a mapping is a text that it holds. -/
theorem get?_of_reference? {es : Value.Entries} {ref : Text} (h : reference? es = some ref) :
    es.get? (.text "$ref") = some (.text ref) := by
  unfold reference? at h
  split at h
  · next hr =>
    cases h
    exact hr
  · cases h

/-! ## Mappings -/

theorem mem_mappings_items {xs : List Value} {fs : Value.Entries} :
    fs ∈ mappings.items xs ↔ ∃ x ∈ xs, fs ∈ mappings x := by
  induction xs with
  | nil => simp [mappings.items]
  | cons x rest ih => simp [mappings.items, ih]

theorem mem_mappings_entries {es fs : Value.Entries} :
    fs ∈ mappings.entries es ↔ ∃ e ∈ es, fs ∈ mappings e.2 := by
  induction es with
  | nil => simp [mappings.entries]
  | cons e rest ih =>
    obtain ⟨k, v⟩ := e
    simp [mappings.entries, ih]

theorem mem_mappings_list {xs : List Value} {fs : Value.Entries} :
    fs ∈ mappings (.list xs) ↔ ∃ x ∈ xs, fs ∈ mappings x := by
  rw [mappings, mem_mappings_items]

theorem mem_mappings_map {es fs : Value.Entries} :
    fs ∈ mappings (.map es) ↔ fs = es ∨ ∃ e ∈ es, fs ∈ mappings e.2 := by
  rw [mappings, List.mem_cons, mem_mappings_entries]

/-! ## Open references -/

theorem mem_openReferences_items {xs : List Value} {ref : Text} :
    ref ∈ openReferences.items xs ↔ ∃ x ∈ xs, ref ∈ openReferences x := by
  induction xs with
  | nil => simp [openReferences.items]
  | cons x rest ih => simp [openReferences.items, ih]

theorem mem_openReferences_entries {es : Value.Entries} {ref : Text} :
    ref ∈ openReferences.entries es ↔ ∃ e ∈ es, ref ∈ openReferences e.2 := by
  induction es with
  | nil => simp [openReferences.entries]
  | cons e rest ih =>
    obtain ⟨k, v⟩ := e
    simp [openReferences.entries, ih]

theorem mem_openReferences_list {xs : List Value} {ref : Text} :
    ref ∈ openReferences (.list xs) ↔ ∃ x ∈ xs, ref ∈ openReferences x := by
  rw [openReferences, mem_openReferences_items]

theorem openReferences_of_reference? {es : Value.Entries} {ref : Text}
    (h : reference? es = some ref) : openReferences (.map es) = [ref] := by
  rw [openReferences, h]

theorem mem_openReferences_map {es : Value.Entries} (h : reference? es = none) {ref : Text} :
    ref ∈ openReferences (.map es) ↔ ∃ e ∈ es, ref ∈ openReferences e.2 := by
  rw [openReferences, h]
  exact mem_openReferences_entries

theorem openReferences_of_isLeaf {v : Value} (h : v.IsLeaf) : openReferences v = [] := by
  cases v with
  | list _ | map _ => exact absurd h id
  | _ => rfl

/-- An open reference is a reference. -/
theorem openReferences_subset (v : Value) : openReferences v ⊆ references v := by
  induction v using Value.inductionOn with
  | list xs ih =>
    intro ref h
    obtain ⟨x, hx, h⟩ := mem_openReferences_list.1 h
    exact mem_references_list.2 ⟨x, hx, ih x hx h⟩
  | map es ih =>
    intro ref h
    refine mem_references_map.2 ?_
    cases hr : reference? es with
    | some ref' =>
      rw [openReferences_of_reference? hr] at h
      exact Or.inl (congrArg some (List.mem_singleton.1 h).symm)
    | none =>
      obtain ⟨e, he, h⟩ := (mem_openReferences_map hr).1 h
      exact Or.inr ⟨e, he, ih e he h⟩
  | leaf v hv =>
    rw [openReferences_of_isLeaf hv]
    exact List.nil_subset _

/-! ## Pointers -/

/-- What a key leads to is the value of an entry. -/
theorem exists_mem_of_get? {v w : Value} {key : Text} (h : v.get? key = some w) :
    ∃ es, v = .map es ∧ (.text key, w) ∈ es := by
  cases v with
  | map es => exact ⟨es, rfl, Value.Entries.mem_of_get? h⟩
  | _ => cases h

theorem follow_cons {v target : Value} {key : Text} {keys : List Text}
    (h : Pointer.follow v (key :: keys) = some target) :
    ∃ w, v.get? key = some w ∧ Pointer.follow w keys = some target := by
  rw [Pointer.follow] at h
  exact Option.bind_eq_some_iff.1 h

/-- What a pointer leads to has no references of its own. -/
theorem references_follow_subset {v target : Value} {keys : List Text}
    (h : Pointer.follow v keys = some target) : references target ⊆ references v := by
  induction keys generalizing v with
  | nil =>
    cases h
    exact List.Subset.refl _
  | cons key keys ih =>
    obtain ⟨w, hw, htarget⟩ := follow_cons h
    obtain ⟨es, rfl, he⟩ := exists_mem_of_get? hw
    exact fun ref href => mem_references_map.2 (Or.inr ⟨_, he, ih htarget href⟩)

theorem mappings_follow_subset {v target : Value} {keys : List Text}
    (h : Pointer.follow v keys = some target) : mappings target ⊆ mappings v := by
  induction keys generalizing v with
  | nil =>
    cases h
    exact List.Subset.refl _
  | cons key keys ih =>
    obtain ⟨w, hw, htarget⟩ := follow_cons h
    obtain ⟨es, rfl, he⟩ := exists_mem_of_get? hw
    exact fun fs hfs => mem_mappings_map.2 (Or.inr ⟨_, he, ih htarget hfs⟩)

end IdlBridge.Spec
