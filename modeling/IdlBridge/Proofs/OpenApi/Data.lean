import IdlBridge.Proofs.OpenApi.Linked
import IdlBridge.Proofs.Value.Entries
import IdlBridge.Spec.Pointer

/-! # Objects as data

    The members that have been given come out under their keys, so a document can be read back with
    a pointer.  The key `$ref` is that of a reference and of nothing else, which is why the
    references of a linked object are those that the object was built with.
-/

namespace IdlBridge.OpenApi.Object

variable {P : Text → Prop}

/-! ## The entries of an object -/

theorem given_eq_map (ms : List (Member × Slot)) :
    toValue.given ms = ms.map fun e => (e.1, toValue.slot e.2) := by
  induction ms with
  | nil => rfl
  | cons e rest ih =>
    obtain ⟨m, c⟩ := e
    rw [toValue.given, ih, List.map_cons]

theorem list_eq_map (os : List Object) : toValue.list os = os.map toValue := by
  induction os with
  | nil => rfl
  | cons o rest ih => rw [toValue.list, ih, List.map_cons]

theorem table_eq_map (es : Table Object) :
    toValue.table es = es.map fun e => (.text e.1, toValue e.2) := by
  induction es with
  | nil => rfl
  | cons e rest ih =>
    obtain ⟨k, o⟩ := e
    rw [toValue.table, ih, List.map_cons]

/-- The data of a member of an object. -/
def memberValue (ms : List (Member × Slot)) (s : MemberSpec) : Value :=
  (((ms.find? (·.1 = s.member)).map (·.2)).map toValue.slot).getD (missingValue s)

theorem toValue_eq (k : Kind) (ms : List (Member × Slot)) (es : List (Text × Loaded)) :
    toValue (.mk k ms es) =
      .map (entries k (toValue.given ms) (es.map fun e => (e.1, e.2.plain))) := by
  rw [toValue]

theorem memberValue_eq (ms : List (Member × Slot)) (s : MemberSpec) :
    (((toValue.given ms).find? (·.1 = s.member)).map (·.2)).getD (missingValue s) =
      memberValue ms s := by
  unfold memberValue
  rw [given_eq_map, List.find?_map, Option.map_map, Option.map_map]
  rfl

/-- The members of an object that are written. -/
def shownMembers (k : Kind) (ms : List (Member × Slot)) : List MemberSpec :=
  k.members.filter fun s => !isVoid (memberValue ms s)

/-- Behind the members of an object there can only be the empty paths of a document. -/
theorem entries_eq (k : Kind) (ms : List (Member × Slot)) :
    ∃ tail, entries k (toValue.given ms) [] =
        (shownMembers k ms).map (fun s => (.text s.member.key, memberValue ms s)) ++ tail ∧
      ∀ e ∈ tail, e = (.text Member.paths.key, .map []) := by
  have hshown : ((k.members.map fun s : MemberSpec =>
      (s.member.key, memberValue ms s)) ++ []).filter
      (fun e : Text × Value => !isVoid e.2) =
        (shownMembers k ms).map fun s => (s.member.key, memberValue ms s) := by
    rw [List.append_nil, List.filter_map]
    rfl
  unfold entries
  simp only [memberValue_eq, hshown, List.map_map]
  split
  · exact ⟨_, rfl, fun e he => List.mem_singleton.1 he⟩
  · exact ⟨[], (List.append_nil _).symm, by simp⟩

theorem mem_entries {k : Kind} {ms : List (Member × Slot)} {e : Value × Value}
    (h : e ∈ entries k (toValue.given ms) []) :
    (∃ s ∈ k.members, e = (.text s.member.key, memberValue ms s)) ∨
      e = (.text Member.paths.key, .map []) := by
  obtain ⟨tail, heq, htail⟩ := entries_eq k ms
  rw [heq, List.mem_append, List.mem_map] at h
  rcases h with ⟨s, hs, rfl⟩ | h
  · exact Or.inl ⟨s, List.mem_of_mem_filter hs, rfl⟩
  · exact Or.inr (htail e h)

theorem mem_entries_of_member {k : Kind} {ms : List (Member × Slot)} {s : MemberSpec}
    (hs : s ∈ k.members) (hvoid : isVoid (memberValue ms s) = false) :
    (.text s.member.key, memberValue ms s) ∈ entries k (toValue.given ms) [] := by
  obtain ⟨tail, heq, -⟩ := entries_eq k ms
  rw [heq]
  refine List.mem_append_left _ (List.mem_map.2 ⟨s, List.mem_filter.2 ⟨hs, ?_⟩, rfl⟩)
  simp [hvoid]

/-! ## Pointers -/

theorem key_injective {k : Kind} {s t : MemberSpec} (hs : s ∈ k.members) (ht : t ∈ k.members)
    (h : s.member.key = t.member.key) : s = t := by
  revert h
  revert t
  revert s
  cases k <;> decide +kernel

/-- A member that has been given and is not void is found under its key. -/
theorem get?_toValue {o : Object} {s : MemberSpec} {c : Slot} (hextras : o.extras = [])
    (hs : s ∈ o.kind.members) (hpaths : s.member.key ≠ Member.paths.key)
    (hgiven : o.given? s.member = some c) (hvoid : isVoid (toValue.slot c) = false) :
    o.toValue.get? s.member.key = some (toValue.slot c) := by
  obtain ⟨k, ms, es⟩ := o
  cases hextras
  have hvalue : memberValue ms s = toValue.slot c := by
    unfold memberValue
    rw [show (ms.find? (·.1 = s.member)).map (·.2) = some c from hgiven]
    rfl
  -- No other entry has the key: keys of members are told apart, and there are no extras.
  rw [toValue_eq]
  refine Value.Entries.get?_of_mem (hvalue ▸ mem_entries_of_member hs (hvalue ▸ hvoid)) ?_
  intro w hw
  rcases mem_entries hw with ⟨t, ht, he⟩ | he
  · injection he with hkey hw
    injection hkey with hkey
    rw [hw, ← key_injective hs ht hkey, hvalue]
  · injection he with hkey
    injection hkey with hkey
    exact absurd hkey hpaths

/-- Data in which a key is found is not void. -/
theorem isVoid_of_get? {v w : Value} {key : Text} (h : v.get? key = some w) : isVoid v = false := by
  cases v with
  | map es =>
    cases es with
    | nil => cases h
    | cons e rest => rfl
  | _ => cases h

theorem get?_table (es : Table Object) (n : Text) :
    (toValue.slot (.table es)).get? n = (es.get? n).map toValue := by
  rw [toValue.slot, table_eq_map]
  show Value.Entries.get? _ _ = _
  unfold Value.Entries.get? Table.get?
  rw [List.find?_map, Option.map_map, Option.map_map]
  rfl

/-! ## References -/

/-- Only references have a member that is written as `$ref`. -/
theorem reference_of_key {k : Kind} {s : MemberSpec} (hs : s ∈ k.members)
    (hkey : s.member.key = "$ref") : k = .reference ∧ s.member = .ref := by
  revert hkey
  revert s
  cases k <;> decide

theorem references_missingValue {k : Kind} {s : MemberSpec} (hs : s ∈ k.members) :
    Spec.references (missingValue s) = [] := by
  revert s
  cases k <;> decide

/-- An object as data is a mapping. -/
theorem exists_toValue_eq (o : Object) : ∃ es, o.toValue = .map es := by
  cases o with
  | mk k ms es => exact ⟨_, toValue_eq k ms es⟩

/-- Keys of a table are no references, as they all have mappings. -/
theorem reference?_table (es : Table Object) : Spec.reference? (toValue.table es) = none := by
  unfold Spec.reference?
  split
  · next r hr =>
    have hmem := Value.Entries.mem_of_get? hr
    rw [table_eq_map] at hmem
    obtain ⟨e, -, he⟩ := List.mem_map.1 hmem
    obtain ⟨fs, hfs⟩ := exists_toValue_eq e.2
    injection he with _ he
    rw [hfs] at he
    cases he
  · rfl

theorem references_slot {c : Slot} (htyped : c.isTyped = true)
    (h : ∀ o ∈ c.held, ∀ r ∈ Spec.references o.toValue, P r) :
    ∀ r ∈ Spec.references (toValue.slot c), P r := by
  intro r hr
  cases c with
  | null => cases hr
  | text t => cases hr
  | flag b => cases hr
  | data v => cases htyped
  | texts ts =>
    obtain ⟨x, hx, hr⟩ := Spec.mem_references_list.1 hr
    obtain ⟨t, -, rfl⟩ := List.mem_map.1 hx
    cases hr
  | dataList vs =>
    rw [List.isEmpty_iff.1 htyped] at hr
    cases hr
  | dataTable es =>
    rw [List.isEmpty_iff.1 htyped] at hr
    cases hr
  | object o => exact h o (List.mem_singleton.2 rfl) r hr
  | objects os =>
    rw [toValue.slot, list_eq_map] at hr
    obtain ⟨x, hx, hr⟩ := Spec.mem_references_list.1 hr
    obtain ⟨o, ho, rfl⟩ := List.mem_map.1 hx
    exact h o ho r hr
  | table es =>
    rw [toValue.slot] at hr
    rcases Spec.mem_references_map.1 hr with hr | ⟨x, hx, hr⟩
    · rw [reference?_table] at hr
      cases hr
    · rw [table_eq_map] at hx
      obtain ⟨e, he, rfl⟩ := List.mem_map.1 hx
      exact h e.2 (List.mem_map.2 ⟨e, he, rfl⟩) r hr

/-- The references of a linked object lead where its reference objects do. -/
theorem references_toValue {o : Object} (h : Linked P o) :
    ∀ r ∈ Spec.references o.toValue, P r := by
  induction h with
  | @mk k ms htyped _ href ih =>
    intro r hr
    rw [toValue_eq] at hr
    rcases Spec.mem_references_map.1 hr with hr | ⟨e, he, hr⟩
    · have hmem := Value.Entries.mem_of_get? (Spec.get?_of_reference? hr)
      rcases mem_entries hmem with ⟨s, hs, he⟩ | he
      · injection he with hkey hvalue
        injection hkey with hkey
        -- Only a reference object has a member under the key of references.
        obtain ⟨hk, hs⟩ := reference_of_key hs hkey.symm
        obtain ⟨t, ht, hP⟩ := href hk
        unfold memberValue at hvalue
        rw [hs, show (ms.find? (·.1 = Member.ref)).map (·.2) = some (.text t) from ht] at hvalue
        cases hvalue
        exact hP
      · cases he
    · rcases mem_entries he with ⟨s, hs, rfl⟩ | rfl
      · dsimp only at hr
        unfold memberValue at hr
        cases hc : (ms.find? (·.1 = s.member)).map (·.2) with
        | none =>
          rw [hc] at hr
          exact absurd hr (by simp [references_missingValue hs])
        | some c =>
          rw [hc] at hr
          obtain ⟨e, he, rfl⟩ := mem_of_given? (o := .mk k ms []) hc
          exact references_slot (htyped e he) (ih e he) r hr
      · cases hr

end IdlBridge.OpenApi.Object
