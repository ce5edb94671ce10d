import IdlBridge.Proofs.Collections
import IdlBridge.Proofs.OpenApi.Overlay

/-! # Where additions belong

    What is laid over a mapping with a mark is put into the mapping, wherever it lies.  The
    additions of an overlay are followed from the object down to its places: where every mapping
    that something is put into lies at one place only, each of the additions belongs to one member
    or one unknown key, and `Meets` goes on from the object to that place.
-/

namespace IdlBridge.OpenApi.Object

/-! ## Marks of an object -/

/-- The marks of what a member holds. -/
def slotMarks (c : Slot) : List Mark :=
  (data.slot c).flatMap Loaded.marks

section Marks

variable {l u : Object} {mark : Mark}

theorem marks_mk (k : Kind) (ms : List (Member × Slot)) (es : Table Loaded) :
    (Object.mk k ms es).marks =
      (ms.flatMap fun e => slotMarks e.2) ++ es.flatMap fun e => e.2.marks := by
  unfold marks slotMarks
  rw [data_mk, List.flatMap_append, List.flatMap_assoc, List.flatMap_map]

/-- A mark at a member is one of a content that has been given. -/
theorem mem_members_of_mem_slotMarks {m : Member} (h : mark ∈ slotMarks (l.get m)) :
    ∃ e ∈ l.members, e.1 = m ∧ l.get m = e.2 := by
  obtain ⟨x, hx, -⟩ := List.mem_flatMap.1 h
  exact mem_members_of_mem_data hx

theorem mem_marks_of_get {m : Member} (h : mark ∈ slotMarks (l.get m)) : mark ∈ l.marks := by
  obtain ⟨x, hx, hmark⟩ := List.mem_flatMap.1 h
  exact List.mem_flatMap.2 ⟨x, mem_data_of_get hx, hmark⟩

theorem mem_marks_of_extras {key : Text} {x : Loaded} (hx : l.extras.get? key = some x)
    (h : mark ∈ x.marks) : mark ∈ l.marks :=
  List.mem_flatMap.2 ⟨x, mem_data_of_extras hx, h⟩

/-! ## Where additions belong -/

theorem additions_members (l : Object) (ms : List (Member × Slot)) :
    additions.members l ms = ms.flatMap fun e => additions.slot (l.get e.1) e.2 := by
  induction ms with
  | nil => rfl
  | cons e rest ih =>
    obtain ⟨m, c⟩ := e
    rw [additions.members, ih, List.flatMap_cons]

theorem additions_mk (l : Object) (k : Kind) (ms : List (Member × Slot)) (es : Table Loaded) :
    additions l (.mk k ms es) = (ms.flatMap fun e => additions.slot (l.get e.1) e.2) ++
      es.flatMap fun e =>
        if isLost l.kind e.1 then [] else additionsTo (l.extras.get? e.1) e.2 := by
  rw [additions, additions_members]

theorem mem_additionsTo {lower : Option Loaded} {upper : Loaded}
    {a : Mark × Value.Entries Loaded} : a ∈ additionsTo lower upper ↔
      ∃ es n, lower = some (.map (some a.1) es) ∧ upper = .map n a.2 := by
  unfold additionsTo
  split
  · constructor
    · intro h
      rw [List.mem_singleton.1 h]
      exact ⟨_, _, rfl, rfl⟩
    · rintro ⟨es, n, hl, hu⟩
      obtain ⟨mark, fs⟩ := a
      cases hl
      cases hu
      exact List.mem_singleton_self _
  · next hne =>
    constructor
    · intro h
      cases h
    · rintro ⟨es, n, rfl, rfl⟩
      exact (hne _ _ _ _ rfl rfl).elim

theorem mem_additions {a : Mark × Value.Entries Loaded} : a ∈ additions l u ↔
    (∃ e ∈ u.members, a ∈ additions.slot (l.get e.1) e.2) ∨
      ∃ e ∈ u.extras, isLost l.kind e.1 = false ∧ a ∈ additionsTo (l.extras.get? e.1) e.2 := by
  obtain ⟨k, ms, es⟩ := u
  rw [additions_mk, List.mem_append, List.mem_flatMap, List.mem_flatMap]
  refine or_congr Iff.rfl (exists_congr fun e => and_congr Iff.rfl ?_)
  cases isLost l.kind e.1 <;> simp

theorem mark_of_additionsTo {lower : Option Loaded} {upper : Loaded}
    {a : Mark × Value.Entries Loaded} (h : a ∈ additionsTo lower upper) :
    ∃ x, lower = some x ∧ a.1 ∈ x.marks := by
  obtain ⟨es, n, rfl, -⟩ := mem_additionsTo.1 h
  refine ⟨_, rfl, ?_⟩
  rw [Loaded.marks_map]
  exact List.mem_append_left _ (List.mem_singleton_self a.1)

/-- Additions to a content go to mappings of the content. -/
theorem mark_of_slot {c z : Slot} {a : Mark × Value.Entries Loaded}
    (ih : ∀ o ∈ c.held, ∀ x : Object, ∀ a ∈ additions x o, a.1 ∈ x.marks)
    (h : a ∈ additions.slot z c) : a.1 ∈ slotMarks z := by
  cases c with
  | object o =>
    cases z with
    | object x =>
      rw [additions.slot] at h
      split at h
      · exact ih o (List.mem_singleton_self o) x a h
      · cases h
    | _ => cases h
  | data v =>
    cases z with
    | data w =>
      obtain ⟨x, hx, hmark⟩ := mark_of_additionsTo h
      cases hx
      exact List.mem_append_left _ hmark
    | _ => cases h
  | _ => cases h

/-- Additions to an object go to mappings of the object. -/
theorem mark_of_additions (u : Object) : ∀ l : Object, ∀ a ∈ additions l u, a.1 ∈ l.marks := by
  induction u using inductionOn with
  | mk k ms es ih =>
    intro l a ha
    rcases mem_additions.1 ha with ⟨e, he, ha⟩ | ⟨e, -, -, ha⟩
    · exact mem_marks_of_get (mark_of_slot (ih e he) ha)
    · obtain ⟨x, hx, hmark⟩ := mark_of_additionsTo ha
      exact mem_marks_of_extras hx hmark

/-- What is put into a mapping is a mapping of the upper object. -/
theorem mem_data_of_slot {c z : Slot} {a : Mark × Value.Entries Loaded}
    (ih : ∀ o ∈ c.held, ∀ x : Object, ∀ a ∈ additions x o, ∃ n, .map n a.2 ∈ o.data)
    (h : a ∈ additions.slot z c) : ∃ n, .map n a.2 ∈ data.slot c := by
  cases c with
  | object o =>
    cases z with
    | object x =>
      rw [additions.slot] at h
      split at h
      · exact ih o (List.mem_singleton_self o) x a h
      · cases h
    | _ => cases h
  | data v =>
    cases z with
    | data w =>
      obtain ⟨_, n, -, rfl⟩ := mem_additionsTo.1 h
      exact ⟨n, List.mem_singleton_self _⟩
    | _ => cases h
  | _ => cases h

theorem mem_data_of_additions (u : Object) :
    ∀ l : Object, ∀ a ∈ additions l u, ∃ n, .map n a.2 ∈ u.data := by
  induction u using inductionOn with
  | mk k ms es ih =>
    intro l a ha
    rw [data_mk]
    rcases mem_additions.1 ha with ⟨e, he, ha⟩ | ⟨e, he, -, ha⟩
    · obtain ⟨n, hn⟩ := mem_data_of_slot (ih e he) ha
      exact ⟨n, List.mem_append_left _ (List.mem_flatMap.2 ⟨e, he, hn⟩)⟩
    · obtain ⟨_, n, -, hv⟩ := mem_additionsTo.1 ha
      exact ⟨n, List.mem_append_right _ (List.mem_map.2 ⟨e, he, hv⟩)⟩

/-- Data that keeps its mappings with other marks has the additions under these. -/
structure Relabels (g : Mark → Mark) (f : Loaded → Loaded) : Prop where
  map : ∀ m es, ∃ fs, f (.map m es) = .map (m.map g) fs
  back : ∀ x m es, f x = .map m es → ∃ n fs, x = .map n fs

theorem Relabels.additionsTo {g : Mark → Mark} {f : Loaded → Loaded} (h : Relabels g f)
    (lower : Option Loaded) (upper : Loaded) : additionsTo (lower.map f) upper =
      (additionsTo lower upper).map fun a => (g a.1, a.2) := by
  cases lower with
  | none => rfl
  | some x =>
    by_cases hx : ∃ m es, x = .map m es
    · obtain ⟨m, es, rfl⟩ := hx
      obtain ⟨fs, hfs⟩ := h.map m es
      rw [Option.map_some, hfs]
      cases m <;> cases upper <;> rfl
    · have hnone : ∀ y, (∀ m es, y ≠ .map m es) → Object.additionsTo (some y) upper = [] := by
        intro y hy
        cases y with
        | map m es => exact absurd rfl (hy m es)
        | _ => rfl
      rw [Option.map_some, hnone x fun m es heq => hx ⟨m, es, heq⟩, hnone (f x)]
      · rfl
      · intro m es heq
        obtain ⟨n, fs, hx'⟩ := h.back x m es heq
        exact hx ⟨n, fs, hx'⟩

theorem Relabels.additions {g : Mark → Mark} {f : Loaded → Loaded} (h : Relabels g f) (u : Object) :
    ∀ l : Object, additions (l.mapData f) u = (additions l u).map fun a => (g a.1, a.2) := by
  induction u using inductionOn with
  | mk k ms es ih =>
    intro l
    rw [additions_mk, additions_mk, List.map_append, List.map_flatMap, List.map_flatMap,
      kind_mapData]
    refine congrArg₂ (· ++ ·) (List.flatMap_congr fun e he => ?_) (List.flatMap_congr fun e _ => ?_)
    · rw [get_mapData]
      generalize l.get e.1 = z
      have ih := ih e he
      cases hc : e.2 with
      | object o =>
        cases z with
        | object x =>
          show (if (x.mapData f).kind = o.kind then _ else _) =
            List.map _ (if x.kind = o.kind then _ else _)
          rw [kind_mapData, ih o (by rw [hc]; exact List.mem_singleton_self o)]
          split <;> rfl
        | _ => rfl
      | data v =>
        cases z with
        | data x => exact h.additionsTo (some x) v
        | _ => rfl
      | _ => rfl
    · rw [get?_extras_mapData]
      split
      · rfl
      · exact h.additionsTo _ _

theorem mark_of_additions_slot {c z : Slot} {a : Mark × Value.Entries Loaded}
    (h : a ∈ additions.slot z c) : a.1 ∈ slotMarks z :=
  mark_of_slot (fun o _ x a ha => mark_of_additions o x a ha) h

end Marks

/-! ## Mappings at one place -/

/-- None of the mappings with the marks lies at two places of the data. -/
def Alone (p : Mark → Bool) (marks : List Mark) : Prop :=
  (marks.filter p).Nodup

instance (p : Mark → Bool) (marks : List Mark) : Decidable (Alone p marks) :=
  inferInstanceAs (Decidable (List.Nodup _))

section Alone

variable {p : Mark → Bool} {l u : Object} {mark : Mark}

theorem Alone.of_get (h : Alone p l.marks) (m : Member) : Alone p (slotMarks (l.get m)) := by
  by_cases hnil : slotMarks (l.get m) = []
  · rw [hnil]
    exact List.nodup_nil
  obtain ⟨mark, hmark⟩ := List.exists_mem_of_ne_nil _ hnil
  obtain ⟨e, he, -, hget⟩ := mem_members_of_mem_slotMarks hmark
  rw [hget]
  obtain ⟨k, ms, es⟩ := l
  unfold Alone at h
  rw [marks_mk, List.filter_append, List.filter_flatMap] at h
  exact (List.nodup_flatMap.1 (List.nodup_append.1 h).1).1 e he

theorem Alone.of_extras (h : Alone p l.marks) {key : Text} {x : Loaded}
    (hx : l.extras.get? key = some x) : Alone p x.marks := by
  obtain ⟨k, ms, es⟩ := l
  unfold Alone at h
  rw [marks_mk, List.filter_append, List.filter_flatMap, List.filter_flatMap] at h
  exact (List.nodup_flatMap.1 (List.nodup_append.1 h).2.1).1 _ (Table.mem_of_get? hx)

/-- A mapping that lies at one place belongs to one member. -/
theorem Alone.eq_member (h : Alone p l.marks) (hp : p mark = true) {m m' : Member}
    (hm : mark ∈ slotMarks (l.get m)) (hm' : mark ∈ slotMarks (l.get m')) : m = m' := by
  obtain ⟨e, he, rfl, hget⟩ := mem_members_of_mem_slotMarks hm
  obtain ⟨e', he', rfl, hget'⟩ := mem_members_of_mem_slotMarks hm'
  obtain ⟨k, ms, es⟩ := l
  unfold Alone at h
  rw [marks_mk, List.filter_append] at h
  exact congrArg Prod.fst (eq_of_nodup_filter_flatMap (List.nodup_append.1 h).1 he he' hp
    (hget ▸ hm) (hget' ▸ hm'))

theorem Alone.eq_key (h : Alone p l.marks) (hp : p mark = true) {key key' : Text} {x x' : Loaded}
    (hx : l.extras.get? key = some x) (hx' : l.extras.get? key' = some x') (hmark : mark ∈ x.marks)
    (hmark' : mark ∈ x'.marks) : key = key' := by
  obtain ⟨k, ms, es⟩ := l
  unfold Alone at h
  rw [marks_mk, List.filter_append] at h
  exact congrArg Prod.fst (eq_of_nodup_filter_flatMap (List.nodup_append.1 h).2.1
    (Table.mem_of_get? hx) (Table.mem_of_get? hx') hp hmark hmark')

/-- A mapping that lies at one place belongs to a member or to an unknown key. -/
theorem Alone.not_both (h : Alone p l.marks) (hp : p mark = true) {m : Member} {key : Text}
    {x : Loaded} (hx : l.extras.get? key = some x) (hm : mark ∈ slotMarks (l.get m))
    (hmark : mark ∈ x.marks) : False := by
  obtain ⟨e, he, -, hget⟩ := mem_members_of_mem_slotMarks hm
  obtain ⟨k, ms, es⟩ := l
  unfold Alone at h
  rw [marks_mk, List.filter_append] at h
  exact (List.nodup_append.1 h).2.2 mark
    (List.mem_filter.2 ⟨List.mem_flatMap.2 ⟨e, he, hget ▸ hm⟩, hp⟩) mark
    (List.mem_filter.2 ⟨List.mem_flatMap.2 ⟨_, Table.mem_of_get? hx, hmark⟩, hp⟩) rfl

/-- Mappings that lie at one place get something at most once. -/
theorem Alone.nodup_slot {c z : Slot} (h : Alone p (slotMarks z))
    (ih : ∀ o ∈ c.held, ∀ x ∈ z.held, Alone p x.marks → (∀ a ∈ additions x o, p a.1 = true) →
      ((additions x o).map (·.1)).Nodup)
    (hp : ∀ a ∈ additions.slot z c, p a.1 = true) : ((additions.slot z c).map (·.1)).Nodup := by
  cases c with
  | object o =>
    cases z with
    | object x =>
      rw [additions.slot] at hp ⊢
      split at hp
      · next hkind =>
        rw [if_pos hkind]
        exact ih o (List.mem_singleton_self o) x (List.mem_singleton_self x) h hp
      · next hkind =>
        rw [if_neg hkind]
        exact List.nodup_nil
    | _ => exact List.nodup_nil
  | data v =>
    cases z with
    | data x =>
      show ((additionsTo (some x) v).map (·.1)).Nodup
      unfold additionsTo
      split
      · exact List.nodup_singleton _
      · exact List.nodup_nil
    | _ => exact List.nodup_nil
  | _ => exact List.nodup_nil

theorem Alone.nodup_additions {u : Object} (hu : Sound u) : ∀ {l : Object}, Alone p l.marks →
    (∀ a ∈ additions l u, p a.1 = true) → ((additions l u).map (·.1)).Nodup := by
  induction hu with
  | @mk k ms es hms _ _ hkeys _ ih =>
    intro l h hp
    have hmember : ∀ e ∈ ms, ∀ a ∈ additions.slot (l.get e.1) e.2, a ∈ additions l (.mk k ms es) :=
      fun e he a ha => mem_additions.2 (Or.inl ⟨e, he, ha⟩)
    have hextra : ∀ e ∈ es, ∀ a ∈ (if isLost l.kind e.1 then [] else
        additionsTo (l.extras.get? e.1) e.2), a ∈ additions l (.mk k ms es) ∧
          ∃ x, l.extras.get? e.1 = some x ∧ a.1 ∈ x.marks := by
      intro e he a ha
      split at ha
      · cases ha
      · next hlost =>
        exact ⟨mem_additions.2 (Or.inr ⟨e, he, Bool.not_eq_true _ ▸ hlost, ha⟩),
          mark_of_additionsTo ha⟩
    rw [additions_mk, List.map_append, List.map_flatMap, List.map_flatMap]
    refine List.nodup_append.2 ⟨List.nodup_flatMap.2 ⟨fun e he => ?_, ?_⟩,
      List.nodup_flatMap.2 ⟨fun e he => ?_, ?_⟩, ?_⟩
    · exact (h.of_get e.1).nodup_slot (fun o ho x _ => ih e he o ho)
        fun a ha => hp a (hmember e he a ha)
    · -- Two members share no mapping that something is put into.
      refine (List.pairwise_map.1 hms).imp_of_mem fun {e f} he hf hef mark hme hmf => hef ?_
      obtain ⟨a, ha, rfl⟩ := List.mem_map.1 hme
      obtain ⟨b, hb, hab⟩ := List.mem_map.1 hmf
      exact h.eq_member (hp a (hmember e he a ha)) (mark_of_additions_slot ha)
        (hab ▸ mark_of_additions_slot hb)
    · split
      · exact List.nodup_nil
      · unfold additionsTo
        split
        · exact List.nodup_singleton _
        · exact List.nodup_nil
    · refine (List.pairwise_map.1 hkeys).imp_of_mem fun {e f} he hf hef mark hme hmf => hef ?_
      obtain ⟨a, ha, rfl⟩ := List.mem_map.1 hme
      obtain ⟨b, hb, hab⟩ := List.mem_map.1 hmf
      obtain ⟨hin, x, hx, hmark⟩ := hextra e he a ha
      obtain ⟨-, y, hy, hmark'⟩ := hextra f hf b hb
      exact h.eq_key (hp a hin) hx hy hmark (hab ▸ hmark')
    · rintro _ hm _ hm' rfl
      obtain ⟨e, he, hm⟩ := List.mem_flatMap.1 hm
      obtain ⟨a, ha, rfl⟩ := List.mem_map.1 hm
      obtain ⟨f, hf, hm'⟩ := List.mem_flatMap.1 hm'
      obtain ⟨b, hb, hab⟩ := List.mem_map.1 hm'
      obtain ⟨-, y, hy, hmark⟩ := hextra f hf b hb
      exact h.not_both (hp a (hmember e he a ha)) hy (mark_of_additions_slot ha) (hab ▸ hmark)

end Alone

/-! ## Additions that meet their places -/

/-- The mark is that of a mapping that something is put into. -/
def touches (as : Loaded.Additions) (m : Mark) : Bool :=
  as.any fun a => a.1 = m

theorem touches_of_mem {as : Loaded.Additions} {a : Mark × Value.Entries Loaded} (h : a ∈ as) :
    touches as a.1 = true :=
  List.any_eq_true.2 ⟨a, h, decide_eq_true rfl⟩

/-- Of the mappings with the marks, those of the additions each lie at one place, and what is put
    into them is what belongs there. -/
structure Meets (as : Loaded.Additions) (marks : List Mark) (own : Loaded.Additions) : Prop where
  alone : Alone (touches as) marks
  own_mem : ∀ a ∈ own, a ∈ as
  mem_own : ∀ a ∈ as, a.1 ∈ marks → a ∈ own

section Meets

variable {as : Loaded.Additions} {l u : Object}

/-- The additions to a member are those that it has been given. -/
theorem Meets.of_member (h : Meets as l.marks (additions l u)) (hu : Sound u) {m : Member}
    {c : Slot} (hc : u.given? m = some c) :
    Meets as (slotMarks (l.get m)) (additions.slot (l.get m) c) where
  alone := h.alone.of_get m
  own_mem a ha := by
    obtain ⟨e, he, rfl⟩ := Option.map_eq_some_iff.1 hc
    have hkey : e.1 = m := by simpa using List.find?_some he
    exact h.own_mem a (mem_additions.2
      (Or.inl ⟨e, List.mem_of_find?_eq_some he, hkey ▸ ha⟩))
  mem_own a ha hmark := by
    have htouches := touches_of_mem ha
    rcases mem_additions.1 (h.mem_own a ha (mem_marks_of_get hmark)) with
      ⟨e, he, hslot⟩ | ⟨e, -, -, hextra⟩
    · -- The mapping lies at this member only, which the upper object gives once.
      have hm : e.1 = m := h.alone.eq_member htouches (mark_of_additions_slot hslot) hmark
      have hgiven : u.given? e.1 = some e.2 := given?_of_mem hu.nodup_members he
      rw [hm, hc] at hgiven
      cases hgiven
      exact hm ▸ hslot
    · obtain ⟨x, hx, hmark'⟩ := mark_of_additionsTo hextra
      exact (h.alone.not_both htouches hx hmark hmark').elim

/-- A member that is not given has no mapping that something is put into. -/
theorem Meets.not_mem_member (h : Meets as l.marks (additions l u)) (hu : Sound u) {m : Member}
    (hm : u.given? m = none) : ∀ a ∈ as, a.1 ∉ slotMarks (l.get m) := by
  intro a ha hmark
  have htouches := touches_of_mem ha
  rcases mem_additions.1 (h.mem_own a ha (mem_marks_of_get hmark)) with
    ⟨e, he, hslot⟩ | ⟨e, -, -, hextra⟩
  · have hkey : e.1 = m := h.alone.eq_member htouches (mark_of_additions_slot hslot) hmark
    have hgiven : u.given? e.1 = some e.2 := given?_of_mem hu.nodup_members he
    rw [hkey, hm] at hgiven
    cases hgiven
  · obtain ⟨x, hx, hmark'⟩ := mark_of_additionsTo hextra
    exact h.alone.not_both htouches hx hmark hmark'

/-- The additions to the data of an unknown key are what is laid over it. -/
theorem Meets.of_extra (h : Meets as l.marks (additions l u)) (hu : Sound u) {key : Text}
    {x v : Loaded} (hx : l.extras.get? key = some x) (hv : u.extras.get? key = some v)
    (hlost : isLost l.kind key = false) : Meets as x.marks (additionsTo (some x) v) where
  alone := h.alone.of_extras hx
  own_mem a ha := h.own_mem a (mem_additions.2
    (Or.inr ⟨_, Table.mem_of_get? hv, hlost, by rw [hx]; exact ha⟩))
  mem_own a ha hmark := by
    have htouches := touches_of_mem ha
    rcases mem_additions.1 (h.mem_own a ha (mem_marks_of_extras hx hmark)) with
      ⟨e, -, hslot⟩ | ⟨e, he, -, hextra⟩
    · exact (h.alone.not_both htouches hx (mark_of_additions_slot hslot) hmark).elim
    · obtain ⟨y, hy, hmark'⟩ := mark_of_additionsTo hextra
      have hkey : e.1 = key := h.alone.eq_key htouches hy hx hmark' hmark
      have hgiven : u.extras.get? e.1 = some e.2 := Table.get?_of_mem hu.nodup_extras he
      rw [hkey, hv] at hgiven
      cases hgiven
      rwa [hkey, hx] at hextra

/-- The data of an unknown key that is not given, or not set, has no mapping that something is put
    into. -/
theorem Meets.not_mem_extra (h : Meets as l.marks (additions l u)) (hu : Sound u) {key : Text}
    {x : Loaded} (hx : l.extras.get? key = some x)
    (hkey : u.extras.get? key = none ∨ isLost l.kind key = true) : ∀ a ∈ as, a.1 ∉ x.marks := by
  intro a ha hmark
  have htouches := touches_of_mem ha
  rcases mem_additions.1 (h.mem_own a ha (mem_marks_of_extras hx hmark)) with
    ⟨e, -, hslot⟩ | ⟨e, he, hlost, hextra⟩
  · exact h.alone.not_both htouches hx (mark_of_additions_slot hslot) hmark
  · obtain ⟨y, hy, hmark'⟩ := mark_of_additionsTo hextra
    have heq : e.1 = key := h.alone.eq_key htouches hy hx hmark' hmark
    have hgiven : u.extras.get? e.1 = some e.2 := Table.get?_of_mem hu.nodup_extras he
    rcases hkey with hnone | hlost'
    · rw [heq, hnone] at hgiven
      cases hgiven
    · rw [heq, hlost'] at hlost
      cases hlost

end Meets

end IdlBridge.OpenApi.Object
