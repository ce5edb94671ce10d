import IdlBridge.Text.Table
import Mathlib.Data.List.Nodup

/-! # Lookup in tables

    What the operations on tables do to the two views that everything else uses: which keys are
    there (`has`), and what a key has (`get?`).
-/

namespace IdlBridge.Table

variable {α : Type}

@[simp] theorem has_nil (k : Text) : has ([] : Table α) k = false := rfl

theorem has_iff_exists_mem {t : Table α} {k : Text} : t.has k = true ↔ ∃ v, (k, v) ∈ t := by
  simp only [has, List.any_eq_true, decide_eq_true_eq]
  constructor
  · rintro ⟨⟨k', v⟩, he, rfl⟩
    exact ⟨v, he⟩
  · rintro ⟨v, he⟩
    exact ⟨(k, v), he, rfl⟩

theorem has_of_mem {t : Table α} {e : Text × α} (h : e ∈ t) : t.has e.1 = true :=
  has_iff_exists_mem.2 ⟨e.2, h⟩

@[simp] theorem has_append (t u : Table α) (k : Text) :
    has (t ++ u : Table α) k = (t.has k || u.has k) := by
  simp [has]

@[simp] theorem has_cons (e : Text × α) (t : Table α) (k : Text) :
    has (e :: t : Table α) k = (decide (e.1 = k) || t.has k) := by
  simp [has]

theorem get?_eq_none_of_has {t : Table α} {k : Text} (h : t.has k = false) : t.get? k = none := by
  simp only [get?, Option.map_eq_none_iff, List.find?_eq_none]
  intro e he hk
  rw [decide_eq_true_eq] at hk
  have := has_of_mem he
  rw [hk, h] at this
  cases this

theorem mem_of_get? {t : Table α} {k : Text} {v : α} (h : t.get? k = some v) : (k, v) ∈ t := by
  obtain ⟨e, he, rfl⟩ := Option.map_eq_some_iff.1 h
  have hk := List.find?_some he
  rw [decide_eq_true_eq] at hk
  exact hk ▸ List.mem_of_find?_eq_some he

theorem isSome_get?_of_has {t : Table α} {k : Text} (h : t.has k = true) :
    ∃ v, t.get? k = some v := by
  obtain ⟨v, hv⟩ := has_iff_exists_mem.1 h
  have hsome : (t.find? fun e => e.1 = k).isSome := by
    rw [List.find?_isSome]
    exact ⟨(k, v), hv, by simp⟩
  obtain ⟨e, he⟩ := Option.isSome_iff_exists.1 hsome
  exact ⟨e.2, by rw [get?, he]; rfl⟩

theorem get?_append_of_get? {t : Table α} {k : Text} {v : α} (h : t.get? k = some v)
    (u : Table α) : get? (t ++ u : Table α) k = some v := by
  obtain ⟨e, he, rfl⟩ := Option.map_eq_some_iff.1 h
  rw [get?, List.find?_append, he]
  rfl

theorem get?_append (t u : Table α) (k : Text) :
    get? (t ++ u : Table α) k = (t.get? k).or (u.get? k) := by
  unfold get?
  rw [List.find?_append]
  cases t.find? fun e => e.1 = k <;> rfl

theorem get?_singleton (k : Text) (v : α) (n : Text) :
    get? ([(k, v)] : Table α) n = if k = n then some v else none := by
  by_cases hn : k = n <;> simp [get?, hn]

theorem get?_mapValues {β : Type} (f : α → β) (t : Table α) (k : Text) :
    get? (t.map fun e => (e.1, f e.2)) k = (t.get? k).map f := by
  unfold get?
  rw [List.find?_map, Option.map_map, Option.map_map]
  rfl

/-- A key is there exactly if something belongs to what it has. -/
theorem has_iff_isSome {β : Type} {R : β → α → Prop} {o : Option β} {t : Table α} {k : Text}
    (h : Option.Rel R o (t.get? k)) : t.has k = true ↔ o.isSome := by
  cases hk : t.has k with
  | false =>
    rw [get?_eq_none_of_has hk] at h
    cases h
    simp
  | true =>
    obtain ⟨v, hv⟩ := isSome_get?_of_has hk
    rw [hv] at h
    cases h
    simp

/-! ## Adding entries -/

theorem mem_insert {t : Table α} {k : Text} {v : α} {e : Text × α} (h : e ∈ t.insert k v) :
    e = (k, v) ∨ e ∈ t := by
  induction t with
  | nil => simpa [insert] using h
  | cons x rest ih =>
    obtain ⟨k', v'⟩ := x
    rw [insert] at h
    split at h
    · next hk =>
      subst hk
      rcases List.mem_cons.1 h with h | h
      · exact Or.inl h
      · exact Or.inr (List.mem_cons_of_mem _ h)
    · rcases List.mem_cons.1 h with h | h
      · exact Or.inr (h ▸ List.mem_cons_self)
      · rcases ih h with h | h
        · exact Or.inl h
        · exact Or.inr (List.mem_cons_of_mem _ h)

@[simp] theorem has_insert (t : Table α) (k : Text) (v : α) (n : Text) :
    (t.insert k v).has n = (decide (k = n) || t.has n) := by
  induction t with
  | nil => simp [insert]
  | cons x rest ih =>
    obtain ⟨k', v'⟩ := x
    rw [insert]
    split
    · next hk => subst hk; simp
    · rw [has_cons, ih, has_cons]
      simp only [Bool.or_left_comm]

theorem get?_insert (t : Table α) (k : Text) (v : α) (n : Text) :
    (t.insert k v).get? n = if k = n then some v else t.get? n := by
  induction t with
  | nil => by_cases hn : k = n <;> simp [insert, get?, hn]
  | cons x rest ih =>
    obtain ⟨k', v'⟩ := x
    unfold get? at ih ⊢
    rw [insert]
    by_cases hk : k' = k
    · subst hk
      by_cases hn : k' = n <;> simp [hn]
    · rw [if_neg hk]
      by_cases hn : k' = n
      · subst hn
        simp [Ne.symm hk]
      · simpa [List.find?_cons, hn] using ih

/-- Giving a key a value adds at most the key. -/
theorem keys_insert (t : Table α) (k : Text) (v : α) :
    (t.insert k v).keys = if t.has k = true then t.keys else t.keys ++ [k] := by
  induction t with
  | nil => rfl
  | cons x rest ih =>
    obtain ⟨k', v'⟩ := x
    rw [insert]
    by_cases hk : k' = k
    · subst hk
      simp [keys]
    · unfold keys at ih ⊢
      rw [if_neg hk, List.map_cons, ih, has_cons, decide_eq_false hk, Bool.false_or]
      split <;> simp

theorem mem_keys {t : Table α} {k : Text} : k ∈ t.keys ↔ t.has k = true := by
  rw [keys, List.mem_map, has_iff_exists_mem]
  constructor
  · rintro ⟨e, he, rfl⟩
    exact ⟨e.2, he⟩
  · rintro ⟨v, hv⟩
    exact ⟨(k, v), hv, rfl⟩

theorem nodup_keys_insert {t : Table α} (h : t.keys.Nodup) (k : Text) (v : α) :
    (t.insert k v).keys.Nodup := by
  rw [keys_insert]
  split
  · exact h
  · next hk =>
    refine List.nodup_append.2 ⟨h, List.nodup_singleton k, fun a ha b hb hab => hk ?_⟩
    rw [← List.mem_singleton.1 hb, ← hab]
    exact mem_keys.1 ha

/-- Where no key is given twice, every entry is found by its key. -/
theorem get?_of_mem {t : Table α} (h : t.keys.Nodup) {e : Text × α} (he : e ∈ t) :
    t.get? e.1 = some e.2 := by
  obtain ⟨v, hv⟩ := isSome_get?_of_has (has_of_mem he)
  have hin := mem_of_get? hv
  have heq : (e.1, v) = e := List.inj_on_of_nodup_map h hin he rfl
  rw [hv, ← heq]

theorem insert_eq_append {t : Table α} {k : Text} (h : t.has k = false) (v : α) :
    t.insert k v = t ++ [(k, v)] := by
  induction t with
  | nil => rfl
  | cons x rest ih =>
    obtain ⟨k', v'⟩ := x
    rw [has_cons, Bool.or_eq_false_iff, decide_eq_false_iff_not] at h
    rw [insert, if_neg h.1, ih h.2, List.cons_append]

/-- Entries with keys of their own are added at the end. -/
theorem insertAll_eq_append {t : Table α} {new : List (Text × α)}
    (h : (t ++ new).Pairwise fun e f => e.1 ≠ f.1) : t.insertAll new = t ++ new := by
  induction new generalizing t with
  | nil => rw [List.append_nil]; rfl
  | cons x rest ih =>
    have hx : t.has x.1 = false := by
      rw [Bool.eq_false_iff, ne_eq, has_iff_exists_mem]
      rintro ⟨v, hv⟩
      exact (List.pairwise_append.1 h).2.2 _ hv x List.mem_cons_self rfl
    rw [List.append_cons] at h
    show insertAll (t.insert x.1 x.2) rest = _
    rw [insert_eq_append hx, ih h, List.append_assoc]
    rfl

/-! ## Laying tables over each other -/

theorem get?_cons (e : Text × α) (t : Table α) (k : Text) :
    get? (e :: t : Table α) k = if e.1 = k then some e.2 else t.get? k := by
  unfold get?
  by_cases he : e.1 = k
  · rw [List.find?_cons_of_pos (by simpa using he), if_pos he]
    rfl
  · rw [List.find?_cons_of_neg (by simpa using he), if_neg he]

/-- A key has what the upper table gives it, else what the lower one does. -/
theorem get?_insertAll {u : Table α} (h : u.keys.Nodup) (t : Table α) (k : Text) :
    (t.insertAll u).get? k = (u.get? k).or (t.get? k) := by
  induction u generalizing t with
  | nil => rfl
  | cons e u ih =>
    obtain ⟨he, hu⟩ := List.nodup_cons.1 h
    show get? (insertAll (t.insert e.1 e.2) u) k = _
    rw [ih hu, get?_insert, get?_cons]
    split
    · next hk =>
      -- no other entry of the upper table has the key
      have hrest : get? u k = none :=
        get?_eq_none_of_has (Bool.eq_false_iff.2 fun hhas =>
          he (hk.symm ▸ mem_keys.2 hhas : e.1 ∈ keys u))
      rw [hrest]
      rfl
    · rfl

theorem insert_mapValues {β : Type} (f : α → β) (t : Table α) (k : Text) (v : α) :
    insert (t.map fun e => (e.1, f e.2)) k (f v) = (t.insert k v).map fun e => (e.1, f e.2) := by
  induction t with
  | nil => rfl
  | cons x rest ih =>
    obtain ⟨k', v'⟩ := x
    rw [List.map_cons, insert, insert]
    split
    · rfl
    · rw [ih]
      rfl

theorem insertAll_mapValues {β : Type} (f : α → β) (t u : Table α) :
    insertAll (t.map fun e => (e.1, f e.2)) (u.map fun e => (e.1, f e.2)) =
      (t.insertAll u).map fun e => (e.1, f e.2) := by
  induction u generalizing t with
  | nil => rfl
  | cons x rest ih =>
    show insertAll (insert (t.map fun e => (e.1, f e.2)) x.1 (f x.2)) (rest.map _) = _
    rw [insert_mapValues, ih]
    rfl

/-- Giving a key what it has changes nothing. -/
theorem insert_of_get? {t : Table α} {k : Text} {v : α} (h : t.get? k = some v) :
    t.insert k v = t := by
  induction t with
  | nil => cases h
  | cons x rest ih =>
    obtain ⟨k', v'⟩ := x
    rw [get?_cons] at h
    rw [insert]
    split
    · next hk =>
      rw [if_pos hk] at h
      cases h
      rw [hk]
    · next hk =>
      rw [if_neg hk] at h
      rw [ih h]

theorem insertAll_of_get? {t u : Table α} (h : ∀ e ∈ u, t.get? e.1 = some e.2) :
    t.insertAll u = t := by
  induction u with
  | nil => rfl
  | cons e u ih =>
    obtain ⟨he, hu⟩ := List.forall_mem_cons.1 h
    show insertAll (t.insert e.1 e.2) u = t
    rw [insert_of_get? he, ih hu]

/-- A table that is laid over another one a second time changes nothing. -/
theorem insertAll_insertAll {u : Table α} (h : u.keys.Nodup) (t : Table α) :
    (t.insertAll u).insertAll u = t.insertAll u :=
  insertAll_of_get? fun _ he => by rw [get?_insertAll h, get?_of_mem h he]; rfl

theorem insertAll_self {t : Table α} (h : t.keys.Nodup) : t.insertAll t = t :=
  insertAll_of_get? fun _ he => get?_of_mem h he

theorem nodup_keys_insertAll {t : Table α} (h : t.keys.Nodup) (u : Table α) :
    (t.insertAll u).keys.Nodup := by
  induction u generalizing t with
  | nil => exact h
  | cons e u ih => exact ih (nodup_keys_insert h e.1 e.2)

theorem mem_insertAll {t u : Table α} {e : Text × α} (h : e ∈ t.insertAll u) : e ∈ u ∨ e ∈ t := by
  induction u generalizing t with
  | nil => exact Or.inr h
  | cons x u ih =>
    rcases ih h with h | h
    · exact Or.inl (List.mem_cons_of_mem _ h)
    · rcases mem_insert h with rfl | h
      · exact Or.inl List.mem_cons_self
      · exact Or.inr h

theorem insertAll_eq_nil {t u : Table α} : t.insertAll u = [] ↔ t = [] ∧ u = [] := by
  constructor
  · intro h
    -- A key that is there stays there, so nothing can have been inserted.
    have hhas : ∀ (u t : Table α) (k : Text), t.has k = true → (t.insertAll u).has k = true := by
      intro u
      induction u with
      | nil => exact fun _ _ hk => hk
      | cons x u ih => exact fun t k hk => ih (t.insert x.1 x.2) k (by simp [hk])
    constructor
    · rw [List.eq_nil_iff_forall_not_mem]
      intro e he
      have hk := hhas u t e.1 (has_of_mem he)
      rw [h] at hk
      cases hk
    · cases u with
      | nil => rfl
      | cons x u =>
        have hk := hhas u (t.insert x.1 x.2) x.1 (by simp)
        have hnil : (t.insert x.1 x.2).insertAll u = [] := h
        rw [hnil] at hk
        cases hk
  · rintro ⟨rfl, rfl⟩
    rfl

/-! ## Adding entries with new keys -/

@[simp] theorem has_insertNew (t : Table α) (k : Text) (v : α) (n : Text) :
    (t.insertNew k v).has n = (t.has n || decide (k = n)) := by
  unfold insertNew
  split
  · next hk =>
    by_cases hn : k = n
    · subst hn; simp [hk]
    · simp [hn]
  · simp

theorem mem_insertNew {t : Table α} {k : Text} {v : α} {e : Text × α}
    (h : e ∈ t.insertNew k v) : e = (k, v) ∨ e ∈ t := by
  unfold insertNew at h
  split at h
  · exact Or.inr h
  · rcases List.mem_append.1 h with h | h
    · exact Or.inr h
    · exact Or.inl (List.mem_singleton.1 h)

/-- Gives keys their values unless they have one, and so every key has a value afterwards. -/
theorem has_foldl_insertNew {β : Type} (key : β → Text) (value : β → α) (xs : List β)
    (t : Table α) (n : Text) :
    (xs.foldl (fun t x => t.insertNew (key x) (value x)) t).has n =
      (t.has n || xs.any fun x => key x = n) := by
  induction xs generalizing t with
  | nil => simp
  | cons x rest ih => rw [List.foldl_cons, ih, has_insertNew, List.any_cons, Bool.or_assoc]

theorem mem_foldl_insertNew {β : Type} (key : β → Text) (value : β → α) {xs : List β}
    {t : Table α} {e : Text × α}
    (h : e ∈ xs.foldl (fun t x => t.insertNew (key x) (value x)) t) :
    e ∈ t ∨ ∃ x ∈ xs, e = (key x, value x) := by
  induction xs generalizing t with
  | nil => exact Or.inl h
  | cons x rest ih =>
    rcases ih h with h | ⟨y, hy, he⟩
    · rcases mem_insertNew h with h | h
      · exact Or.inr ⟨x, List.mem_cons_self, h⟩
      · exact Or.inl h
    · exact Or.inr ⟨y, List.mem_cons_of_mem _ hy, he⟩

/-- Keys get their values in order: what had a value before keeps it, and of two values for a key
    the first counts. -/
theorem get?_foldl_insertNew {β : Type} (key : β → Text) (value : β → α) (xs : List β)
    (t : Table α) (n : Text) :
    (xs.foldl (fun t x => t.insertNew (key x) (value x)) t).get? n =
      (t.get? n).or ((xs.find? fun x => key x = n).map value) := by
  induction xs generalizing t with
  | nil => simp
  | cons x rest ih =>
    rw [List.foldl_cons, ih, insertNew]
    split
    · next hx =>
      -- The key has a value already, which this one does not replace.
      by_cases hn : key x = n
      · obtain ⟨v, hv⟩ := isSome_get?_of_has (hn ▸ hx)
        rw [hv]
        rfl
      · rw [List.find?_cons_of_neg (by simpa using hn)]
    · rw [get?_append, get?_singleton]
      by_cases hn : key x = n
      · rw [if_pos hn, List.find?_cons_of_pos (by simpa using hn), Option.map_some, Option.or_assoc]
        rfl
      · rw [if_neg hn, Option.or_none, List.find?_cons_of_neg (by simpa using hn)]

/-- After a registration: a key that had a value keeps it, and any other has what belongs to the
    thing that was found for it. -/
def Extended {β : Type} (R : Text → β → α → Prop) (found : Text → Option β) (t u : Table α) :
    Prop :=
  ∀ n, (∀ v, t.get? n = some v → u.get? n = some v) ∧
    (t.get? n = none → Option.Rel (R n) (found n) (u.get? n))

namespace Extended

variable {β : Type} {R : Text → β → α → Prop} {f g : Text → Option β} {t u w : Table α}

theorem refl (t : Table α) : Extended R (fun _ => none) t t :=
  fun _ => ⟨fun _ h => h, fun h => h ▸ .none⟩

theorem trans (h : Extended R f t u) (h' : Extended R g u w) :
    Extended R (fun n => (f n).or (g n)) t w := by
  intro n
  refine ⟨fun v hv => (h' n).1 v ((h n).1 v hv), fun hn => ?_⟩
  have hrel := (h n).2 hn
  dsimp only
  cases hf : f n with
  | none =>
    rw [hf] at hrel
    cases hu : u.get? n with
    | none => exact (h' n).2 hu
    | some v =>
      rw [hu] at hrel
      cases hrel
  | some x =>
    rw [hf] at hrel
    cases hu : u.get? n with
    | none =>
      rw [hu] at hrel
      cases hrel
    | some v =>
      rw [hu] at hrel
      rw [(h' n).1 v hu]
      exact hrel

/-- What comes under a key that is taken does not count. -/
theorem taken {k : Text} (hk : t.has k = true) (x : β) :
    Extended R (fun n => if k = n then some x else none) t t := by
  intro n
  refine ⟨fun _ h => h, fun hn => ?_⟩
  have hne : k ≠ n := by
    rintro rfl
    obtain ⟨v, hv⟩ := isSome_get?_of_has hk
    rw [hn] at hv
    cases hv
  dsimp only
  rw [if_neg hne, hn]
  exact .none

/-- A new key has the value that was made for it. -/
theorem added {k : Text} {x : β} {v : α} (hx : R k x v) :
    Extended R (fun n => if k = n then some x else none) t (t ++ [(k, v)]) := by
  intro n
  refine ⟨fun _ h => get?_append_of_get? h _, fun hn => ?_⟩
  dsimp only
  rw [get?_append, hn, Option.none_or, get?_singleton]
  split
  · next hk => exact .some (hk ▸ hx)
  · exact .none

end Extended

/-! ## Sorting -/

theorem mem_sort {t : Table α} {e : Text × α} : e ∈ t.sort ↔ e ∈ t :=
  (List.mergeSort_perm t _).mem_iff

@[simp] theorem has_sort (t : Table α) (n : Text) : t.sort.has n = t.has n := by
  rw [Bool.eq_iff_iff, has_iff_exists_mem, has_iff_exists_mem]
  simp only [mem_sort]

end IdlBridge.Table
