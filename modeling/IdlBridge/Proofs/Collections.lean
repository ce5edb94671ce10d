import Mathlib.Data.List.Forall2
import Mathlib.Data.List.Nodup
import Mathlib.Data.List.Pairwise

/-! # Lists and options

    Facts about lists whose items belong together, about lists of entries, of results and of lists,
    and about options, which say nothing about any of the data that is read or written.
-/

namespace IdlBridge

variable {α β γ : Type}

/-! ## Lists side by side -/

theorem exists_of_forall₂_right {R : α → β → Prop} {xs : List α} {ys : List β}
    (h : List.Forall₂ R xs ys) {y : β} (hy : y ∈ ys) : ∃ x ∈ xs, R x y := by
  induction h with
  | nil => cases hy
  | @cons x y' xs ys hxy _ ih =>
    rcases List.mem_cons.1 hy with rfl | hy
    · exact ⟨x, List.mem_cons_self, hxy⟩
    · obtain ⟨z, hz, hzy⟩ := ih hy
      exact ⟨z, List.mem_cons_of_mem _ hz, hzy⟩

theorem exists_of_forall₂_left {R : α → β → Prop} {xs : List α} {ys : List β}
    (h : List.Forall₂ R xs ys) {x : α} (hx : x ∈ xs) : ∃ y, R x y := by
  obtain ⟨y, -, hy⟩ := exists_of_forall₂_right h.flip hx
  exact ⟨y, hy⟩

theorem exists_of_forall₂_append_cons {R : α → β → Prop} {before behind : List α}
    {x : α} {ys : List β} (h : List.Forall₂ R (before ++ x :: behind) ys) :
    ∃ zs y ws, ys = zs ++ y :: ws ∧ List.Forall₂ R before zs ∧ R x y := by
  induction before generalizing ys with
  | nil =>
    cases h with
    | cons hxy _ => exact ⟨[], _, _, rfl, .nil, hxy⟩
  | cons a before ih =>
    cases h with
    | cons hab hrest =>
      obtain ⟨zs, y, ws, rfl, hzs, hxy⟩ := ih hrest
      exact ⟨_ :: zs, y, ws, rfl, .cons hab hzs, hxy⟩

/-- What belongs to each item on its own is one list. -/
theorem eq_of_forall₂ {R S : α → β → Prop} (h : ∀ x y z, R x y → S x z → y = z) {xs : List α}
    {ys zs : List β} (hR : List.Forall₂ R xs ys) (hS : List.Forall₂ S xs zs) : ys = zs := by
  induction hR generalizing zs with
  | nil =>
    cases hS
    rfl
  | cons hxy _ ih =>
    cases hS with
    | cons hxz hrest => rw [h _ _ _ hxy hxz, ih hrest]

/-! ## Lists made of parts -/

theorem length_flatMap_congr {f : α → List β} {g : α → List γ} {xs : List α}
    (h : ∀ x ∈ xs, (f x).length = (g x).length) :
    (xs.flatMap f).length = (xs.flatMap g).length := by
  induction xs with
  | nil => rfl
  | cons x rest ih =>
    obtain ⟨hx, hrest⟩ := List.forall_mem_cons.1 h
    rw [List.flatMap_cons, List.flatMap_cons, List.length_append, List.length_append, hx, ih hrest]

/-- What is found in two parts of a list without repetition is found in one part. -/
theorem eq_of_nodup_filter_flatMap {f : α → List β} {p : β → Bool} {xs : List α}
    (h : ((xs.flatMap f).filter p).Nodup) {x y : α} (hx : x ∈ xs) (hy : y ∈ xs) {b : β}
    (hb : p b = true) (hbx : b ∈ f x) (hby : b ∈ f y) : x = y := by
  rw [List.filter_flatMap, List.nodup_flatMap] at h
  by_contra hne
  have : Std.Symm (Function.onFun List.Disjoint fun x => (f x).filter p) :=
    ⟨fun _ _ hab _ hy hx => hab hx hy⟩
  exact h.2.forall hx hy hne (List.mem_filter.2 ⟨hbx, hb⟩) (List.mem_filter.2 ⟨hby, hb⟩)

/-! ## Entries -/

/-- Entries with the same keys, none of them twice, are the same if each key finds the same. -/
theorem eq_of_find?_eq [DecidableEq α] {xs ys : List (α × β)}
    (hkeys : xs.map Prod.fst = ys.map Prod.fst) (hnodup : (xs.map Prod.fst).Nodup)
    (h : ∀ k, (xs.find? (·.1 = k)).map (·.2) = (ys.find? (·.1 = k)).map (·.2)) : xs = ys := by
  induction xs generalizing ys with
  | nil => exact (List.map_eq_nil_iff.1 hkeys.symm).symm
  | cons x xs ih =>
    cases ys with
    | nil => cases hkeys
    | cons y ys =>
      obtain ⟨hxy, hrest⟩ := List.cons.inj hkeys
      obtain ⟨hx, hnodup⟩ := List.nodup_cons.1 hnodup
      have hvalue : x.2 = y.2 := by simpa [hxy] using h x.1
      -- The key of the head finds nothing behind it on either side.
      have htail : xs = ys := ih hrest hnodup fun k => by
        by_cases hk : x.1 = k
        · have hnone : ∀ zs : List (α × β), x.1 ∉ zs.map Prod.fst →
              zs.find? (·.1 = k) = none := fun zs hzs =>
            List.find?_eq_none.2 fun e he hek =>
              hzs (List.mem_map.2 ⟨e, he, (of_decide_eq_true hek).trans hk.symm⟩)
          rw [hnone xs hx, hnone ys (hrest ▸ hx)]
        · simpa [hk, hxy ▸ hk] using h k
      rw [htail, Prod.ext hxy hvalue]

/-! ## Joined lists -/

theorem length_le_intercalate {sep xs : List α} {ls : List (List α)} (h : xs ∈ ls) :
    xs.length ≤ (List.intercalate sep ls).length := by
  induction ls with
  | nil => cases h
  | cons ys ls ih =>
    cases ls with
    | nil => exact Nat.le_of_eq (by rw [List.intercalate_singleton, List.mem_singleton.1 h])
    | cons zs ls =>
      rw [List.intercalate_cons_cons, List.length_append, List.length_append]
      rcases List.mem_cons.1 h with rfl | h
      · omega
      · have := ih h
        omega

theorem nil_intercalate (parts : List (List α)) :
    ([] : List α).intercalate parts = parts.flatten := by
  induction parts with
  | nil => rfl
  | cons part parts ih =>
    cases parts with
    | nil => simp
    | cons next parts =>
      rw [List.intercalate_cons_cons, ih, List.append_nil]
      rfl

/-! ## Lists of results -/

theorem mapM_eq_some_iff {f : α → Option β} {xs : List α} {ys : List β} :
    xs.mapM f = some ys ↔ xs.map f = ys.map some := by
  induction xs generalizing ys with
  | nil => cases ys <;> simp
  | cons x xs ih =>
    rw [List.mapM_cons]
    cases ys with
    | nil => cases f x <;> simp [Option.bind_eq_some_iff]
    | cons y ys =>
      cases hx : f x with
      | none => simp [hx]
      | some y' => simp [hx, Option.bind_eq_some_iff, ih, and_comm]

theorem exists_of_mem_mapM {f : α → Option β} {xs : List α} {ys : List β}
    (h : xs.mapM f = some ys) {y : β} (hy : y ∈ ys) : ∃ x ∈ xs, f x = some y := by
  have hmem : some y ∈ ys.map some := List.mem_map_of_mem hy
  rw [← mapM_eq_some_iff.1 h] at hmem
  exact List.mem_map.1 hmem

theorem forall₂_of_mapM_eq_some {f : α → Option β} {xs : List α} {ys : List β}
    (h : xs.mapM f = some ys) : List.Forall₂ (fun x y => f x = some y) xs ys := by
  rw [mapM_eq_some_iff, ← List.forall₂_eq_eq_eq] at h
  exact List.forall₂_map_right_iff.1 (List.forall₂_map_left_iff.1 h)

theorem mapM_map_comm {f : α → Option β} (g : β → γ) (xs : List α) :
    xs.mapM (fun x => (f x).map g) = (xs.mapM f).map (List.map g) := by
  induction xs with
  | nil => rfl
  | cons x xs ih =>
    rw [List.mapM_cons, List.mapM_cons, ih]
    cases f x with
    | none => rfl
    | some y => cases xs.mapM f <;> rfl

/-! ## Options -/

theorem findSome?_cons_eq_or (f : α → Option β) (x : α) (xs : List α) :
    (x :: xs).findSome? f = (f x).or (xs.findSome? f) := by
  rw [List.findSome?_cons]
  cases f x <;> rfl

theorem exists_mem_getD_map_iff {o : Option α} {f : α → List β} {P : β → Prop} :
    (∃ y ∈ (o.map f).getD [], P y) ↔ ∃ x, o = some x ∧ ∃ y ∈ f x, P y := by
  cases o <;> simp

theorem rel_imp {R S : α → β → Prop} {a : Option α} {b : Option β}
    (h : Option.Rel R a b) (himp : ∀ x y, R x y → S x y) : Option.Rel S a b := by
  cases h with
  | none => exact .none
  | some hxy => exact .some (himp _ _ hxy)

end IdlBridge
