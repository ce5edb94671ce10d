import Mathlib.Data.List.Basic

/-! # First occurrences and groups

    Two ways to take in items one after the other, and what they leave in the end.

    * An item is added unless one that is there stands for it: what is left are the `firsts`.
    * An item changes the first entry that takes it, and starts an entry where none does: there is
      an entry for every group of `gather`.

    Both are said of any relation, with the item that is there on the left.  It need not be
    reflexive: an item that does not stand for itself is never found again.
-/

namespace IdlBridge

variable {α β : Type}

/-- Induction on a list whose rest is filtered before it is gone through. -/
@[elab_as_elim]
theorem filter_induction {motive : List α → Prop} (nil : motive [])
    (cons : ∀ x xs, (∀ p : α → Bool, motive (xs.filter p)) → motive (x :: xs)) (xs : List α) :
    motive xs := by
  induction hn : xs.length using Nat.strongRecOn generalizing xs with
  | _ n ih =>
    cases xs with
    | nil => exact nil
    | cons x rest =>
      refine cons x rest fun p => ih _ ?_ _ rfl
      exact hn ▸ Nat.lt_succ_of_le (List.length_filter_le _ _)

/-! ## First occurrences -/

/-- The items for which no earlier one of them stands. -/
def firsts (r : α → α → Bool) (xs : List α) : List α :=
  xs.eraseDupsBy fun later first => r first later

/-- Adds an item unless one that is there stands for it. -/
def addUnless (r : α → α → Bool) (xs : List α) (x : α) : List α :=
  if xs.any fun y => r y x then xs else xs ++ [x]

@[simp] theorem firsts_nil (r : α → α → Bool) : firsts r [] = [] := rfl

theorem firsts_cons (r : α → α → Bool) (x : α) (xs : List α) :
    firsts r (x :: xs) = x :: firsts r (xs.filter fun y => !r x y) := by
  rw [firsts, List.eraseDupsBy_cons]
  show x :: firsts r _ = _
  congr 3
  funext y
  cases r x y <;> rfl

/-- What is added one after the other ends as the first occurrences of what is new. -/
theorem foldl_addUnless (r : α → α → Bool) (new xs : List α) :
    new.foldl (addUnless r) xs = xs ++ firsts r (new.filter fun x => !xs.any fun y => r y x) := by
  induction new generalizing xs with
  | nil => simp
  | cons x rest ih =>
    rw [List.foldl_cons, ih, addUnless]
    cases hx : xs.any fun y => r y x with
    | true => rw [if_pos rfl, List.filter_cons_of_neg (by simp [hx])]
    | false =>
      rw [if_neg (by simp), List.filter_cons_of_pos (by simp [hx]), firsts_cons, List.filter_filter,
        List.append_assoc]
      show xs ++ x :: firsts r _ = _
      congr 4
      funext y
      rw [List.any_append, List.any_cons, List.any_nil, Bool.or_false, Bool.not_or, Bool.and_comm]

theorem foldl_addUnless_nil (r : α → α → Bool) (new : List α) :
    new.foldl (addUnless r) [] = firsts r new := by
  rw [foldl_addUnless]
  simp

/-- Items that do not stand for each other stay as they are. -/
theorem firsts_eq_self {r : α → α → Bool} {xs : List α}
    (h : xs.Pairwise fun x y => r x y = false) : firsts r xs = xs := by
  induction xs with
  | nil => rfl
  | cons x rest ih =>
    obtain ⟨hx, hrest⟩ := List.pairwise_cons.1 h
    rw [firsts_cons, List.filter_eq_self.2 (by simpa using hx), ih hrest]

theorem firsts_subset (r : α → α → Bool) (xs : List α) : firsts r xs ⊆ xs := by
  induction xs using filter_induction with
  | nil => exact List.Subset.refl _
  | cons x rest ih =>
    rw [firsts_cons]
    exact List.cons_subset_cons _ fun y hy => (List.mem_filter.1 (ih _ hy)).1

/-- Items that stand for each other by what they are mapped to. -/
theorem firsts_map (r : β → β → Bool) (f : α → β) (xs : List α) :
    firsts r (xs.map f) = (firsts (fun x y => r (f x) (f y)) xs).map f := by
  induction xs using filter_induction with
  | nil => rfl
  | cons x rest ih =>
    rw [List.map_cons, firsts_cons, firsts_cons, List.map_cons, List.filter_map]
    exact congrArg _ (ih _)

/-- A first occurrence is the first item that stands for it. -/
theorem find?_of_mem_firsts {r : α → α → Bool} {xs : List α} {x : α} (h : x ∈ firsts r xs)
    (hself : r x x = true) (htrans : ∀ a y, r a y = true → r y x = true → r a x = true) :
    xs.find? (fun y => r y x) = some x := by
  induction xs using filter_induction with
  | nil => cases h
  | cons a rest ih =>
    rw [firsts_cons] at h
    rcases List.mem_cons.1 h with rfl | h
    · exact List.find?_cons_of_pos hself
    · have hax : r a x = false := by
        simpa using (List.mem_filter.1 (firsts_subset r _ h)).2
      have hfind := ih _ h
      rw [List.find?_filter] at hfind
      rw [List.find?_cons_of_neg (by simp [hax]), ← hfind]
      -- What the item in front stands for does not stand for the one that is looked for.
      congr 1
      funext y
      cases hyx : r y x with
      | false => simp
      | true =>
        cases hay : r a y with
        | false => rfl
        | true =>
          have := htrans a y hay hyx
          rw [hax] at this
          cases this

/-- An item for which no earlier one stands is a first occurrence. -/
theorem mem_firsts_append_cons {r : α → α → Bool} {before : List α} {x : α}
    (h : ∀ y ∈ before, r y x = false) (behind : List α) : x ∈ firsts r (before ++ x :: behind) := by
  induction before using filter_induction generalizing behind with
  | nil =>
    rw [List.nil_append, firsts_cons]
    exact List.mem_cons_self
  | cons y rest ih =>
    obtain ⟨hy, hrest⟩ := List.forall_mem_cons.1 h
    rw [List.cons_append, firsts_cons, List.filter_append, List.filter_cons_of_pos (by simp [hy])]
    exact List.mem_cons_of_mem _ (ih _ (fun z hz => hrest z (List.mem_filter.1 hz).1) _)

/-- Where items stand for each other by a key, the keys of the first occurrences are those of all
    items. -/
theorem mem_map_firsts {κ : Type} {r : α → α → Bool} {key : α → κ} {xs : List α}
    (hr : ∀ x ∈ xs, ∀ y ∈ xs, r x y = true → key x = key y) {k : κ} :
    k ∈ (firsts r xs).map key ↔ k ∈ xs.map key := by
  refine ⟨fun hk => List.map_subset key (firsts_subset r xs) hk, fun hk => ?_⟩
  induction xs using filter_induction with
  | nil => exact hk
  | cons x rest ih =>
    rw [firsts_cons, List.map_cons, List.mem_cons]
    obtain ⟨y, hy, rfl⟩ := List.mem_map.1 hk
    cases hxy : r x y with
    | true => exact Or.inl (hr x List.mem_cons_self y hy hxy).symm
    | false =>
      rcases List.mem_cons.1 hy with rfl | hrest
      · exact Or.inl rfl
      · have hkept : y ∈ rest.filter fun z => !r x z := List.mem_filter.2 ⟨hrest, by simp [hxy]⟩
        refine Or.inr (ih _ (fun a ha b hb => ?_) (List.mem_map_of_mem hkept))
        exact hr a (List.mem_cons_of_mem _ (List.mem_filter.1 ha).1) b
          (List.mem_cons_of_mem _ (List.mem_filter.1 hb).1)

/-! ## Groups -/

/-- The items in groups: each item for which no earlier one stands, with the later ones that it
    stands for. -/
def gather (r : α → α → Bool) : List α → List (α × List α)
  | [] => []
  | x :: xs => (x, xs.filter (r x)) :: gather r (xs.filter fun y => !r x y)
termination_by xs => xs.length
decreasing_by
  rw [List.length_unattach, List.length_cons, Nat.lt_succ_iff]
  exact Nat.le_trans (List.length_filter_le _ _) (Nat.le_of_eq List.length_attach)

theorem mem_of_mem_gather {r : α → α → Bool} {xs : List α} {g : α × List α} (h : g ∈ gather r xs) :
    ∀ x ∈ g.1 :: g.2, x ∈ xs := by
  induction xs using filter_induction with
  | nil =>
    rw [gather] at h
    cases h
  | cons x rest ih =>
    rw [gather] at h
    intro y hy
    rcases List.mem_cons.1 h with rfl | h
    · rcases List.mem_cons.1 hy with rfl | hy
      · exact List.mem_cons_self
      · exact List.mem_cons_of_mem _ (List.mem_filter.1 hy).1
    · exact List.mem_cons_of_mem _ (List.mem_filter.1 (ih _ h y hy)).1

/-- There is a group for every first occurrence. -/
theorem map_fst_gather (r : α → α → Bool) (xs : List α) :
    (gather r xs).map Prod.fst = firsts r xs := by
  induction xs using filter_induction with
  | nil =>
    rw [gather]
    rfl
  | cons x rest ih => rw [gather, List.map_cons, firsts_cons, ih]

/-- A group whose first item stands for items by a key has all items with that key. -/
theorem cons_of_mem_gather {κ : Type} {r : α → α → Bool} {key : α → κ} {xs : List α}
    {g : α × List α} (h : g ∈ gather r xs)
    (hr : ∀ x ∈ xs, ∀ y ∈ xs, key x = key g.1 ∨ key y = key g.1 → (r x y = true ↔ key x = key y)) :
    g.1 :: g.2 = xs.filter (r g.1) := by
  induction xs using filter_induction with
  | nil =>
    rw [gather] at h
    cases h
  | cons x rest ih =>
    rw [gather] at h
    rcases List.mem_cons.1 h with rfl | h
    · have hself : r x x = true := (hr x List.mem_cons_self x List.mem_cons_self (Or.inl rfl)).2 rfl
      rw [List.filter_cons_of_pos hself]
    · have hmem : ∀ y ∈ rest.filter fun y => !r x y, y ∈ x :: rest :=
        fun y hy => List.mem_cons_of_mem _ (List.mem_filter.1 hy).1
      rw [ih _ h fun y hy z hz => hr y (hmem y hy) z (hmem z hz)]
      -- The group has not been taken by the item in front, so its key is another one.
      have hfirst := mem_of_mem_gather h g.1 List.mem_cons_self
      have hne : key x ≠ key g.1 := fun heq => by
        have hxg := (hr x List.mem_cons_self g.1 (hmem _ hfirst) (Or.inr rfl)).2 heq
        simp [List.mem_filter, hxg] at hfirst
      have hgx : r g.1 x = false := by
        rw [← Bool.not_eq_true, hr g.1 (hmem _ hfirst) x List.mem_cons_self (Or.inl rfl)]
        exact hne.symm
      rw [List.filter_cons_of_neg (by simp [hgx]), List.filter_filter]
      refine List.filter_congr fun z hz => ?_
      cases hgz : r g.1 z with
      | false => rfl
      | true =>
        have hz' := List.mem_cons_of_mem x hz
        have hkey := (hr g.1 (hmem _ hfirst) z hz' (Or.inl rfl)).1 hgz
        have hxz : r x z = false := by
          rw [← Bool.not_eq_true, hr x List.mem_cons_self z hz' (Or.inr hkey.symm), ← hkey]
          exact hne
        rw [hxz]
        rfl

/-- Where items stand for each other exactly by a key, a group has all items with the key of its
    first one. -/
theorem gather_eq_map {κ : Type} {r : α → α → Bool} {key : α → κ} {xs : List α}
    (hr : ∀ x ∈ xs, ∀ y ∈ xs, r x y = true ↔ key x = key y) :
    (gather r xs).map (fun g => (g.1, g.1 :: g.2)) =
      (firsts r xs).map fun x => (x, xs.filter (r x)) := by
  rw [← map_fst_gather, List.map_map]
  refine List.map_congr_left fun g hg => ?_
  have hgroup := cons_of_mem_gather hg fun x hx y hy _ => hr x hx y hy
  exact congrArg (Prod.mk g.1) hgroup

/-! ## Entries that items change -/

/-- Has the first entry that takes an item change with it, or starts an entry with it. -/
def upsert (r : β → α → Bool) (start : α → β) (change : β → α → β) : List β → α → List β
  | [], x => [start x]
  | e :: es, x => if r e x then change e x :: es else e :: upsert r start change es x

section Upsert

variable {r : β → α → Bool} {start : α → β} {change : β → α → β}

/-- The first entry takes what it takes from the beginning, and the others the rest. -/
theorem foldl_upsert_cons (hchange : ∀ e x, r e x = true → r (change e x) = r e) (xs : List α)
    (e : β) (es : List β) :
    xs.foldl (upsert r start change) (e :: es) =
      (xs.filter (r e)).foldl change e ::
        (xs.filter fun x => !r e x).foldl (upsert r start change) es := by
  induction xs generalizing e es with
  | nil => rfl
  | cons x rest ih =>
    rw [List.foldl_cons, upsert]
    cases hx : r e x with
    | true =>
      rw [if_pos rfl, ih, hchange e x hx, List.filter_cons_of_pos hx,
        List.filter_cons_of_neg (by simp [hx])]
      rfl
    | false =>
      rw [if_neg (by simp), ih, List.filter_cons_of_neg (by simp [hx]),
        List.filter_cons_of_pos (by simp [hx])]
      rfl

/-- Items that are taken in one after the other end as an entry for every group. -/
theorem foldl_upsert (hchange : ∀ e x, r e x = true → r (change e x) = r e) (xs : List α) :
    xs.foldl (upsert r start change) [] =
      (gather (fun x => r (start x)) xs).map fun g => g.2.foldl change (start g.1) := by
  induction xs using filter_induction with
  | nil =>
    rw [gather]
    rfl
  | cons x rest ih =>
    rw [List.foldl_cons, upsert, foldl_upsert_cons hchange, ih, gather, List.map_cons]

end Upsert

end IdlBridge
