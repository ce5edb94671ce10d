import IdlBridge.Text.Table
import Mathlib.Data.List.Nodup
import Mathlib.Data.List.Perm.Basic

/-! # Sorting

    Texts are ordered by their code points, and the order is linear.  So sorting by names forgets
    the order that items had before, as long as no two of them have the same name.
-/

namespace IdlBridge

instance : Std.IsLinearOrder CodePoint where
  le_refl a := Nat.le_refl a.toNat
  le_trans _ _ _ := Nat.le_trans
  le_antisymm a b hab hba := by
    cases a
    cases b
    simp only [CodePoint.mk.injEq]
    exact Nat.le_antisymm hab hba
  le_total a b := Nat.le_total a.toNat b.toNat

instance : Std.LawfulOrderLT CodePoint where
  lt_iff a b := by
    show a.toNat < b.toNat ↔ a.toNat ≤ b.toNat ∧ ¬ b.toNat ≤ a.toNat
    omega

namespace Text

theorem le_iff {a b : Text} : Text.le a b = true ↔ List.le a b := by
  unfold Text.le
  rw [Bool.not_eq_true', decide_eq_false_iff_not]

theorem le_trans {a b c : Text} (hab : Text.le a b = true) (hbc : Text.le b c = true) :
    Text.le a c = true :=
  le_iff.2 (List.le_trans (le_iff.1 hab) (le_iff.1 hbc))

theorem le_total (a b : Text) : (Text.le a b || Text.le b a) = true := by
  rw [Bool.or_eq_true, le_iff, le_iff]
  exact List.le_total a b

theorem le_antisymm {a b : Text} (hab : Text.le a b = true) (hba : Text.le b a = true) : a = b :=
  List.le_antisymm (le_iff.1 hab) (le_iff.1 hba)

end Text

/-! ## Sorting -/

/-- Two lists of the same items are the same when sorted, if items that come neither before nor
    behind each other have the same key, and no two items have the same key. -/
theorem mergeSort_eq_of_perm {α κ : Type} {key : α → κ} {le : α → α → Bool}
    (htrans : ∀ a b c, le a b = true → le b c = true → le a c = true)
    (htotal : ∀ a b, (le a b || le b a) = true)
    (hantisymm : ∀ a b, le a b = true → le b a = true → key a = key b) {xs ys : List α}
    (hnodup : (xs.map key).Nodup) (h : xs.Perm ys) : xs.mergeSort le = ys.mergeSort le := by
  have hsorted : ∀ zs : List α, (zs.mergeSort le).Pairwise fun a b => le a b = true :=
    List.pairwise_mergeSort htrans htotal
  have hperm : (xs.mergeSort le).Perm (ys.mergeSort le) :=
    ((List.mergeSort_perm xs le).trans h).trans (List.mergeSort_perm ys le).symm
  refine hperm.eq_of_pairwise (fun a b ha hb hab hba => ?_) (hsorted xs) (hsorted ys)
  -- two sorted lists of the same items can only differ in items with the same key
  have ha' : a ∈ xs := List.mem_mergeSort.1 ha
  have hb' : b ∈ xs := h.mem_iff.2 (List.mem_mergeSort.1 hb)
  exact List.inj_on_of_nodup_map hnodup ha' hb' (hantisymm a b hab hba)

/-- Sorting by names that are all different forgets the order. -/
theorem mergeSort_eq_of_perm_names {α : Type} {name : α → Text} {xs ys : List α}
    (hnodup : (xs.map name).Nodup) (h : xs.Perm ys) :
    (xs.mergeSort fun a b => Text.le (name a) (name b)) =
      ys.mergeSort fun a b => Text.le (name a) (name b) := by
  refine mergeSort_eq_of_perm ?_ ?_ ?_ hnodup h
  · intro a b c
    exact Text.le_trans
  · intro a b
    exact Text.le_total (name a) (name b)
  · intro a b
    exact Text.le_antisymm

theorem Table.sort_eq_of_perm {α : Type} {t u : Table α} (hnodup : t.keys.Nodup) (h : t.Perm u) :
    t.sort = u.sort :=
  mergeSort_eq_of_perm_names hnodup h

/-! ## Lists in another order -/

/-- The items of one list can be paired up with those of the other, whatever their order, so that
    the items of each pair are related. -/
def Paired {α : Type} (R : α → α → Prop) (xs ys : List α) : Prop :=
  ∃ pairs : List (α × α), pairs.map Prod.fst = xs ∧ (pairs.map Prod.snd).Perm ys ∧
    ∀ p ∈ pairs, R p.1 p.2

theorem Paired.of_perm {α : Type} {xs ys : List α} (h : xs.Perm ys) : Paired Eq xs ys := by
  refine ⟨xs.map fun x => (x, x), ?_, ?_, fun p hp => ?_⟩
  · rw [List.map_map]
    exact List.map_id xs
  · rw [List.map_map]
    exact (List.Perm.of_eq (List.map_id xs)).trans h
  · obtain ⟨x, -, rfl⟩ := List.mem_map.1 hp
    rfl

/-- A function that does not tell related items apart gives the same values in another order. -/
theorem Paired.map_perm {α β : Type} {R : α → α → Prop} {xs ys : List α} (h : Paired R xs ys)
    {f : α → β} (hf : ∀ x ∈ xs, ∀ y, R x y → f y = f x) : (xs.map f).Perm (ys.map f) := by
  obtain ⟨pairs, rfl, hperm, hR⟩ := h
  have hvalues : (pairs.map Prod.fst).map f = (pairs.map Prod.snd).map f := by
    rw [List.map_map, List.map_map]
    refine List.map_congr_left fun p hp => ?_
    exact (hf p.1 (List.mem_map_of_mem hp) p.2 (hR p hp)).symm
  rw [hvalues]
  exact hperm.map f

/-- Related functions keep the items paired up. -/
theorem Paired.map {α β : Type} {R : α → α → Prop} {S : β → β → Prop} {xs ys : List α}
    (h : Paired R xs ys) {f : α → β} (hf : ∀ x y, R x y → S (f x) (f y)) :
    Paired S (xs.map f) (ys.map f) := by
  obtain ⟨pairs, rfl, hperm, hR⟩ := h
  refine ⟨pairs.map fun p => (f p.1, f p.2), ?_, ?_, fun p hp => ?_⟩
  · rw [List.map_map, List.map_map]
    rfl
  · rw [List.map_map]
    have hvalues := hperm.map f
    rw [List.map_map] at hvalues
    exact hvalues
  · obtain ⟨q, hq, rfl⟩ := List.mem_map.1 hp
    exact hf _ _ (hR q hq)

/-- Related items that give the same lists in another order do so together. -/
theorem Paired.flatMap_perm {α β : Type} {R : α → α → Prop} {xs ys : List α} (h : Paired R xs ys)
    {f : α → List β} (hf : ∀ x ∈ xs, ∀ y, R x y → (f x).Perm (f y)) :
    (xs.flatMap f).Perm (ys.flatMap f) := by
  obtain ⟨pairs, rfl, hperm, hR⟩ := h
  refine List.Perm.trans ?_ (hperm.flatMap_right f)
  rw [List.flatMap_map, List.flatMap_map]
  exact List.Perm.flatMap_left _ fun p hp => hf p.1 (List.mem_map_of_mem hp) p.2 (hR p hp)

end IdlBridge
