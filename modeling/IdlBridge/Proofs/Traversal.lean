import IdlBridge.Traversal
import Mathlib.Data.List.Nodup
import Mathlib.Data.List.Perm.Subperm
import Mathlib.Logic.Relation

/-! # Traversals

    A sweep visits node 0 and, with every node, the neighbours of the node: nothing that can be
    reached is left out.  Only the members of the joined list matter for this, not their order, so
    both orders share one proof.  The invariant is that a neighbour of a visited node has been
    visited or still waits.

    So a traversal visits the nodes that can be reached, each of them once.  What is special about
    the two orders is said without the list of nodes that wait.

    * `preorder`: a node comes before everything that its links lead to, link by link.  `DepthFirst`
      is that recursion; each call of it hands on what has been visited.
    * `breadthFirst`: the nodes come level by level.  A `level` holds the ends of all walks of one
      length, in the order of the walks, so most nodes are in many levels; of each node the first
      occurrence counts.
-/

namespace IdlBridge.Traversal

variable {n : Nat} {links : Nat → List Nat} {join : List Nat → List Nat → List Nat}

/-! ## Nothing is left out -/

theorem mem_sweep_of_visited {visited waiting : List Nat} {i : Nat} (h : i ∈ visited) :
    i ∈ sweep n links join visited waiting := by
  fun_induction sweep n links join visited waiting with
  | case1 => exact h
  | case2 visited j waiting hj ih => exact ih (List.mem_append_left _ h)
  | case3 visited j waiting hj ih => exact ih h

theorem mem_sweep_of_waiting (hjoin : ∀ {a b x}, x ∈ join a b ↔ x ∈ a ∨ x ∈ b)
    {visited waiting : List Nat} {i : Nat} (h : i ∈ waiting) (hi : i < n) :
    i ∈ sweep n links join visited waiting := by
  fun_induction sweep n links join visited waiting with
  | case1 => cases h
  | case2 visited j waiting hj ih =>
    rcases List.mem_cons.1 h with rfl | h
    · exact mem_sweep_of_visited (List.mem_append_right _ (List.mem_singleton_self _))
    · exact ih (hjoin.2 (Or.inr h))
  | case3 visited j waiting hj ih =>
    rcases List.mem_cons.1 h with rfl | h
    · have hv : i ∈ visited := by
        by_contra hv
        exact hj ⟨hv, hi⟩
      exact mem_sweep_of_visited hv
    · exact ih h

/-- If every neighbour of a visited node has been visited or waits, then a sweep visits every
    neighbour of what it visits. -/
theorem sweep_closed (hjoin : ∀ {a b x}, x ∈ join a b ↔ x ∈ a ∨ x ∈ b)
    {visited waiting : List Nat}
    (hinv : ∀ i ∈ visited, ∀ j ∈ links i, j < n → j ∈ visited ∨ j ∈ waiting) :
    ∀ i ∈ sweep n links join visited waiting, ∀ j ∈ links i, j < n →
      j ∈ sweep n links join visited waiting := by
  fun_induction sweep n links join visited waiting with
  | case1 visited =>
    intro i hi j hj hn
    rcases hinv i hi j hj hn with h | h
    · exact h
    · cases h
  -- The node joins the visited ones, and its neighbours join those that wait.
  | case2 visited k waiting hk ih =>
    apply ih
    intro i hi j hj hn
    rcases List.mem_append.1 hi with hi | hi
    · rcases hinv i hi j hj hn with h | h
      · exact Or.inl (List.mem_append_left _ h)
      · rcases List.mem_cons.1 h with rfl | h
        · exact Or.inl (List.mem_append_right _ (List.mem_singleton_self _))
        · exact Or.inr (hjoin.2 (Or.inr h))
    · rw [List.mem_singleton.1 hi] at hj
      exact Or.inr (hjoin.2 (Or.inl hj))
  -- A node that is passed over has been visited before, or is none at all.
  | case3 visited k waiting hk ih =>
    apply ih
    intro i hi j hj hn
    rcases hinv i hi j hj hn with h | h
    · exact Or.inl h
    · rcases List.mem_cons.1 h with rfl | h
      · have hv : j ∈ visited := by
          by_contra hv
          exact hk ⟨hv, hn⟩
        exact Or.inl hv
      · exact Or.inr h

theorem preorder_closed {i j : Nat} (hi : i ∈ preorder n links) (hj : j ∈ links i) (hn : j < n) :
    j ∈ preorder n links :=
  sweep_closed List.mem_append (fun _ h => by cases h) i hi j hj hn

/-! ## Which nodes are visited -/

/-- The second node is a neighbour of the first. -/
def Linked (n : Nat) (links : Nat → List Nat) (i j : Nat) : Prop :=
  j ∈ links i ∧ j < n

/-- The node can be reached from node 0. -/
def Reachable (n : Nat) (links : Nat → List Nat) (i : Nat) : Prop :=
  0 < n ∧ Relation.ReflTransGen (Linked n links) 0 i

theorem nodup_append_new {visited : List Nat} {i : Nat} (h : visited.Nodup) (hi : i ∉ visited) :
    (visited ++ [i]).Nodup := by
  rw [← List.concat_eq_append]
  exact h.concat hi

theorem nodup_sweep {visited : List Nat} (h : visited.Nodup) (waiting : List Nat) :
    (sweep n links join visited waiting).Nodup := by
  fun_induction sweep n links join visited waiting with
  | case1 => exact h
  | case2 visited i waiting hi ih =>
    exact ih (nodup_append_new h hi.1)
  | case3 visited i waiting hi ih => exact ih h

/-- What holds of the nodes that wait, and of the neighbours of a node it holds of, holds of all
    nodes that a sweep visits. -/
theorem forall_mem_sweep (hjoin : ∀ {a b x}, x ∈ join a b ↔ x ∈ a ∨ x ∈ b) {P : Nat → Prop}
    (hlinked : ∀ i j, P i → Linked n links i j → P j) {visited waiting : List Nat}
    (hvisited : ∀ i ∈ visited, P i) (hwaiting : ∀ i ∈ waiting, i < n → P i) :
    ∀ i ∈ sweep n links join visited waiting, P i := by
  fun_induction sweep n links join visited waiting with
  | case1 => exact hvisited
  | case2 visited i waiting hi ih =>
    have hPi : P i := hwaiting i List.mem_cons_self hi.2
    refine ih ?_ ?_
    · intro j hj
      rcases List.mem_append.1 hj with hj | hj
      · exact hvisited j hj
      · exact List.mem_singleton.1 hj ▸ hPi
    · intro j hj hn
      rcases hjoin.1 hj with hj | hj
      · exact hlinked i j hPi ⟨hj, hn⟩
      · exact hwaiting j (List.mem_cons_of_mem _ hj) hn
  | case3 visited i waiting hi ih =>
    exact ih hvisited fun j hj => hwaiting j (List.mem_cons_of_mem _ hj)

/-- A sweep visits exactly what can be reached. -/
theorem mem_sweep_iff (hjoin : ∀ {a b x}, x ∈ join a b ↔ x ∈ a ∨ x ∈ b) {i : Nat} :
    i ∈ sweep n links join [] [0] ↔ Reachable n links i := by
  constructor
  · refine forall_mem_sweep hjoin ?_ (by simp) ?_ i
    · intro i j hi hj
      exact ⟨hi.1, hi.2.tail hj⟩
    · intro j hj hn
      rw [List.mem_singleton.1 hj] at hn ⊢
      exact ⟨hn, .refl⟩
  · rintro ⟨hn, hpath⟩
    induction hpath with
    | refl => exact mem_sweep_of_waiting hjoin (List.mem_singleton_self 0) hn
    | tail _ hj ih => exact sweep_closed hjoin (fun _ h => by cases h) _ ih _ hj.1 hj.2

/-! ## Depth first -/

/-- Visiting nodes depth first, one after the other: `DepthFirst n links visited nodes after` says
    that, with `visited` behind it, the recursion over `nodes` ends with `after`.  A node that is
    new is followed by what its links lead to, before the next node. -/
inductive DepthFirst (n : Nat) (links : Nat → List Nat) :
    (visited nodes after : List Nat) → Prop where
  | done {visited : List Nat} : DepthFirst n links visited [] visited
  | skip {visited rest after : List Nat} {i : Nat} (hi : ¬ (i ∉ visited ∧ i < n))
      (hrest : DepthFirst n links visited rest after) : DepthFirst n links visited (i :: rest) after
  | visit {visited inner rest after : List Nat} {i : Nat} (hi : i ∉ visited ∧ i < n)
      (hlinks : DepthFirst n links (visited ++ [i]) (links i) inner)
      (hrest : DepthFirst n links inner rest after) : DepthFirst n links visited (i :: rest) after

/-- Nodes that stand in front are done before the others. -/
theorem DepthFirst.split {xs ys visited after : List Nat}
    (h : DepthFirst n links visited (xs ++ ys) after) :
    ∃ inner, DepthFirst n links visited xs inner ∧ DepthFirst n links inner ys after := by
  induction xs generalizing visited with
  | nil => exact ⟨visited, .done, h⟩
  | cons x xs ih =>
    cases h with
    | skip hx h =>
      obtain ⟨inner, hxs, hys⟩ := ih h
      exact ⟨inner, .skip hx hxs, hys⟩
    | visit hx hlinks h =>
      obtain ⟨inner, hxs, hys⟩ := ih h
      exact ⟨inner, .visit hx hlinks hxs, hys⟩

/-- With the links of a node in front of what waits, a sweep is the recursion. -/
theorem depthFirst_sweep (visited waiting : List Nat) :
    DepthFirst n links visited waiting
      (sweep n links (fun found waiting => found ++ waiting) visited waiting) := by
  fun_induction sweep n links (fun found waiting => found ++ waiting) visited waiting with
  | case1 => exact .done
  | case2 visited i waiting hi ih =>
    obtain ⟨inner, hlinks, hrest⟩ := ih.split
    exact .visit hi hlinks hrest
  | case3 visited i waiting hi ih => exact .skip hi ih

theorem depthFirst_preorder : DepthFirst n links [] [0] (preorder n links) :=
  depthFirst_sweep [] [0]

/-! ## Breadth first -/

/-- The ends of the walks of `k` links from node 0, in the order of the walks. -/
def level (n : Nat) (links : Nat → List Nat) : (k : Nat) → List Nat
  | 0 => [0]
  | k + 1 => (level n links k).flatMap fun i => (links i).filter (· < n)

/-- The first occurrences of nodes that have not been visited. -/
def fresh (n : Nat) (visited xs : List Nat) : List Nat :=
  (xs.filter fun i => i ∉ visited ∧ i < n).eraseDups

theorem mem_fresh {visited xs : List Nat} {i : Nat} :
    i ∈ fresh n visited xs ↔ i ∈ xs ∧ i ∉ visited ∧ i < n := by
  rw [fresh, List.mem_eraseDups, List.mem_filter, decide_eq_true_eq]

@[simp] theorem fresh_nil (visited : List Nat) : fresh n visited [] = [] := rfl

theorem fresh_cons_of_new {visited xs : List Nat} {i : Nat} (h : i ∉ visited ∧ i < n) :
    fresh n visited (i :: xs) = i :: fresh n (visited ++ [i]) xs := by
  unfold fresh
  rw [List.filter_cons_of_pos (by simpa using h), List.eraseDups_cons, List.filter_filter]
  congr 3
  funext j
  rw [Bool.eq_iff_iff]
  simp only [Bool.and_eq_true, Bool.not_eq_true', beq_eq_false_iff_ne, decide_eq_true_eq,
    List.mem_append, List.mem_singleton, not_or]
  tauto

theorem fresh_cons_of_old {visited xs : List Nat} {i : Nat} (h : ¬ (i ∉ visited ∧ i < n)) :
    fresh n visited (i :: xs) = fresh n visited xs := by
  unfold fresh
  rw [List.filter_cons_of_neg (by simpa using h)]

theorem fresh_append (visited xs ys : List Nat) :
    fresh n visited (xs ++ ys) =
      fresh n visited xs ++ fresh n (visited ++ fresh n visited xs) ys := by
  induction xs generalizing visited with
  | nil => simp
  | cons x xs ih =>
    rw [List.cons_append]
    by_cases hx : x ∉ visited ∧ x < n
    · rw [fresh_cons_of_new hx, fresh_cons_of_new hx, ih, List.cons_append, List.append_assoc,
        List.singleton_append]
    · rw [fresh_cons_of_old hx, fresh_cons_of_old hx, ih]

theorem nodup_append_fresh {visited : List Nat} (h : visited.Nodup) (xs : List Nat) :
    (visited ++ fresh n visited xs).Nodup := by
  induction xs generalizing visited with
  | nil => simpa using h
  | cons x xs ih =>
    by_cases hx : x ∉ visited ∧ x < n
    · rw [fresh_cons_of_new hx, List.append_cons]
      exact ih (nodup_append_new h hx.1)
    · rw [fresh_cons_of_old hx]
      exact ih h

/-- The neighbours of nodes that have been visited before, or that come again, are not new: only the
    links of new nodes count. -/
theorem fresh_flatMap_fresh {known visited xs : List Nat} (hxs : ∀ i ∈ xs, i < n)
    (hknown : ∀ i ∈ known, ∀ j, Linked n links i j → j ∈ visited) :
    fresh n visited ((fresh n known xs).flatMap links) = fresh n visited (xs.flatMap links) := by
  induction xs generalizing known visited with
  | nil => rfl
  | cons x xs ih =>
    obtain ⟨hx, hxs⟩ := List.forall_mem_cons.1 hxs
    rw [List.flatMap_cons, fresh_append]
    by_cases hk : x ∈ known
    · -- The node is known, so all its neighbours have been visited.
      rw [fresh_cons_of_old fun h => h.1 hk]
      have hnone : fresh n visited (links x) = [] := by
        refine List.eq_nil_iff_forall_not_mem.2 fun j hj => ?_
        obtain ⟨hj, hv, hn⟩ := mem_fresh.1 hj
        exact hv (hknown x hk j ⟨hj, hn⟩)
      rw [hnone, List.append_nil, List.nil_append, ih hxs hknown]
    · -- The node is new: its neighbours are visited next, and after them it is a known one.
      rw [fresh_cons_of_new ⟨hk, hx⟩, List.flatMap_cons, fresh_append]
      congr 1
      refine ih hxs fun i hi j hj => ?_
      by_cases hv : j ∈ visited
      · exact List.mem_append_left _ hv
      · rcases List.mem_append.1 hi with hi | hi
        · exact absurd (hknown i hi j hj) hv
        · rw [List.mem_singleton.1 hi] at hj
          exact List.mem_append_right _ (mem_fresh.2 ⟨hj.1, hv, hj.2⟩)

/-- With the links of a node behind what waits, the nodes that wait are done before the links of any
    of them. -/
theorem sweep_layer (visited xs ys : List Nat) :
    sweep n links (fun found waiting => waiting ++ found) visited (xs ++ ys) =
      sweep n links (fun found waiting => waiting ++ found) (visited ++ fresh n visited xs)
        (ys ++ (fresh n visited xs).flatMap links) := by
  induction xs generalizing visited ys with
  | nil => simp
  | cons x xs ih =>
    rw [List.cons_append, sweep]
    split
    · next hx =>
      rw [List.append_assoc, ih, fresh_cons_of_new hx, List.flatMap_cons, List.append_assoc,
        List.append_assoc, List.singleton_append]
    · next hx => rw [ih, fresh_cons_of_old hx]

/-- The nodes within less than `k` links from node 0, by their first occurrences. -/
def within (n : Nat) (links : Nat → List Nat) (k : Nat) : List Nat :=
  fresh n [] ((List.range k).flatMap (level n links))

theorem within_succ (k : Nat) :
    within n links (k + 1) =
      within n links k ++ fresh n (within n links k) (level n links k) := by
  rw [within, List.range_succ, List.flatMap_append, fresh_append, List.nil_append,
    List.flatMap_singleton]
  rfl

theorem lt_of_mem_level (hn : 0 < n) {k i : Nat} (h : i ∈ level n links k) : i < n := by
  cases k with
  | zero => exact List.mem_singleton.1 h ▸ hn
  | succ k =>
    obtain ⟨j, -, hi⟩ := List.mem_flatMap.1 h
    exact of_decide_eq_true (List.mem_filter.1 hi).2

theorem mem_within {k i : Nat} :
    i ∈ within n links k ↔ (∃ m < k, i ∈ level n links m) ∧ i < n := by
  rw [within, mem_fresh, List.mem_flatMap]
  simp only [List.mem_range, List.not_mem_nil, not_false_eq_true, true_and]

/-- The links of what lies within `k` links lie within one link more. -/
theorem mem_within_succ_of_linked {k i j : Nat} (hi : i ∈ within n links k)
    (hj : Linked n links i j) : j ∈ within n links (k + 1) := by
  obtain ⟨⟨m, hm, hi⟩, -⟩ := mem_within.1 hi
  refine mem_within.2 ⟨⟨m + 1, Nat.succ_lt_succ hm, ?_⟩, hj.2⟩
  exact List.mem_flatMap.2 ⟨i, hi, List.mem_filter.2 ⟨hj.1, decide_eq_true hj.2⟩⟩

theorem fresh_filter_lt (visited xs : List Nat) :
    fresh n visited (xs.filter (· < n)) = fresh n visited xs := by
  unfold fresh
  rw [List.filter_filter]
  congr 2
  funext i
  rw [Bool.eq_iff_iff]
  simp only [Bool.and_eq_true, decide_eq_true_eq]
  tauto

/-- A level is new as far as it is linked to what is new in the level before it. -/
theorem fresh_level_succ (hn : 0 < n) (k : Nat) :
    fresh n (within n links (k + 1)) (level n links (k + 1)) =
      fresh n (within n links (k + 1))
        ((fresh n (within n links k) (level n links k)).flatMap links) := by
  have hlevel : level n links (k + 1) = ((level n links k).flatMap links).filter (· < n) := by
    rw [List.filter_flatMap]
    rfl
  rw [hlevel, fresh_filter_lt,
    fresh_flatMap_fresh (fun i hi => lt_of_mem_level hn hi)
      fun i hi j hj => mem_within_succ_of_linked hi hj]

/-- After `k` levels, the links of what is new in the last of them wait. -/
theorem breadthFirst_eq_sweep (hn : 0 < n) (k : Nat) :
    breadthFirst n links =
      sweep n links (fun found waiting => waiting ++ found) (within n links (k + 1))
        ((fresh n (within n links k) (level n links k)).flatMap links) := by
  induction k with
  | zero =>
    rw [within_succ]
    exact sweep_layer [] [0] []
  | succ k ih =>
    have hlayer := @sweep_layer n links (within n links (k + 1))
      ((fresh n (within n links k) (level n links k)).flatMap links) []
    rw [List.append_nil, List.nil_append, ← fresh_level_succ hn, ← within_succ] at hlayer
    rw [ih, hlayer]

/-- As long as the levels hold something new, each of them adds a node. -/
theorem le_length_within_or_fresh_eq_nil (hn : 0 < n) (k : Nat) :
    k ≤ (within n links k).length ∨ fresh n (within n links k) (level n links k) = [] := by
  induction k with
  | zero => exact Or.inl (Nat.zero_le _)
  | succ k ih =>
    by_cases hnil : fresh n (within n links k) (level n links k) = []
    · -- Once a level has nothing new, no later one has.
      refine Or.inr ?_
      rw [fresh_level_succ hn, hnil]
      rfl
    · refine Or.inl ?_
      have hpos := List.length_pos_iff.2 hnil
      have hle := ih.resolve_right hnil
      rw [within_succ, List.length_append]
      omega

/-- There are `n` nodes, so nothing is new after `n` levels. -/
theorem fresh_level_eq_nil (hn : 0 < n) :
    fresh n (within n links n) (level n links n) = [] := by
  rcases @le_length_within_or_fresh_eq_nil n links hn n with hle | hnil
  · -- Without repetition, `n` of the `n` nodes are all of them.
    have hsub : within n links n ⊆ List.range n :=
      fun i hi => List.mem_range.2 (mem_within.1 hi).2
    have hnodup : (within n links n).Nodup := by
      have h := nodup_append_fresh (n := n) List.nodup_nil ((List.range n).flatMap (level n links))
      rwa [List.nil_append] at h
    have hperm := (hnodup.subperm hsub).perm_of_length_le (by rwa [List.length_range])
    refine List.eq_nil_iff_forall_not_mem.2 fun i hi => ?_
    obtain ⟨-, hold, hlt⟩ := mem_fresh.1 hi
    exact hold (hperm.mem_iff.2 (List.mem_range.2 hlt))
  · exact hnil

/-- The order is that of the levels, each node at its first occurrence. -/
theorem breadthFirst_eq_eraseDups :
    breadthFirst n links = ((List.range n).flatMap (level n links)).eraseDups := by
  rcases Nat.eq_zero_or_pos n with rfl | hn
  · rw [breadthFirst, sweep, dif_neg (by simp), sweep]
    rfl
  · have hall : (fun i => decide (i ∉ ([] : List Nat) ∧ i < n)) = fun i => decide (i < n) := by
      simp
    rw [breadthFirst_eq_sweep hn n, fresh_level_eq_nil hn, within_succ, fresh_level_eq_nil hn,
      List.append_nil, List.flatMap_nil, sweep, within, fresh, hall, List.filter_eq_self.2]
    intro i hi
    obtain ⟨k, -, hi⟩ := List.mem_flatMap.1 hi
    exact decide_eq_true (lt_of_mem_level hn hi)

end IdlBridge.Traversal
