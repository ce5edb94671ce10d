/-! # Traversals of finite graphs

    The nodes of a graph are numbers below `n`, and `links` gives the neighbours of a node in
    order. `sweep` visits every node that can be reached from a list of nodes once. The order of
    the visit is decided by how the neighbours of a node are put together with the nodes that
    still wait: in front of them for a depth-first preorder, behind them for a breadth-first one.
-/

namespace IdlBridge.Traversal

/-- The nodes that have not been visited. -/
def unvisited (n : Nat) (visited : List Nat) : List Nat :=
  (List.range n).filter (· ∉ visited)

theorem length_unvisited_lt {n i : Nat} {visited : List Nat} (hi : i < n) (hv : i ∉ visited) :
    (unvisited n (visited ++ [i])).length < (unvisited n visited).length := by
  unfold unvisited
  have hsub : (List.range n).filter (· ∉ visited ++ [i]) =
      ((List.range n).filter (· ∉ visited)).filter (· ≠ i) := by
    rw [List.filter_filter]
    congr 1
    funext j
    simp only [List.mem_append, List.mem_singleton, not_or, Bool.decide_and, Bool.and_comm,
      ne_eq]
  rw [hsub]
  refine List.length_filter_lt_length_iff_exists.2 ⟨i, ?_, by simp⟩
  simp [hi, hv]

set_option linter.unusedVariables false in
/-- Visits the waiting nodes and what can be reached from them, `visited` apart. -/
def sweep (n : Nat) (links : Nat → List Nat) (join : (found waiting : List Nat) → List Nat)
    (visited : List Nat) : (waiting : List Nat) → List Nat
  | [] => visited
  | i :: waiting =>
    if h : i ∉ visited ∧ i < n then
      sweep n links join (visited ++ [i]) (join (links i) waiting)
    else sweep n links join visited waiting
termination_by waiting => ((unvisited n visited).length, waiting.length)
decreasing_by
  · exact Prod.Lex.left _ _ (length_unvisited_lt h.2 h.1)
  · exact Prod.Lex.right _ (by simp)

/-- The nodes that can be reached from node 0, each before its neighbours, which come in order with
    everything that is reached through them. -/
def preorder (n : Nat) (links : Nat → List Nat) : List Nat :=
  sweep n links (fun found waiting => found ++ waiting) [] [0]

/-- The nodes that can be reached from node 0, nearer ones first. -/
def breadthFirst (n : Nat) (links : Nat → List Nat) : List Nat :=
  sweep n links (fun found waiting => waiting ++ found) [] [0]

end IdlBridge.Traversal
