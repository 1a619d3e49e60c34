import Pathwise.FlowGraph.Basic

/-!
Which loops lie inside which.

A walk from the entry carries the headers of the loops it is in: it enters a body with the header
added, and goes on behind the loop without it. Bodies are walked before what follows the loop, and a
node counts where it is first met.
-/

namespace Pathwise.FlowGraph

/-- How many nodes of the graph are still to be visited. -/
def unvisited (g : FlowGraph) (visited : List Node) : Nat :=
  (g.nodes.filter (· ∉ visited)).length

theorem filter_notMem_cons_le (n : Node) (visited : List Node) (l : List Node) :
    (l.filter (· ∉ n :: visited)).length ≤ (l.filter (· ∉ visited)).length := by
  induction l with
  | nil => simp
  | cons a l ih =>
    by_cases ha : a ∈ visited
    · simpa [ha] using ih
    · by_cases hn : a = n
      · simp only [hn, List.mem_cons, true_or, not_true_eq_false, decide_false,
          Bool.false_eq_true, not_false_eq_true, List.filter_cons_of_neg]
        exact Nat.le_trans (by simpa using ih) (List.Sublist.length_le
          (List.Sublist.filter _ (List.sublist_cons_self n l)))
      · simpa [ha, hn] using ih

theorem unvisited_cons_lt {g : FlowGraph} {n : Node} {visited : List Node}
    (hn : n ∈ g.nodes) (hv : n ∉ visited) : g.unvisited (n :: visited) < g.unvisited visited := by
  unfold unvisited
  generalize g.nodes = l at hn
  induction l with
  | nil => cases hn
  | cons a l ih =>
    by_cases ha : a = n
    · subst ha
      have := filter_notMem_cons_le a visited l
      simp only [List.mem_cons, true_or, not_true_eq_false, decide_false, Bool.false_eq_true,
        not_false_eq_true, List.filter_cons_of_neg, hv, decide_true,
        List.filter_cons_of_pos, List.length_cons]
      simpa using Nat.lt_succ_of_le this
    · have hl : n ∈ l := by
        rcases List.mem_cons.1 hn with h | h
        · exact absurd h.symm ha
        · exact h
      have := ih hl
      by_cases hav : a ∈ visited
      · simpa [hav] using this
      · simpa [hav, ha] using this

/-- The pairs of a loop header and a header inside its loop, as the walk meets them. Each entry of the
stack is a node to visit and the headers of the loops around it. -/
def nestedPairs (g : FlowGraph) (visited : List Node) :
    List (Node × List Node) → List (Node × Node)
  | [] => []
  | (n, around) :: stack =>
    if _h : n ∈ g.nodes ∧ n ∉ visited then
      match g.loopBody? n, g.loopExit? n with
      | some body, some behind =>
        around.map (·, n) ++
          g.nestedPairs (n :: visited) ((body, n :: around) :: (behind, around) :: stack)
      | _, _ => g.nestedPairs (n :: visited) ((g.successors n).map (·, around) ++ stack)
    else g.nestedPairs visited stack
termination_by stack => (g.unvisited visited, stack.length)
decreasing_by
  · exact Prod.Lex.left _ _ (unvisited_cons_lt _h.1 _h.2)
  · exact Prod.Lex.left _ _ (unvisited_cons_lt _h.1 _h.2)
  · exact Prod.Lex.right _ (Nat.lt_succ_self _)

def loopHeaders (g : FlowGraph) : List Node :=
  ascending (g.nodes.filter g.isLoopHeader)

/-- Each loop header with the headers of the loops inside its body, at any depth. -/
def nestedLoops (g : FlowGraph) : List (Node × List Node) :=
  let pairs := g.nestedPairs [] [(.entry, [])]
  g.loopHeaders.map fun h => (h, ascending ((pairs.filter (·.1 = h)).map (·.2)))

end Pathwise.FlowGraph
