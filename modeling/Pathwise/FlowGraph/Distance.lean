import Pathwise.FlowGraph.Basic

/-!
Distances from the entry, found breadth first. A node that is met is entered with its distance and waits in
a queue until the search goes on from it.
-/

namespace Pathwise.FlowGraph

/-- Enter those of the nodes that are not met yet with the distance `d`, and put them at the end of the
queue. -/
def meet (d : Nat) : List Node → List (Node × Nat) → List Node → List (Node × Nat) × List Node
  | [], met, queue => (met, queue)
  | n :: ns, met, queue =>
    if (met.lookup n).isSome then meet d ns met queue else meet d ns ((n, d) :: met) (queue ++ [n])

/-- How many edges lead to nodes that are not met yet. -/
def unmet (g : FlowGraph) (met : List (Node × Nat)) : Nat :=
  g.edges.countP fun e => (met.lookup e.target).isNone

theorem exists_edge_of_mem_successors {g : FlowGraph} {n m : Node} (h : m ∈ g.successors n) :
    ∃ e ∈ g.edges, e.target = m := by
  simp only [successors, List.mem_eraseDups, List.mem_map] at h
  obtain ⟨e, he, rfl⟩ := h
  refine ⟨e, ?_, rfl⟩
  simp only [outgoing, List.mem_append, List.mem_filter] at he
  rcases he with he | he
  · exact he.1.1
  · exact he.1.1

theorem lookup_cons_eq_ite (n m : Node) (d : Nat) (met : List (Node × Nat)) :
    ((m, d) :: met).lookup n = if n = m then some d else met.lookup n := by
  rw [List.lookup_cons]
  by_cases h : n = m
  · rw [if_pos h, beq_iff_eq.2 h]
  · rw [if_neg h, beq_false_of_ne h]

theorem unmet_cons_lt {g : FlowGraph} {n : Node} {met : List (Node × Nat)}
    (hn : ∃ e ∈ g.edges, e.target = n) (hnone : met.lookup n = none) (d : Nat) :
    g.unmet ((n, d) :: met) < g.unmet met := by
  obtain ⟨e, he, rfl⟩ := hn
  have hle : ∀ l : List Edge, (l.countP fun e' => (((e.target, d) :: met).lookup e'.target).isNone) ≤
      l.countP fun e' => (met.lookup e'.target).isNone := by
    intro l
    refine List.countP_mono_left fun e' _ h => ?_
    rw [lookup_cons_eq_ite] at h
    split at h
    · cases h
    · exact h
  obtain ⟨before, after, hsplit⟩ := List.append_of_mem he
  have hbefore := hle before
  have hafter := hle after
  simp only [unmet, hsplit, List.countP_append, List.countP_cons, hnone, List.lookup_cons_self,
    Option.isNone_some, Option.isNone_none, Bool.false_eq_true, if_true, if_false]
  omega

/-- A node that is put in the queue was not met before, so the queue is not put off. -/
theorem unmet_meet_le {g : FlowGraph} {d : Nat} {ns : List Node}
    (hns : ∀ n ∈ ns, ∃ e ∈ g.edges, e.target = n) (met : List (Node × Nat)) (queue : List Node) :
    g.unmet (meet d ns met queue).1 + (meet d ns met queue).2.length ≤ g.unmet met + queue.length := by
  induction ns generalizing met queue with
  | nil => exact Nat.le_refl _
  | cons n ns ih =>
    have hrest : ∀ n ∈ ns, ∃ e ∈ g.edges, e.target = n := fun m hm => hns m (List.mem_cons_of_mem n hm)
    rw [meet]
    split
    · exact ih hrest met queue
    · rename_i hnone
      have hlt := unmet_cons_lt (hns n List.mem_cons_self) (Option.not_isSome_iff_eq_none.1 hnone) d
      have hle := ih hrest ((n, d) :: met) (queue ++ [n])
      rw [List.length_append, List.length_singleton] at hle
      omega

/-- Go on from the nodes in the queue in turn, each of which is met. -/
def explore (g : FlowGraph) (met : List (Node × Nat)) (queue : List Node) : List (Node × Nat) :=
  match queue with
  | [] => met
  | n :: queue =>
    let found := meet ((met.lookup n).getD 0 + 1) (g.successors n) met queue
    g.explore found.1 found.2
  termination_by g.unmet met + queue.length
  decreasing_by
    have hle := unmet_meet_le (d := (met.lookup n).getD 0 + 1)
      (fun m (hm : m ∈ g.successors n) => exists_edge_of_mem_successors hm) met queue
    rw [List.length_cons]
    omega

/-- The nodes that can be reached from the entry, each with the least number of steps that reach it. -/
def distances (g : FlowGraph) : List (Node × Nat) :=
  let met := g.explore [(.entry, 0)] [.entry]
  (ascending (met.map (·.1))).filterMap fun n => (met.lookup n).map (n, ·)

end Pathwise.FlowGraph
