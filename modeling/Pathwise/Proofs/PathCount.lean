import Mathlib.Algebra.Ring.Nat
import Pathwise.Proofs.BoundedPaths

/-!
Counting the paths of bounded length.

A frontier counts in how many ways each node is reached. Let a node weigh as much as it has ways on to
the exit: then a frontier weighs as much as the next one, where the ways on are one step shorter
(`weigh_advance`), and what reaches the exit goes over into the sum. So sum and weight together stay the
same (`countFrom_eq`), and at the entry the weight is the number of all paths.
-/

namespace Pathwise

open FlowGraph

variable {g : FlowGraph} {n m : Node} {d : Nat}

/-! ## The weight of a frontier -/

namespace FlowGraph

variable {f : Node → Nat} {frontier : List (Node × Nat)}

/-- The sum of `f` over the nodes of a frontier, each as often as it is counted. -/
def weigh (f : Node → Nat) (frontier : List (Node × Nat)) : Nat :=
  (frontier.map fun w => w.2 * f w.1).sum

/-- No node has two counts. -/
def CountsOnce (frontier : List (Node × Nat)) : Prop := (frontier.map (·.1)).Nodup

theorem weigh_cons (f : Node → Nat) (n : Node) (c : Nat) (frontier : List (Node × Nat)) :
    weigh f ((n, c) :: frontier) = c * f n + weigh f frontier := by
  simp [weigh]

theorem weigh_congr {f' : Node → Nat} (h : ∀ w ∈ frontier, f w.1 = f' w.1) :
    weigh f frontier = weigh f' frontier := by
  refine congrArg List.sum (List.map_congr_left fun w hw => ?_)
  rw [h w hw]

theorem weigh_tally (f : Node → Nat) (n : Node) (c : Nat) (frontier : List (Node × Nat)) :
    weigh f (tally n c frontier) = weigh f frontier + c * f n := by
  induction frontier with
  | nil => simp [tally, weigh]
  | cons w frontier ih =>
    obtain ⟨m, e⟩ := w
    rw [tally]
    split
    · rename_i hm
      subst hm
      rw [weigh_cons, weigh_cons, Nat.add_mul]
      omega
    · rw [weigh_cons, weigh_cons, ih, Nat.add_assoc]

theorem weigh_foldl_tally (f : Node → Nat) (c : Nat) (ns : List Node) (acc : List (Node × Nat)) :
    weigh f (ns.foldl (fun acc m => tally m c acc) acc) = weigh f acc + c * (ns.map f).sum := by
  induction ns generalizing acc with
  | nil => simp
  | cons n ns ih =>
    rw [List.foldl_cons, ih, weigh_tally, List.map_cons, List.sum_cons, Nat.mul_add, Nat.add_assoc]

/-- A frontier one step on weighs what the nodes after those of the old one weigh. -/
theorem weigh_advance (g : FlowGraph) (f : Node → Nat) (frontier : List (Node × Nat)) :
    weigh f (g.advance frontier) = weigh (fun n => ((g.successors n).map f).sum) frontier := by
  have hfold : ∀ acc, weigh f (frontier.foldl
      (fun acc w => (g.successors w.1).foldl (fun acc m => tally m w.2 acc) acc) acc) =
      weigh f acc + weigh (fun n => ((g.successors n).map f).sum) frontier := by
    induction frontier with
    | nil => simp [weigh]
    | cons w frontier ih =>
      intro acc
      rw [List.foldl_cons, ih, weigh_foldl_tally, weigh_cons, Nat.add_assoc]
  rw [advance, hfold, weigh, List.map_nil, List.sum_nil, Nat.zero_add]

theorem mem_map_fst_tally {c : Nat} :
    m ∈ (tally n c frontier).map (·.1) ↔ m = n ∨ m ∈ frontier.map (·.1) := by
  induction frontier with
  | nil => simp [tally]
  | cons w frontier ih =>
    rw [tally]
    split
    · rename_i hn
      subst hn
      simp
    · simp only [List.map_cons, List.mem_cons, ih]
      exact or_left_comm

theorem countsOnce_tally {c : Nat} (h : CountsOnce frontier) : CountsOnce (tally n c frontier) := by
  induction frontier with
  | nil => simp [tally, CountsOnce]
  | cons w frontier ih =>
    obtain ⟨hw, hrest⟩ := List.nodup_cons.1 h
    rw [tally]
    split
    · exact h
    · rename_i hn
      refine List.nodup_cons.2 ⟨?_, ih hrest⟩
      rw [mem_map_fst_tally]
      exact not_or.2 ⟨hn, hw⟩

theorem countsOnce_advance (g : FlowGraph) (frontier : List (Node × Nat)) :
    CountsOnce (g.advance frontier) := by
  unfold advance
  refine List.foldlRecOn (motive := CountsOnce) frontier _ List.nodup_nil ?_
  intro acc hacc w _
  refine List.foldlRecOn (motive := CountsOnce) (g.successors w.1) _ hacc ?_
  intro acc hacc m _
  exact countsOnce_tally hacc

/-- Where no node is counted twice, the weight of one node can be taken out. -/
theorem weigh_eq_lookup_add (f : Node → Nat) (n : Node) (h : CountsOnce frontier) :
    weigh f frontier =
      (frontier.lookup n).getD 0 * f n + weigh f (frontier.filter (·.1 ≠ n)) := by
  induction frontier with
  | nil => simp [weigh]
  | cons w frontier ih =>
    obtain ⟨m, c⟩ := w
    obtain ⟨hw, hrest⟩ := List.nodup_cons.1 h
    by_cases hm : m = n
    · subst hm
      have hself : frontier.filter (·.1 ≠ m) = frontier := by
        refine List.filter_eq_self.2 fun w hmem => ?_
        have hne : w.1 ≠ m := fun heq => hw (List.mem_map.2 ⟨w, hmem, heq⟩)
        simpa using hne
      rw [weigh_cons, List.lookup_cons_self, List.filter_cons_of_neg (by simp), hself]
      rfl
    · rw [List.lookup_cons, beq_eq_false_iff_ne.2 (Ne.symm hm),
        List.filter_cons_of_pos (by simpa using hm), weigh_cons, weigh_cons, ih hrest]
      simp only
      omega

end FlowGraph

/-! ## The number of ways on -/

theorem waysOn_exit (g : FlowGraph) (d : Nat) : g.waysOn d .exit = [[]] := by
  unfold waysOn
  rw [if_pos rfl]

theorem waysOn_zero (hn : n ≠ .exit) : g.waysOn 0 n = [] := by
  unfold waysOn
  rw [if_neg hn]

theorem waysOn_succ (hn : n ≠ .exit) :
    g.waysOn (d + 1) n = (g.exploreOrder n).flatMap fun m => (g.waysOn d m).map (m :: ·) := by
  conv_lhs => unfold waysOn
  rw [if_neg hn]

theorem length_waysOn_succ (hn : n ≠ .exit) :
    (g.waysOn (d + 1) n).length = ((g.successors n).map fun m => (g.waysOn d m).length).sum := by
  rw [waysOn_succ hn, List.length_flatMap]
  simp only [List.length_map]
  exact ((exploreOrder_perm g n).map _).sum_nat

/-- From a frontier that has not come to the exit, every way on is counted. -/
theorem countFrom_eq (g : FlowGraph) (k : Nat) {frontier : List (Node × Nat)}
    (h : ∀ w ∈ frontier, w.1 ≠ .exit) (sum : Nat) :
    g.countFrom k frontier sum = sum + weigh (fun n => (g.waysOn k n).length) frontier := by
  induction k generalizing frontier sum with
  | zero =>
    have hzero : weigh (fun n => (g.waysOn 0 n).length) frontier = 0 := by
      calc weigh (fun n => (g.waysOn 0 n).length) frontier
          = weigh (fun _ => 0) frontier := weigh_congr fun w hw => by rw [waysOn_zero (h w hw)]; rfl
        _ = 0 := by simp [weigh]
    rw [countFrom, hzero, Nat.add_zero]
  | succ k ih =>
    have hstep : weigh (fun n => (g.waysOn (k + 1) n).length) frontier =
        weigh (fun n => (g.waysOn k n).length) (g.advance frontier) := by
      rw [weigh_advance]
      exact weigh_congr fun w hw => length_waysOn_succ (h w hw)
    have hrest : ∀ w ∈ (g.advance frontier).filter (·.1 ≠ .exit), w.1 ≠ .exit := by
      intro w hw
      simpa using (List.mem_filter.1 hw).2
    -- The exit has one way on, so what is taken out for it is what the sum gains.
    rw [hstep, weigh_eq_lookup_add _ .exit (countsOnce_advance g frontier), waysOn_exit, countFrom]
    split
    · rename_i hempty
      rw [List.isEmpty_iff.1 hempty]
      simp [weigh]
    · rw [ih hrest, List.length_singleton, Nat.mul_one, Nat.add_assoc]

/-- The count is the number of paths that the enumeration yields. -/
theorem countPaths_eq_length (g : FlowGraph) (k : Nat) :
    ∃ paths, (g.boundedPaths k).Yields paths ∧ g.countPaths k = paths.length := by
  refine ⟨_, Enumeration.yields_toList _, ?_⟩
  rw [countPaths, countFrom_eq g k (by simp), toList_boundedPaths, List.length_map]
  simp [weigh]

end Pathwise
