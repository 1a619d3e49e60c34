import Pathwise.Coverage.Report
import Pathwise.Proofs.DataFlow
import Pathwise.Proofs.Distance
import Pathwise.Proofs.Stretch

/-!
Covering the paths with bounded loops covers the rest of the graph.

A single node and a single arc pass nothing between their ends, and a path from a definition to a use
passes no node twice. So the first two are part of a path on which every loop runs at most once, and the
third of one on which every loop runs at most twice; whoever has executed these paths has met what the
other criteria ask for.
-/

namespace Pathwise

open FlowGraph

variable {g : FlowGraph} {p : Program} {executed : List Path} {i : Nat} {n m : Node}

/-! ## Parts of a path -/

theorem occursIn_iff_infix {α : Type} [BEq α] [LawfulBEq α] {xs ys : List α} :
    occursIn ys xs = true ↔ ys <:+: xs := by
  induction xs with
  | nil => simp [occursIn]
  | cons x xs ih =>
    rw [occursIn, Bool.or_eq_true, ih, List.isPrefixOf_iff_prefix, List.infix_cons_iff]

theorem mem_arcs_of_infix {q : Path} (h : [n, m] <:+: q) : ⟨n, m⟩ ∈ q.arcs := by
  obtain ⟨s, t, rfl⟩ := h
  induction s with
  | nil => simp [Path.arcs]
  | cons a s ih => cases s <;> simp_all [Path.arcs]

/-! ## Complete reports -/

theorem Report.isComplete_ofDifference {α : Type} [DecidableEq α] [Ord α] [Std.TransOrd α]
    [Std.LawfulEqOrd α] {c : Criterion} {expected met : List α} :
    (Report.ofDifference c expected met).isComplete = true ↔ ∀ a ∈ expected, a ∈ met := by
  simp [Report.isComplete, Report.ofDifference, without_eq_filter]

theorem isComplete_loopPathReport : (g.facts.loopPathReport executed i).isComplete = true ↔
    ∀ q ∈ (g.loopPaths i).toList, q ∈ executed := by
  rw [Facts.loopPathReport, Report.isComplete_ofDifference]
  exact forall_congr' fun q => imp_congr_left mem_ascending

theorem isComplete_duPathReport : (g.facts.duPathReport executed).isComplete = true ↔
    ∀ d ∈ g.duPaths, ∃ q ∈ executed, d.path <:+: q := by
  simp [Report.isComplete, Facts.duPathReport, FlowGraph.facts, occursIn_iff_infix]

/-! ## What the criteria expect -/

theorem mem_nodes_of_mem_assignmentNodes (hg : FlowGraph.ofProgram p = .ok g)
    (hn : n ∈ g.assignmentNodes) : n ∈ g.nodes := by
  obtain ⟨e, he, rfl⟩ := List.mem_map.1 (mem_ascending.1 hn)
  exact source_mem_nodes hg (List.mem_filter.1 he).1

theorem isPathFrom_of_mem_decisionArcs (hg : FlowGraph.ofProgram p = .ok g) {a : Arc}
    (ha : a ∈ g.decisionArcs) :
    a.source ∈ g.nodes ∧ g.IsPathFrom a.source a.target [a.source, a.target] := by
  obtain ⟨e, he, rfl⟩ := List.mem_map.1 (mem_ascending.1 ha)
  have hedge := (List.mem_filter.1 he).1
  exact ⟨source_mem_nodes hg hedge,
    (IsPathFrom.single _).cons (mem_successors.2 ⟨e, mem_outgoing.2 ⟨hedge, rfl⟩, rfl⟩)⟩

theorem mem_nodes_of_mem_within (hg : FlowGraph.ofProgram p = .ok g) {k : Nat}
    (hn : n ∈ g.facts.within k) : n ∈ g.nodes := by
  obtain ⟨q, hq, rfl⟩ := List.mem_map.1 hn
  have hkey : q.1 ∈ g.distances.map (·.1) := List.mem_map_of_mem (List.mem_filter.1 hq).1
  rw [map_fst_distances hg] at hkey
  exact mem_ascending.1 hkey

/-! ## Subsumption -/

theorem exists_executed_of_isComplete (hg : FlowGraph.ofProgram p = .ok g)
    (hloops : (g.facts.loopPathReport executed i).isComplete = true) (hn : n ∈ g.nodes) {w : Path}
    (hw : g.IsPathFrom n m w) (hpass : PassesBelow i w) : ∃ q ∈ executed, w <:+: q := by
  obtain ⟨q, hq, hwq⟩ := exists_loopPath_of_isPathFrom hg hn hw hpass
  exact ⟨q, isComplete_loopPathReport.1 hloops q hq, hwq⟩

theorem mem_flatten_of_isComplete (hg : FlowGraph.ofProgram p = .ok g) (hi : 1 ≤ i)
    (hloops : (g.facts.loopPathReport executed i).isComplete = true) (hn : n ∈ g.nodes) :
    n ∈ executed.flatten := by
  obtain ⟨q, hq, hnq⟩ := exists_executed_of_isComplete hg hloops hn (.single n) fun _ => hi
  exact List.mem_flatten.2 ⟨q, hq, hnq.subset List.mem_cons_self⟩

theorem exists_loopPath_of_mem_duPaths (hg : FlowGraph.ofProgram p = .ok g) (hi : 2 ≤ i) {d : DuPath}
    (hd : d ∈ g.duPaths) : ∃ q ∈ (g.loopPaths i).toList, d.path <:+: q := by
  obtain ⟨x, w⟩ := d
  obtain ⟨n, between, m, rfl, hpath, hcarries, hnodup⟩ := (mem_duPaths_iff hg).1 hd
  refine exists_loopPath_of_isPathFrom hg (mem_nodes_of_mem_defs hg hcarries.defined)
    (isPathFrom_of_isPath hpath) (passesBelow_of_nodup hi ?_)
  simpa using hnodup

/-- Whoever covers the paths on which every loop runs at most once covers all assignments, all decisions
and all nodes at every distance. Every path from a definition to a use is part of a path on which every
loop runs at most twice, so whoever covers these covers the definitions and uses as well. -/
theorem loopPathReport_subsumes (hg : FlowGraph.ofProgram p = .ok g) (executed : List Path) :
    (∀ i, 1 ≤ i → (g.facts.loopPathReport executed i).isComplete = true →
      (g.facts.assignmentReport executed).isComplete = true ∧
      (g.facts.decisionReport executed).isComplete = true ∧
      ∀ k, (g.facts.distanceReport executed k).isComplete = true) ∧
    ∀ i, 2 ≤ i → (∀ d ∈ g.facts.duPaths, ∃ q ∈ (g.loopPaths i).toList, d.path <:+: q) ∧
      ((g.facts.loopPathReport executed i).isComplete = true →
        (g.facts.duPathReport executed).isComplete = true) := by
  refine ⟨fun i hi hloops => ⟨?_, ?_, fun k => ?_⟩,
    fun i hi => ⟨fun d hd => exists_loopPath_of_mem_duPaths hg hi hd, fun hloops => ?_⟩⟩
  · refine Report.isComplete_ofDifference.2 fun n hn => ?_
    exact mem_flatten_of_isComplete hg hi hloops (mem_nodes_of_mem_assignmentNodes hg hn)
  · refine Report.isComplete_ofDifference.2 fun a ha => ?_
    obtain ⟨hs, hpath⟩ := isPathFrom_of_mem_decisionArcs hg ha
    obtain ⟨q, hq, haq⟩ := exists_executed_of_isComplete hg hloops hs hpath fun _ => hi
    exact List.mem_flatMap.2 ⟨q, hq, mem_arcs_of_infix haq⟩
  · refine Report.isComplete_ofDifference.2 fun n hn => ?_
    exact mem_flatten_of_isComplete hg hi hloops (mem_nodes_of_mem_within hg hn)
  · refine isComplete_duPathReport.2 fun d hd => ?_
    obtain ⟨q, hq, hdq⟩ := exists_loopPath_of_mem_duPaths hg hi hd
    exact ⟨q, isComplete_loopPathReport.1 hloops q hq, hdq⟩

/-- What the outer of two loops writes at the end of a round, the inner one reads in the next. -/
def mill : Program :=
  .seq (.input 1 "n") (.loop 2 (.cmp .lt (.const 0) (.var "n")) (.seq
    (.loop 3 (.cmp .lt (.var "n") (.const 9)) (.print 4 (.var "y")))
    (.assign 5 "y" (.var "n"))))

/-- With at most one round, a loop is left at once or goes round once. -/
theorem exists_rounds_le_one_iff {l : Label} {L : List Label → Prop} {t : List Label} :
    (∃ rounds : List (List Label), rounds.length ≤ 1 ∧ (∀ r ∈ rounds, L r) ∧
      t = rounds.flatMap (l :: ·) ++ [l]) ↔ t = [l] ∨ ∃ r, L r ∧ t = l :: r ++ [l] := by
  constructor
  · rintro ⟨rounds, hlen, hL, rfl⟩
    match rounds, hlen with
    | [], _ => simp
    | [r], _ => simpa using hL
  · rintro (rfl | ⟨r, hr, rfl⟩)
    · exact ⟨[], by simp⟩
    · exact ⟨[r], by simpa⟩

/-- For the way from the definition at 5 to the use at 4 one round of each loop is not enough. -/
theorem loopPathReport_subsumes_mill : ∃ g, FlowGraph.ofProgram mill = .ok g ∧
    (g.facts.decisionReport (g.loopPaths 1).toList).isComplete = true ∧
    (g.facts.duPathReport (g.loopPaths 1).toList).isComplete = false ∧
    (g.facts.duPathReport (g.loopPaths 2).toList).isComplete = true := by
  have hg : FlowGraph.ofProgram mill = .ok (FlowGraph.layOut mill) := ofProgram_of_nodup (by decide)
  have hloops : ∀ i, ((FlowGraph.layOut mill).facts.loopPathReport
      ((FlowGraph.layOut mill).loopPaths i).toList i).isComplete = true :=
    fun i => isComplete_loopPathReport.2 fun q hq => hq
  have hdu : ⟨"y", [.point 5, .point 2, .point 3, .point 4]⟩ ∈ (FlowGraph.layOut mill).duPaths := by
    decide +kernel
  refine ⟨_, hg, ?_, Bool.eq_false_iff.2 fun hone => ?_, ?_⟩
  · exact ((loopPathReport_subsumes hg _).1 1 (by decide) (hloops 1)).2.1
  · obtain ⟨q, hq, hin⟩ := isComplete_duPathReport.1 hone _ hdu
    obtain ⟨t, ht, rfl⟩ := (mem_loopPaths hg).1 hq
    -- the only traces on which no loop goes round twice
    replace ht : t = [1, 2] ∨ t = [1, 2, 3, 5, 2] ∨ t = [1, 2, 3, 4, 3, 5, 2] := by
      simpa [mill, Program.IsTraceWithin, exists_rounds_le_one_iff] using ht
    rw [← occursIn_iff_infix] at hin
    rcases ht with rfl | rfl | rfl <;> exact absurd hin (by decide)
  · exact ((loopPathReport_subsumes hg _).2 2 (by decide)).2 (hloops 2)

end Pathwise
