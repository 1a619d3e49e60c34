import Pathwise.Proofs.LoopPaths
import Pathwise.Proofs.BoundedPaths
import Pathwise.Proofs.Suite
import Pathwise.Proofs.PathCondition.Kinds

/-!
Which paths have a condition, and why a suite may fail.

A sequence of nodes has a condition if it is a path from the entry to the exit along which no variable
is used at both kinds. The candidates of a suite are paths from the entry to the exit, and the suite
fails where one of those that are tried has no condition, so it fails only at such a variable
(`pathCondition_errors_exact`).
-/

namespace Pathwise

theorem bind_eq_error {ε α β : Type} {r : Except ε α} {f : α → Except ε β} {e : ε} :
    (r >>= f) = .error e ↔ r = .error e ∨ ∃ a, r = .ok a ∧ f a = .error e := by
  cases r with
  | error e' => simp [bind, Except.bind]
  | ok a => simp [bind, Except.bind]

variable {g : FlowGraph} {p : Program} {q : Path} {l : SolveLimits} {e : PathError}

/-! ## Candidates are paths -/

theorem isPathFrom_of_mem_boundedPaths (hg : FlowGraph.ofProgram p = .ok g) {k : Nat}
    (hq : q ∈ (g.boundedPaths k).toList) : g.IsPathFrom .entry .exit q := by
  rw [toList_boundedPaths, List.mem_map] at hq
  obtain ⟨u, hu, rfl⟩ := hq
  exact ((mem_waysOn hg).1 hu).1

theorem isPathFrom_of_mem_loopPaths (hg : FlowGraph.ofProgram p = .ok g) {i : Nat}
    (hq : q ∈ (g.loopPaths i).toList) : g.IsPathFrom .entry .exit q := by
  obtain ⟨t, ht, rfl⟩ := (mem_loopPaths hg).1 hq
  exact (isPathFrom_entry_exit_iff hg).2 ⟨t, ht.isTrace, rfl⟩

theorem isPathFrom_of_mem_candidates (hg : FlowGraph.ofProgram p = .ok g) {b : SuiteLimits}
    {c : Criterion} (hq : q ∈ g.facts.candidates b c) : g.IsPathFrom .entry .exit q := by
  rcases Facts.mem_candidates.1 hq with hq | hq | hq
  · exact isPathFrom_of_mem_boundedPaths hg hq
  · exact isPathFrom_of_mem_loopPaths hg hq
  · cases c with
    | boundedPaths k => exact isPathFrom_of_mem_boundedPaths hg hq
    | loopPaths i => exact isPathFrom_of_mem_loopPaths hg hq
    | _ => cases hq

/-! ## Where solving stops -/

theorem solvePath_eq_error {l : SearchLimits} (h : g.solvePath l q = .error e) :
    g.pathCondition q = .error e := by
  rcases bind_eq_error.1 h with hcond | ⟨c, -, hc⟩
  · exact hcond
  · cases hc

theorem Outcomes.exists_of_foldlM_eq_error {paths : List (Path × Nat)} {s : Outcomes}
    (h : paths.foldlM (fun t (p, n) => do return t.insert p (← g.solvePath (l n) p)) s = .error e) :
    ∃ q ∈ paths, g.pathCondition q.1 = .error e := by
  induction paths generalizing s with
  | nil => cases h
  | cons p paths ih =>
    rw [List.foldlM_cons] at h
    rcases bind_eq_error.1 h with hfirst | ⟨s', -, hrest⟩
    · rcases bind_eq_error.1 hfirst with hsolve | ⟨a, -, ha⟩
      · exact ⟨p, List.mem_cons_self, solvePath_eq_error hsolve⟩
      · cases ha
    · obtain ⟨q, hq, hcond⟩ := ih hrest
      exact ⟨q, List.mem_cons_of_mem p hq, hcond⟩

/-- A suite fails with the error of a candidate that is tried. -/
theorem Facts.generateSuite_eq_error {f : Facts} {b : SuiteLimits} {c : Criterion}
    (h : f.generateSuite b l c = .error e) :
    ∃ q ∈ f.candidates b c, f.graph.pathCondition q = .error e := by
  rcases bind_eq_error.1 h with hsolve | ⟨t, -, ht⟩
  · obtain ⟨⟨q, n⟩, hq, hcond⟩ := Outcomes.exists_of_foldlM_eq_error hsolve
    have hsolved := List.fst_mem_of_mem_zipIdx hq
    rw [ascending_quotas, solvedPaths, mem_ascending, List.mem_flatMap] at hsolved
    obtain ⟨o, -, htried⟩ := hsolved
    exact ⟨q, (mem_meeting.1 (List.mem_of_mem_take htried)).1, hcond⟩
  · cases ht

/-! ## Errors -/

/-- A sequence of nodes has a condition if and only if it leads from the entry to the exit and no variable
is used both as an integer and as a boolean on the way. The error about a variable is returned only
where that variable is so used, and it is the only one that a path from the entry to the exit has. A
suite fails only with this error, at a candidate along which the variable is so used. -/
theorem pathCondition_errors_exact (hg : FlowGraph.ofProgram p = .ok g) :
    (∀ w, (∃ c, g.pathCondition w = .ok c) ↔
      g.IsPathFrom .entry .exit w ∧ ∀ x, ¬ IsMixed (g.kindUses w) x) ∧
    (∀ w x, g.pathCondition w = .error (.mixedKinds x) → IsMixed (g.kindUses w) x) ∧
    (∀ w e, g.IsPathFrom .entry .exit w → g.pathCondition w = .error e → ∃ x, e = .mixedKinds x) ∧
    ∀ b l c e, g.facts.generateSuite b l c = .error e →
      ∃ x, e = .mixedKinds x ∧ ∃ w ∈ g.facts.candidates b c, IsMixed (g.kindUses w) x := by
  have hfan := fan_outgoing hg
  refine ⟨fun w => ⟨?_, ?_⟩, fun w x h => ?_, fun w e hw h => ?_, fun b l c e h => ?_⟩
  · rintro ⟨c, hc⟩
    exact ⟨FlowGraph.isPathFrom_of_pathCondition hc,
      FlowGraph.not_isMixed_of_pathCondition hfan hc⟩
  · rintro ⟨hw, hunmixed⟩
    cases h : g.pathCondition w with
    | ok c => exact ⟨c, rfl⟩
    | error e =>
      obtain ⟨x, -, hx⟩ := hw.eq_mixedKinds (FlowGraph.applies_of_pathCondition hfan h)
      exact absurd hx (hunmixed x)
  · exact FlowGraph.applies_of_pathCondition hfan h
  · obtain ⟨x, hx, -⟩ := hw.eq_mixedKinds (FlowGraph.applies_of_pathCondition hfan h)
    exact ⟨x, hx⟩
  · obtain ⟨w, hw, hcond⟩ := Facts.generateSuite_eq_error h
    obtain ⟨x, hx, hmixed⟩ := (isPathFrom_of_mem_candidates hg hw).eq_mixedKinds
      (FlowGraph.applies_of_pathCondition hfan hcond)
    exact ⟨x, hx, w, hw, hmixed⟩

/-- A flag that is asked as a boolean and written as a number. -/
def flagged : Program :=
  .branch 1 (.var "b") (.assign 2 "b" (.const 0)) .skip

/-- The flag is asked on both ways and written on one of them. -/
theorem pathCondition_errors_exact_flagged : ∃ g, FlowGraph.ofProgram flagged = .ok g ∧
    (∃ c, g.pathCondition [.entry, .point 1, .exit] = .ok c) ∧
    g.pathCondition [.entry, .point 1, .point 2, .exit] = .error (.mixedKinds "b") := by
  have hg : FlowGraph.ofProgram flagged = .ok (FlowGraph.layOut flagged) :=
    ofProgram_of_nodup (by decide)
  obtain ⟨hok, hmixed, honly, -⟩ := pathCondition_errors_exact hg
  have hasked : (FlowGraph.layOut flagged).kindUses [.entry, .point 1, .exit] = [("b", .bool)] := by
    decide +kernel
  have hboth : (FlowGraph.layOut flagged).kindUses [.entry, .point 1, .point 2, .exit] =
      [("b", .bool), ("b", .int)] := by
    decide +kernel
  refine ⟨_, hg, (hok _).2 ⟨⟨rfl, rfl, by decide +kernel⟩, fun x hx => ?_⟩, ?_⟩
  · simp [IsMixed, hasked] at hx
  · cases h : (FlowGraph.layOut flagged).pathCondition [.entry, .point 1, .point 2, .exit] with
    | ok c => exact absurd (by simp [IsMixed, hboth]) (((hok _).1 ⟨c, h⟩).2 "b")
    | error e =>
      obtain ⟨x, rfl⟩ := honly _ e ⟨rfl, rfl, by decide +kernel⟩ h
      obtain rfl : x = "b" := by simpa [IsMixed, hboth] using hmixed _ x h
      rfl

end Pathwise
