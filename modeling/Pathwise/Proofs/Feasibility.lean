import Mathlib.Data.List.Nodup
import Pathwise.TestCase
import Pathwise.Proofs.Constraint.Search
import Pathwise.Proofs.PathCondition.Exactness

/-!
What the solver's answer about a path says of the program.

A model of the path's condition is read off as a test case, which gives the symbols their values back:
so the test meets the condition and the graph walks along the path (`walk_of_feasible`). A walk along
the path meets the condition and completes to a model, so there is none if the condition has no model
(`not_walk_of_infeasible`).
-/

namespace Pathwise

namespace PathCondition

variable {c : PathCondition} {μ : Model} {m : Machine} {q : String × SymbolId}

/-! ## The test case of a model -/

theorem Listed.get?_initial (hc : c.Listed) (p : Path) {v : Value} (hq : q ∈ c.initial)
    (hv : μ.get? q.2 = some v) : (c.testCase p μ).initial.get? q.1 = some v := by
  have hget : (c.testCase p μ).initial =
      .ofList (c.initial.filterMap fun q => (μ.get? q.2).map (q.1, ·)) := rfl
  rw [hget]
  rcases Env.get?_ofList (c.initial.filterMap fun q => (μ.get? q.2).map (q.1, ·)) q.1 with
    ⟨u, hu, hget⟩ | ⟨hnone, -⟩
  · obtain ⟨q', hq', hpair⟩ := List.mem_filterMap.1 hu
    obtain ⟨w, hw, hxw⟩ := Option.map_eq_some_iff.1 hpair
    obtain ⟨hx, rfl⟩ := Prod.mk.inj hxw
    rw [List.inj_on_of_nodup_map hc.nodup hq' hq hx, hv] at hw
    rw [hget, hw]
  · refine absurd (List.mem_filterMap.2 ⟨q, hq, ?_⟩) (hnone v)
    rw [hv]
    rfl

theorem Listed.int?_input (hc : c.Listed) (hμ : c.problem.Solves μ) (hq : q ∈ c.inputs) :
    ∃ n, μ.int? q.2 = some n ∧ μ.get? q.2 = some (.int n) := by
  obtain ⟨j, hj⟩ := List.getElem?_of_mem hq
  obtain ⟨ho, hk⟩ := hc.inputs j q hj
  obtain ⟨v, hv, hvk⟩ := hμ.kinds q.2 (Problem.lt_of_originOf? ho)
  rw [hk] at hvk
  cases v with
  | int n => exact ⟨n, Model.int?_eq_some.2 hv, hv⟩
  | bool b => cases hvk

theorem Listed.inputs_testCase (hc : c.Listed) (p : Path) (hμ : c.problem.Solves μ) :
    (c.testCase p μ).inputs.map some = c.inputs.map fun q => μ.int? q.2 := by
  have hmap : ∀ qs : List (String × SymbolId), (∀ q ∈ qs, q ∈ c.inputs) →
      (qs.filterMap fun q => μ.int? q.2).map some = qs.map fun q => μ.int? q.2 := by
    intro qs hqs
    induction qs with
    | nil => rfl
    | cons q qs ih =>
      obtain ⟨n, hn, -⟩ := hc.int?_input hμ (hqs q (by simp))
      simp [hn, ih fun q' hq' => hqs q' (by simp [hq'])]
  exact hmap c.inputs fun _ => id

theorem Listed.length_inputs_testCase (hc : c.Listed) (p : Path) (hμ : c.problem.Solves μ) :
    (c.testCase p μ).inputs.length = c.inputs.length := by
  simpa using congrArg List.length (hc.inputs_testCase p hμ)

theorem Listed.getElem?_inputs_testCase (hc : c.Listed) (p : Path) (hμ : c.problem.Solves μ)
    {j : Nat} {n : Int64} (hq : c.inputs[j]? = some q) (hn : μ.get? q.2 = some (.int n)) :
    (c.testCase p μ).inputs[j]? = some n := by
  have h := congrArg (·[j]?) (hc.inputs_testCase p hμ)
  simpa [hq, Model.int?_eq_some.2 hn] using h

/-- The test case of a solution supplies the condition. -/
theorem supplied_testCase (hc : c.Made) (p : Path) (hμ : c.problem.Solves μ) :
    c.Supplied (c.testCase p μ).machine where
  bound q hq := by
    obtain ⟨v, hv, hk⟩ := hμ.kinds q.2 (Problem.lt_of_originOf? (hc.listed.initial q hq))
    exact ⟨v, hc.listed.get?_initial p hq hv, hk⟩
  enough := Nat.le_of_eq (hc.listed.length_inputs_testCase p hμ).symm

/-- The test case gives the free symbols the values of the solution. -/
theorem get?_given_testCase (hc : c.Made) (p : Path) (hμ : c.problem.Solves μ) {s : SymbolId}
    (hs : s ∈ c.problem.free) : (c.given (c.testCase p μ).machine).get? s = μ.get? s := by
  have hreflects := reflects_given (m := (c.testCase p μ).machine) hc.listed
  rcases hc.mem_free_iff.1 hs with hs | hs
  · obtain ⟨q, hq, rfl⟩ := List.mem_map.1 hs
    obtain ⟨v, hv, -⟩ := hμ.kinds q.2 (Problem.lt_of_originOf? (hc.listed.initial q hq))
    rw [hreflects.initial q hq v (hc.listed.get?_initial p hq hv), hv]
  · obtain ⟨q, hq, rfl⟩ := List.mem_map.1 hs
    obtain ⟨n, -, hn⟩ := hc.listed.int?_input hμ hq
    obtain ⟨j, hj⟩ := List.getElem?_of_mem hq
    rw [hreflects.inputs j q n hj (hc.listed.getElem?_inputs_testCase p hμ hj hn), hn]

/-- The test case of a solution meets the condition. -/
theorem exists_meets_testCase (hc : c.Made) (p : Path) (hμ : c.problem.Solves μ) :
    ∃ μ', c.Meets (c.testCase p μ).machine
      (c.problem.fill (c.given (c.testCase p μ).machine)) μ' := by
  have hcomplete := hμ.complete_ne_none hc.wellFormed fun s hs =>
    get?_given_testCase hc p hμ hs
  obtain ⟨μ', hμ'⟩ := Option.ne_none_iff_exists'.1 hcomplete
  exact ⟨μ', meets_given_iff.2 ⟨supplied_testCase hc p hμ, hμ'⟩⟩

/-! ## The solution of a run -/

theorem kind_of_given (hc : c.Listed) (hs : c.Supplied m) {s : SymbolId} {v : Value}
    (hv : (c.given m).get? s = some v) : v.kind = c.problem.kindOf s := by
  rcases cases_of_given hv with ⟨x, hx, hxv⟩ | ⟨j, x, n, hj, -, rfl⟩
  · obtain ⟨u, hu, hk⟩ := hs.bound _ hx
    rw [hxv] at hu
    cases hu
    exact hk
  · exact (hc.inputs j _ hj).2.symm

/-- What meets the condition solves its problem. -/
theorem Meets.solves (hc : c.Made) (h : c.Meets m (c.problem.fill (c.given m)) μ) :
    c.problem.Solves μ :=
  Problem.solves_of_complete hc.wellFormed (fun _ _ _ => kind_of_given hc.listed h.supplied) h.leads

end PathCondition

open PathCondition

variable {prog : Program} {g : FlowGraph} {l : SearchLimits} {p : Path}

theorem solvePath_eq_ok {a : Feasibility} (h : g.solvePath l p = .ok a) :
    ∃ c, g.pathCondition p = .ok c ∧ a = match c.problem.solve l with
      | .sat m => .feasible (c.testCase p m)
      | .unsat => .infeasible
      | .unknown d => .unknown d := by
  obtain ⟨c, hc, ha⟩ := bind_eq_ok.1 h
  cases ha
  exact ⟨c, hc, rfl⟩

theorem walk_of_feasible (hg : FlowGraph.ofProgram prog = .ok g) {t : TestCase}
    (h : g.solvePath l p = .ok (.feasible t)) :
    ∃ w r, p = w ++ [.exit] ∧ g.Walk .entry t.machine w .exit r ∧ r.inputs = [] := by
  obtain ⟨c, hc, ht⟩ := solvePath_eq_ok h
  obtain ⟨w, rfl⟩ := exists_of_pathCondition hc
  split at ht
  · rename_i μ hμ
    cases ht
    have hfan := fan_outgoing hg
    have hmade : c.Made := ⟨_, grows_pathCondition hfan hc⟩
    have hsolves := Problem.solves_of_solve_eq_sat hmade.wellFormed hμ
    obtain ⟨μ', hmeets⟩ := exists_meets_testCase hmade (w ++ [.exit]) hsolves
    have hyields := yields_pathCondition hfan hc (c.testCase (w ++ [.exit]) μ).machine
    obtain ⟨r, hr⟩ := hyields.outcome hmeets
    obtain ⟨_, _, htracks⟩ := hyields.meets hr
    refine ⟨w, r, rfl, hr, ?_⟩
    rw [htracks.inputs, List.drop_eq_nil_iff]
    exact Nat.le_of_eq (hmade.listed.length_inputs_testCase (w ++ [.exit]) hsolves)
  · cases ht
  · cases ht

theorem not_walk_of_infeasible (hg : FlowGraph.ofProgram prog = .ok g)
    (h : g.solvePath l p = .ok .infeasible) {w : Path} (hp : p = w ++ [.exit]) (m r : Machine) :
    ¬ g.Walk .entry m w .exit r := by
  intro hw
  obtain ⟨c, hc, ht⟩ := solvePath_eq_ok h
  subst hp
  split at ht
  · cases ht
  · rename_i hunsat
    have hfan := fan_outgoing hg
    have hmade : c.Made := ⟨_, grows_pathCondition hfan hc⟩
    obtain ⟨μ, hmeets, -⟩ := (yields_pathCondition hfan hc m).meets hw
    exact Problem.not_solves_of_solve_eq_unsat hmade.wellFormed hunsat (hmeets.solves hmade)
  · cases ht

theorem path_of_feasible {t : TestCase} (h : g.solvePath l p = .ok (.feasible t)) : t.path = p := by
  obtain ⟨c, -, ht⟩ := solvePath_eq_ok h
  split at ht
  · cases ht
    rfl
  · cases ht
  · cases ht

theorem result_runTest (hg : FlowGraph.ofProgram prog = .ok g) {t : TestCase}
    (h : g.solvePath l p = .ok (.feasible t)) {limit : Nat} (hl : p.length - 1 ≤ limit) :
    (g.runTest limit t).result = .ok p := by
  obtain ⟨w, r, rfl, hw, -⟩ := walk_of_feasible hg h
  rw [FlowGraph.runTest, FlowGraph.run_of_walk_exit (outgoing_exit hg) hw (by simpa using hl)]

theorem result_run_ne (hg : FlowGraph.ofProgram prog = .ok g) (h : g.solvePath l p = .ok .infeasible)
    (limit : Nat) (m : Machine) : (g.run limit m).result ≠ .ok p := by
  intro hrun
  obtain ⟨w, hw, -, hp⟩ := FlowGraph.walk_of_run (r := (g.run limit m).machine) (by rw [← hrun])
  exact not_walk_of_infeasible hg h hp m _ hw

/-- A test that is found for a path takes the path: with enough steps it runs along it to the exit, and
no input is left over. -/
theorem runTest_of_feasible (hp : prog.labels.Nodup) : ∃ g, FlowGraph.ofProgram prog = .ok g ∧
    ∀ (l : SearchLimits) (p : Path) (t : TestCase), g.solvePath l p = .ok (.feasible t) →
      ∀ limit, p.length - 1 ≤ limit → ∃ r, g.runTest limit t = ⟨r, .ok p⟩ ∧ r.inputs = [] := by
  have hg := ofProgram_of_nodup hp
  refine ⟨_, hg, fun l p t h limit hl => ?_⟩
  obtain ⟨w, r, rfl, hw, hin⟩ := walk_of_feasible hg h
  exact ⟨r, FlowGraph.run_of_walk_exit (outgoing_exit hg) hw (by simpa using hl), hin⟩

/-- Read a number, and where the strict flag is set print it if it is above five and divides twenty. -/
def divisor : Program :=
  .seq (.input 1 "x")
    (.branch 2 (.logic .and (.cmp .gt (.var "x") (.const 5)) (.var "strict"))
      (.branch 3 (.cmp .eq (.binary .mod (.const 20) (.var "x")) (.const 0))
        (.print 4 (.var "x")) .skip)
      .skip)

def divisorPath : Path := [.entry, .point 1, .point 2, .point 3, .point 4, .exit]

theorem runTest_of_feasible_divisor : divisor.labels.Nodup ∧ ∃ g t r,
    FlowGraph.ofProgram divisor = .ok g ∧ g.solvePath {} divisorPath = .ok (.feasible t) ∧
    t.inputs = [10] ∧ g.runTest 5 t = ⟨r, .ok divisorPath⟩ ∧ r.inputs = [] := by
  have hp : divisor.labels.Nodup := by decide
  obtain ⟨g, hg, h⟩ := runTest_of_feasible hp
  obtain rfl := (ofProgram_eq_ok_iff.1 hg).2
  have ht : (FlowGraph.layOut divisor).solvePath {} divisorPath = .ok (.feasible
      ⟨divisorPath, .ofList [("strict", .bool true)], [10], ["x"]⟩) :=
    toOption_eq_some.1 (by decide +kernel)
  obtain ⟨r, hr, hin⟩ := h _ _ _ ht 5 (by decide)
  exact ⟨hp, _, _, r, hg, ht, rfl, hr, hin⟩

/-- A path that is found infeasible is not taken from any start, with any inputs, in any number of
steps. -/
theorem run_ne_of_infeasible (hp : prog.labels.Nodup) : ∃ g, FlowGraph.ofProgram prog = .ok g ∧
    ∀ (l : SearchLimits) (p : Path), g.solvePath l p = .ok .infeasible →
      ∀ (limit : Nat) (m : Machine), (g.run limit m).result ≠ .ok p := by
  have hg := ofProgram_of_nodup hp
  refine ⟨_, hg, fun l p h limit m hrun => ?_⟩
  have hrun' : (FlowGraph.layOut prog).run limit m =
      ⟨((FlowGraph.layOut prog).run limit m).machine, .ok p⟩ := by
    rw [← hrun]
  obtain ⟨w, hw, -, hpw⟩ := FlowGraph.walk_of_run hrun'
  exact not_walk_of_infeasible hg h hpw m _ hw

/-- Print a number that is above five and below three. -/
def gap : Program :=
  .seq (.input 1 "x") (.branch 2 (.cmp .gt (.var "x") (.const 5))
    (.branch 3 (.cmp .lt (.var "x") (.const 3)) (.print 4 (.var "x")) .skip) .skip)

def gapPath : Path := [.entry, .point 1, .point 2, .point 3, .point 4, .exit]

theorem run_ne_of_infeasible_gap : gap.labels.Nodup ∧ ∃ g, FlowGraph.ofProgram gap = .ok g ∧
    g.solvePath {} gapPath = .ok .infeasible ∧
    ∀ (limit : Nat) (m : Machine), (g.run limit m).result ≠ .ok gapPath := by
  have hp : gap.labels.Nodup := by decide
  obtain ⟨g, hg, h⟩ := run_ne_of_infeasible hp
  obtain rfl := (ofProgram_eq_ok_iff.1 hg).2
  have hgap : (FlowGraph.layOut gap).solvePath {} gapPath = .ok .infeasible :=
    toOption_eq_some.1 (by decide +kernel)
  exact ⟨hp, _, hg, hgap, h _ _ hgap⟩

end Pathwise
