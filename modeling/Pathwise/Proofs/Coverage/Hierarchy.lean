import Pathwise.Proofs.Coverage.Exercise
import Pathwise.Proofs.Coverage.Subsumption

/-!
Covering the paths from definitions to uses covers the uses, and covering the uses covers the
definitions.

The executed sequences need not follow the graph, so nothing is known of them but the part at which one
contains such a path. That part is enough (`exists_mem_exercised_of_infix`): on it nothing touches the
variable between its ends, so the value written at one end is read first at the other.
-/

namespace Pathwise

open FlowGraph

variable {g : FlowGraph} {p : Program} {executed : List Path} {d : DuPath}

/-- A sequence that contains a path from a definition to a use exercises that use. -/
theorem exists_mem_exercised_of_infix (hg : FlowGraph.ofProgram p = .ok g) (hd : d ∈ g.duPaths)
    {q : Path} (hin : d.path <:+: q) :
    ∃ u, d.defUse? = some u ∧ u ∈ g.facts.accesses.exercised q := by
  obtain ⟨x, w⟩ := d
  obtain ⟨n, between, m, rfl, -, hcarries, -⟩ := (mem_duPaths_iff hg).1 hd
  obtain ⟨before, after, rfl⟩ := hin
  refine ⟨⟨x, n, m⟩, defUse?_eq_some, (mem_exercised_iff hg).2 ⟨before, between, after, ?_, hcarries⟩⟩
  simp

/-! ## Complete reports -/

theorem isComplete_useReport : (g.facts.useReport executed).isComplete = true ↔
    ∀ u ∈ g.facts.defUses, ∃ q ∈ executed, u ∈ g.facts.accesses.exercised q := by
  simp only [Facts.useReport, Report.isComplete_ofDifference, Facts.exercised, List.mem_flatMap]

theorem isComplete_definitionReport : (g.facts.definitionReport executed).isComplete = true ↔
    ∀ u ∈ g.facts.defUses, ∃ v, (∃ q ∈ executed, v ∈ g.facts.accesses.exercised q) ∧
      v.site = u.site := by
  rw [Facts.definitionReport, Report.isComplete_ofDifference]
  simp [Facts.defSites, defSites, mem_ascending, Facts.exercised]

/-! ## Subsumption -/

/-- A path from a definition to a use is covered only together with its use, on whatever sequences of
nodes. So whoever covers these paths covers the uses, and whoever covers the uses covers the
definitions. -/
theorem duPathReport_subsumes (hg : FlowGraph.ofProgram p = .ok g) (executed : List Path) :
    (∀ d ∈ g.facts.duPaths, ∀ q, d.path <:+: q →
      ∃ u, d.defUse? = some u ∧ u ∈ g.facts.accesses.exercised q) ∧
    ((g.facts.duPathReport executed).isComplete = true →
      (g.facts.useReport executed).isComplete = true) ∧
    ((g.facts.useReport executed).isComplete = true →
      (g.facts.definitionReport executed).isComplete = true) := by
  refine ⟨fun d hd q hin => exists_mem_exercised_of_infix hg hd hin, fun hpaths => ?_, fun huses => ?_⟩
  · refine isComplete_useReport.2 fun u hu => ?_
    obtain ⟨d, hd, hends⟩ := mem_defUses_iff_exists_duPath.1 hu
    obtain ⟨q, hq, hin⟩ := isComplete_duPathReport.1 hpaths d hd
    obtain ⟨v, hv, hmem⟩ := exists_mem_exercised_of_infix hg hd hin
    obtain rfl : v = u := Option.some.inj (hv.symm.trans hends)
    exact ⟨q, hq, hmem⟩
  · refine isComplete_definitionReport.2 fun u hu => ?_
    obtain ⟨q, hq, hmem⟩ := isComplete_useReport.1 huses u hu
    exact ⟨u, ⟨q, hq, hmem⟩, rfl⟩

/-- A loop that adds up what it counts down, with a choice in between. -/
def meter : Program :=
  .block [.input 1 "n", .input 2 "x", .loop 3 (.cmp .lt (.const 0) (.var "n")) (.block [
    .branch 4 (.var "loud") (.print 5 (.var "n")) .skip,
    .assign 6 "x" (.binary .add (.var "x") (.var "n")),
    .assign 7 "n" (.binary .sub (.var "n") (.const 1))])]

/-- Parts of the program that take either side of the choice, before 6 has written and after. -/
def meterEitherSide : List Path :=
  [[.point 1, .point 2, .point 3, .point 4, .point 6, .point 7, .point 3, .point 4, .point 5, .point 6,
      .point 7, .point 3, .point 4, .point 6],
    [.point 2, .point 3, .point 4, .point 5, .point 6]]

/-- A part of the program that takes the same side of the choice in two rounds. -/
def meterOneSide : List Path :=
  [[.point 1, .point 2, .point 3, .point 4, .point 5, .point 6, .point 7, .point 3, .point 4, .point 5,
    .point 6]]

/-- None of the sequences leads from the entry to the exit. In both lists 6 reads what it wrote a round
before; taking one side of the choice is enough for that use, but not for the paths to it. -/
theorem duPathReport_subsumes_meter : ∃ g, FlowGraph.ofProgram meter = .ok g ∧
    ((g.facts.duPathReport meterEitherSide).isComplete = true ∧
      (g.facts.useReport meterEitherSide).isComplete = true ∧
      (g.facts.definitionReport meterEitherSide).isComplete = true) ∧
    (g.facts.duPathReport meterOneSide).isComplete = false ∧
      (g.facts.useReport meterOneSide).isComplete = true ∧
      (g.facts.definitionReport meterOneSide).isComplete = true := by
  have hg : FlowGraph.ofProgram meter = .ok (layOut meter) := ofProgram_of_nodup (by decide)
  have hpaths : ((layOut meter).facts.duPathReport meterEitherSide).isComplete = true := by
    decide +kernel
  have hone : ((layOut meter).facts.useReport meterOneSide).isComplete = true := by decide +kernel
  obtain ⟨-, huses, hdefinitions⟩ := duPathReport_subsumes hg meterEitherSide
  refine ⟨_, hg, ⟨hpaths, huses hpaths, hdefinitions (huses hpaths)⟩, by decide +kernel, hone, ?_⟩
  exact (duPathReport_subsumes hg meterOneSide).2.2 hone

end Pathwise
