import Pathwise.Coverage.Report
import Pathwise.Proofs.Suite

/-!
Reports and obligations say the same.

A report takes what the paths have met away from what is expected, each criterion in its own way. An
obligation asks of one path at a time whether it is met. Written as obligations, what a report leaves
uncovered is what no path meets (`uncovered_coverage`), in the order in which the criterion lists it.
-/

namespace Pathwise

/-- The same report about other names for the things that are uncovered. -/
def Report.map {α β : Type} (h : α → β) (r : Report α) : Report β :=
  ⟨r.criterion, r.total, r.uncovered.map h⟩

namespace Facts

variable {f : Facts} {executed : List Path}

@[simp] theorem path_footprint (p : Path) : (f.footprint p).path = p := rfl

@[simp] theorem exercised_footprint (p : Path) :
    (f.footprint p).exercised.get = f.accesses.exercised p := rfl

/-- The report on a criterion, what is uncovered being written as obligations. -/
def coverage (f : Facts) (executed : List Path) : Criterion → Report Obligation
  | .assignments => (f.assignmentReport executed).map .node
  | .decisions => (f.decisionReport executed).map .arc
  | .boundedPaths k => (f.boundedPathReport executed k).map .path
  | .loopPaths i => (f.loopPathReport executed i).map .path
  | .duPaths => (f.duPathReport executed).map .duPath
  | .definitions => (f.definitionReport executed).map .definition
  | .uses => (f.useReport executed).map .use
  | .distance k => (f.distanceReport executed k).map .node

/-- Whether none of the paths meets the obligation. -/
def isUnmet (f : Facts) (executed : List Path) (o : Obligation) : Bool :=
  !executed.any fun p => o.isMetBy (f.footprint p)

theorem isUnmet_iff {o : Obligation} :
    f.isUnmet executed o = true ↔ ∀ p ∈ executed, o.isMetBy (f.footprint p) = false := by
  simp [isUnmet]

theorem isUnmet_congr {executed' : List Path} (h : ∀ p, p ∈ executed ↔ p ∈ executed') :
    f.isUnmet executed = f.isUnmet executed' := by
  funext o
  rw [Bool.eq_iff_iff, isUnmet_iff, isUnmet_iff]
  simp only [h]

/-- Taking away what the paths have met leaves the obligations that no path meets. -/
theorem uncovered_map_ofDifference {α : Type} [DecidableEq α] [Ord α] [Std.TransOrd α]
    [Std.LawfulEqOrd α] {h : α → Obligation} {c : Criterion} {expected met : List α}
    (hmet : ∀ x, x ∈ met ↔ ∃ p ∈ executed, (h x).isMetBy (f.footprint p) = true) :
    ((Report.ofDifference c expected met).map h).uncovered =
      (expected.map h).filter (f.isUnmet executed) := by
  rw [List.filter_map]
  refine congrArg (List.map h) ?_
  rw [Report.ofDifference, without_eq_filter]
  refine List.filter_congr fun x _ => ?_
  rw [Bool.eq_iff_iff, Function.comp_apply, isUnmet_iff]
  simp [hmet]

theorem mem_exercised {u : DefUse} :
    u ∈ f.exercised executed ↔ ∃ p ∈ executed, u ∈ f.accesses.exercised p := by
  simp [exercised]

theorem uncovered_coverage (f : Facts) (executed : List Path) (c : Criterion) :
    (f.coverage executed c).uncovered = (f.obligations c).filter (f.isUnmet executed) := by
  cases c with
  | assignments =>
    refine uncovered_map_ofDifference fun n => ?_
    simp [Obligation.isMetBy]
  | decisions =>
    refine uncovered_map_ofDifference fun a => ?_
    simp [Obligation.isMetBy]
  | boundedPaths k =>
    refine uncovered_map_ofDifference fun q => ?_
    simp [Obligation.isMetBy]
  | loopPaths i =>
    refine uncovered_map_ofDifference fun q => ?_
    simp [Obligation.isMetBy]
  | duPaths =>
    refine Eq.trans ?_ (List.filter_map ..).symm
    rfl
  | definitions =>
    refine uncovered_map_ofDifference fun d => ?_
    simp only [List.mem_map, mem_exercised, Obligation.isMetBy, exercised_footprint, List.any_eq_true,
      decide_eq_true_eq]
    constructor
    · rintro ⟨u, ⟨p, hp, hu⟩, hd⟩
      exact ⟨p, hp, u, hu, hd⟩
    · rintro ⟨p, hp, u, hu, hd⟩
      exact ⟨u, ⟨p, hp, hu⟩, hd⟩
  | uses =>
    refine uncovered_map_ofDifference fun u => ?_
    simp [Obligation.isMetBy, mem_exercised]
  | distance k =>
    refine uncovered_map_ofDifference fun n => ?_
    simp [Obligation.isMetBy]

theorem mem_uncovered_coverage {c : Criterion} {o : Obligation} :
    o ∈ (f.coverage executed c).uncovered ↔
      o ∈ f.obligations c ∧ ∀ p ∈ executed, o.isMetBy (f.footprint p) = false := by
  rw [uncovered_coverage, List.mem_filter, isUnmet_iff]

theorem total_coverage (f : Facts) (executed : List Path) (c : Criterion) :
    (f.coverage executed c).total = (f.obligations c).length := by
  cases c <;> exact (List.length_map ..).symm

end Facts

/-- A report counts the obligations of its criterion and leaves uncovered exactly those that no path
meets, each once. So it never leaves more than it counts, it depends on the set of the paths alone, and
further paths leave nothing more. -/
theorem coverage_agrees (g : FlowGraph) (c : Criterion) (executed : List Path) :
    (g.facts.coverage executed c).criterion = c ∧
    (g.facts.coverage executed c).total = (g.facts.obligations c).length ∧
    (g.facts.coverage executed c).uncovered.Nodup ∧
    (∀ o, o ∈ (g.facts.coverage executed c).uncovered ↔ o ∈ g.facts.obligations c ∧
      ∀ p ∈ executed, o.isMetBy (g.facts.footprint p) = false) ∧
    (g.facts.coverage executed c).covered + (g.facts.coverage executed c).uncovered.length =
      (g.facts.coverage executed c).total ∧
    (∀ executed', (∀ p, p ∈ executed' ↔ p ∈ executed) →
      (g.facts.coverage executed' c).uncovered = (g.facts.coverage executed c).uncovered) ∧
    ∀ more, (g.facts.coverage (executed ++ more) c).uncovered ⊆
      (g.facts.coverage executed c).uncovered := by
  have hlen : (g.facts.coverage executed c).uncovered.length ≤
      (g.facts.coverage executed c).total := by
    rw [Facts.total_coverage, Facts.uncovered_coverage]
    exact List.length_filter_le ..
  refine ⟨by cases c <;> rfl, Facts.total_coverage .., ?_, fun o => Facts.mem_uncovered_coverage,
    Nat.sub_add_cancel hlen, fun executed' h => ?_, fun more o ho => ?_⟩
  · rw [Facts.uncovered_coverage]
    exact (nodup_obligations g c).filter _
  · rw [Facts.uncovered_coverage, Facts.uncovered_coverage, Facts.isUnmet_congr h]
  · rw [Facts.mem_uncovered_coverage] at ho ⊢
    exact ⟨ho.1, fun p hp => ho.2 p (List.mem_append_left more hp)⟩

end Pathwise
