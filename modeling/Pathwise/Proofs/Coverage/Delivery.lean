import Pathwise.Proofs.Coverage.Agreement

/-!
Suites deliver what their verdicts promise.

The tests of a suite take their own paths when they are run, and each path meets the obligations for
which its test was found. A path that meets a further obligation is one of the candidates for it: where
all of these were tried, a test was found for that obligation too, and so the report on the runs and the
verdicts of the suite leave the same obligations open.
-/

namespace Pathwise

variable {g : FlowGraph}

/-! ## Verdicts and tried paths -/

namespace Verdict.FromTried

variable {l : PathLimits} {paths : List Path} {truncated : Bool} {v : Verdict}

theorem solved {t : TestCase} (h : FromTried g l paths truncated (.testFound t)) :
    t.path ∈ paths ∧ g.solvePath (l t.path) t.path = .ok (.feasible t) := by
  cases h with
  | testFound hsplit hp _ =>
    obtain rfl := path_of_feasible hp
    exact ⟨by simp [hsplit], hp⟩

/-- Where a tried path has a test, a test is found. -/
theorem exists_testFound (h : v.FromTried g l paths truncated) {q : Path} {t : TestCase}
    (hq : q ∈ paths) (ht : g.solvePath (l q) q = .ok (.feasible t)) : ∃ t', v = .testFound t' := by
  cases h with
  | unreachable hnil => simp [hnil] at hq
  | testFound => exact ⟨_, rfl⟩
  | doubt _ _ hnone => exact absurd ht (hnone q hq t)
  | candidateLimit _ hinf => simp [hinf q hq] at ht
  | infeasible _ hinf => simp [hinf q hq] at ht

end Verdict.FromTried

/-! ## Tests -/

theorem Verdict.test?_eq_some {v : Verdict} {t : TestCase} :
    v.test? = some t ↔ v = .testFound t := by
  cases v <;> simp [Verdict.test?]

namespace SuiteReport

variable {r : SuiteReport} {t : TestCase}

theorem mem_found : t ∈ r.verdicts.filterMap (·.2.test?) ↔ ∃ o, (o, .testFound t) ∈ r.verdicts := by
  simp [Verdict.test?_eq_some]

theorem exists_of_mem_tests (h : t ∈ r.tests) : ∃ o, (o, .testFound t) ∈ r.verdicts :=
  mem_found.1 ((distinctFrom_sublist TestCase.path ∅ _).subset h)

/-- Every test that was found is in the suite, or another test of the same path is. -/
theorem path_mem_tests {o : Obligation} (h : (o, .testFound t) ∈ r.verdicts) :
    t.path ∈ r.tests.map (·.path) := by
  refine (mem_map_distinctFrom TestCase.path).2 ⟨?_, Std.TreeSet.not_mem_emptyc⟩
  exact List.mem_map_of_mem (mem_found.2 ⟨o, h⟩)

end SuiteReport

/-! ## Runs of a suite -/

section
variable {prog : Program} {b : SuiteLimits} {l : SolveLimits} {c : Criterion} {r : SuiteReport} {o : Obligation}
variable {t : TestCase} {limit : Nat}

theorem solved_of_generateSuite (h : g.facts.generateSuite b l c = .ok r)
    (ht : (o, .testFound t) ∈ r.verdicts) :
    t.path ∈ g.facts.meeting b c o ∧
      g.solvePath (g.facts.pathLimits b l c t.path) t.path = .ok (.feasible t) := by
  obtain ⟨htried, hsolved⟩ := (Facts.fromTried_of_generateSuite h ht).solved
  exact ⟨List.mem_of_mem_take htried, hsolved⟩

theorem executedPaths_tests (hg : FlowGraph.ofProgram prog = .ok g)
    (h : g.facts.generateSuite b l c = .ok r) (hl : ∀ t ∈ r.tests, t.path.length - 1 ≤ limit) :
    g.executedPaths limit r.tests = r.tests.map (·.path) := by
  rw [FlowGraph.executedPaths, ← List.filterMap_eq_map]
  refine List.filterMap_congr fun t ht => ?_
  obtain ⟨o, ho⟩ := SuiteReport.exists_of_mem_tests ht
  rw [result_runTest hg (solved_of_generateSuite h ho).2 (hl t ht)]
  rfl

/-- An obligation for which a test was found is met by a path of the suite. -/
theorem exists_isMetBy_of_testFound (h : g.facts.generateSuite b l c = .ok r)
    (ht : (o, .testFound t) ∈ r.verdicts) :
    ∃ p ∈ r.tests.map (·.path), o.isMetBy (g.facts.footprint p) = true :=
  ⟨t.path, SuiteReport.path_mem_tests ht, (Facts.mem_meeting.1 (solved_of_generateSuite h ht).1).2⟩

/-- Where all candidates are tried, an obligation that a path of the suite meets has a test. -/
theorem exists_testFound_of_isMetBy (h : g.facts.generateSuite b l c = .ok r) {v : Verdict}
    (hv : (o, v) ∈ r.verdicts) (hall : (g.facts.meeting b c o).length ≤ b.perObligation)
    {p : Path} (hp : p ∈ r.tests.map (·.path)) (hmet : o.isMetBy (g.facts.footprint p) = true) :
    ∃ t, v = .testFound t := by
  obtain ⟨t, ht, rfl⟩ := List.mem_map.1 hp
  obtain ⟨o', ho'⟩ := SuiteReport.exists_of_mem_tests ht
  obtain ⟨hmeeting, hsolved⟩ := solved_of_generateSuite h ho'
  have hcand : t.path ∈ g.facts.meeting b c o :=
    Facts.mem_meeting.2 ⟨(Facts.mem_meeting.1 hmeeting).1, hmet⟩
  refine (Facts.fromTried_of_generateSuite h hv).exists_testFound ?_ hsolved
  rwa [Facts.tried, List.take_of_length_le hall]

end

/-- Run with enough steps, the tests of a suite take their own paths, and these leave no obligation
uncovered for which a test was found. Where every obligation had all its candidates tried, they leave
exactly the others uncovered. -/
theorem generateSuite_delivers {prog : Program} {g : FlowGraph}
    (hg : FlowGraph.ofProgram prog = .ok g) (b : SuiteLimits) (l : SolveLimits) (c : Criterion)
    {r : SuiteReport} (h : g.facts.generateSuite b l c = .ok r) (limit : Nat)
    (hl : ∀ t ∈ r.tests, t.path.length - 1 ≤ limit) :
    g.executedPaths limit r.tests = r.tests.map (·.path) ∧
    (∀ o t, (o, .testFound t) ∈ r.verdicts →
      o ∉ (g.facts.coverage (g.executedPaths limit r.tests) c).uncovered) ∧
    ((∀ o ∈ g.facts.obligations c, (g.facts.meeting b c o).length ≤ b.perObligation) →
      (g.facts.coverage (g.executedPaths limit r.tests) c).uncovered =
        (r.verdicts.filter (·.2.test?.isNone)).map (·.1)) := by
  have hexec := executedPaths_tests hg h hl
  refine ⟨hexec, fun o t ht ho => ?_, fun hall => ?_⟩
  · obtain ⟨p, hp, hmet⟩ := exists_isMetBy_of_testFound h ht
    rw [hexec, Facts.mem_uncovered_coverage] at ho
    simp [ho.2 p hp] at hmet
  · rw [hexec, Facts.uncovered_coverage, ← Facts.map_fst_verdicts h, List.filter_map]
    refine congrArg (List.map _) (List.filter_congr fun ⟨o, v⟩ hv => ?_)
    have ho : o ∈ g.facts.obligations c := Facts.map_fst_verdicts h ▸ List.mem_map_of_mem hv
    rw [Bool.eq_iff_iff, Function.comp_apply, Facts.isUnmet_iff]
    constructor
    · intro hunmet
      rw [Option.isNone_iff_eq_none, Option.eq_none_iff_forall_ne_some]
      rintro t ht
      obtain rfl := Verdict.test?_eq_some.1 ht
      obtain ⟨p, hp, hmet⟩ := exists_isMetBy_of_testFound h hv
      simp [hunmet p hp] at hmet
    · intro hnone p hp
      by_contra hmet
      obtain ⟨t, rfl⟩ := exists_testFound_of_isMetBy h hv (hall o ho) hp (by simpa using hmet)
      simp [Verdict.test?] at hnone

theorem generateSuite_screening_all : ∃ r,
    (FlowGraph.layOut screening).facts.generateSuite ⟨0, 0, 2⟩ (fun _ => {}) .decisions = .ok r ∧
    r.verdicts =
      [(.arc ⟨.point 2, .point 3⟩, .testFound
          ⟨[.entry, .point 1, .point 2, .point 3, .point 4, .exit], .empty, [6], ["x"]⟩),
        (.arc ⟨.point 2, .exit⟩,
          .testFound ⟨[.entry, .point 1, .point 2, .exit], .empty, [0], ["x"]⟩),
        (.arc ⟨.point 3, .point 4⟩, .testFound
          ⟨[.entry, .point 1, .point 2, .point 3, .point 4, .exit], .empty, [6], ["x"]⟩),
        (.arc ⟨.point 3, .point 5⟩, .infeasible)] := by
  refine exists_of_map_toOption ?_
  unfold Facts.generateSuite
  rw [show (FlowGraph.layOut screening).facts.candidates ⟨0, 0, 2⟩ .decisions = _ from
    candidates_screening]
  decide +kernel

theorem generateSuite_delivers_screening : ∃ g r, FlowGraph.ofProgram screening = .ok g ∧
    g.facts.generateSuite ⟨0, 0, 2⟩ (fun _ => {}) .decisions = .ok r ∧
    (∀ t ∈ r.tests, t.path.length - 1 ≤ 5) ∧
    (g.facts.coverage (g.executedPaths 5 r.tests) .decisions).uncovered =
      [.arc ⟨.point 3, .point 5⟩] := by
  have hg := ofProgram_of_nodup (p := screening) (by decide)
  obtain ⟨r, hr, hverdicts⟩ := generateSuite_screening_all
  have hl : ∀ t ∈ r.tests, t.path.length - 1 ≤ 5 := by
    rw [SuiteReport.tests, hverdicts]
    decide +kernel
  have hall : ∀ o ∈ (FlowGraph.layOut screening).facts.obligations .decisions,
      ((FlowGraph.layOut screening).facts.meeting ⟨0, 0, 2⟩ .decisions o).length ≤ 2 := by
    simp only [Facts.meeting]
    rw [show (FlowGraph.layOut screening).facts.candidates ⟨0, 0, 2⟩ .decisions = _ from
      candidates_screening]
    decide +kernel
  have hexact := (generateSuite_delivers hg ⟨0, 0, 2⟩ (fun _ => {}) .decisions hr 5 hl).2.2 hall
  exact ⟨_, r, hg, hr, hl, by rw [hexact, hverdicts]; rfl⟩

end Pathwise
