import Mathlib.Data.List.Nodup
import Std.Data.TreeMap.Lemmas
import Pathwise.Suite
import Pathwise.Proofs.Ascending
import Pathwise.Proofs.Feasibility

/-!
What the verdicts of a suite say.

An obligation is answered from the first candidates that meet it. Each of these is solved once, under the
limits that come with its place in the order of all of them (`Facts.pathLimits`). `Verdict.FromTried` says
how a verdict follows from what the solver answers about them, and `generateSuite` reaches all its verdicts
in this way (`fromTried_of_generateSuite`). Together with what the solver's answers say of runs, a
verdict is then justified by the program itself (`Verdict.Justified`). Where no candidate at all may
be tried, an obligation is called unreachable whatever the candidates are.
-/

namespace Pathwise

/-! ## The table of outcomes -/

/-- The limits under which each path is solved. -/
abbrev PathLimits := Path → SearchLimits

/-- The limits under which distinct paths are solved one after the other. -/
def SolveLimits.inOrder (l : SolveLimits) (paths : List Path) : PathLimits :=
  fun p => l (paths.idxOf p)

theorem zipIdx_eq_map_idxOf {α : Type} [BEq α] [LawfulBEq α] {xs : List α} (h : xs.Nodup) :
    xs.zipIdx = xs.map fun x => (x, xs.idxOf x) := by
  refine List.ext_getElem (by simp) fun n hn hn' => ?_
  simp [h.idxOf_getElem]

namespace Outcomes

variable {g : FlowGraph} {l : PathLimits}

/-- The table holds the solver's answer about each of the paths. -/
def Knows (t : Outcomes) (g : FlowGraph) (l : PathLimits) (paths : List Path) : Prop :=
  ∀ p ∈ paths, ∃ a, g.solvePath (l p) p = .ok a ∧ t[p]? = some a

theorem getElem?_insert_path (t : Outcomes) (p q : Path) (a : Feasibility) :
    (t.insert p a)[q]? = if p = q then some a else t[q]? := by
  simp only [Std.TreeMap.getElem?_insert, Std.LawfulEqOrd.compare_eq_iff_eq]

/-- Solving on from the table `s` answers the paths and leaves what is known of the others. -/
theorem knows_of_foldlM {paths : List Path} {s t : Outcomes}
    (h : paths.foldlM (fun t p => do return t.insert p (← g.solvePath (l p) p)) s = .ok t) :
    t.Knows g l paths ∧ ∀ q ∉ paths, t[q]? = s[q]? := by
  induction paths generalizing s with
  | nil =>
    cases h
    exact ⟨by simp [Knows], fun _ _ => rfl⟩
  | cons p paths ih =>
    rw [List.foldlM_cons] at h
    obtain ⟨s', hs', h⟩ := bind_eq_ok.1 h
    obtain ⟨a, ha, hs'⟩ := bind_eq_ok.1 hs'
    cases hs'
    obtain ⟨hknows, hrest⟩ := ih h
    -- A path that comes again further on is entered again, and that entry is the one that stays.
    refine ⟨List.forall_mem_cons.2 ⟨?_, hknows⟩, fun q hq => ?_⟩
    · by_cases hp : p ∈ paths
      · exact hknows p hp
      · refine ⟨a, ha, ?_⟩
        rw [hrest p hp, getElem?_insert_path, if_pos rfl]
    · simp only [List.mem_cons, not_or] at hq
      rw [hrest q hq.2, getElem?_insert_path, if_neg (Ne.symm hq.1)]

/-- Of distinct paths each is solved once, in its place. -/
theorem knows_of_solve {l : SolveLimits} {paths : List Path} {t : Outcomes} (hpaths : paths.Nodup)
    (h : solve g l paths = .ok t) : t.Knows g (l.inOrder paths) paths := by
  rw [solve, zipIdx_eq_map_idxOf hpaths, List.foldlM_map] at h
  exact (knows_of_foldlM h).1

variable {t : Outcomes} {paths : List Path} {p : Path}

theorem Knows.mono {paths' : List Path} (h : t.Knows g l paths) (hsub : ∀ p ∈ paths', p ∈ paths) :
    t.Knows g l paths' :=
  fun p hp => h p (hsub p hp)

theorem Knows.test?_eq_some (h : t.Knows g l paths) (hp : p ∈ paths) {c : TestCase} :
    t.test? p = some c ↔ g.solvePath (l p) p = .ok (.feasible c) := by
  obtain ⟨a, ha, hat⟩ := h p hp
  cases a <;> simp [test?, hat, ha]

theorem Knows.test?_eq_none (h : t.Knows g l paths) (hp : p ∈ paths) :
    t.test? p = none ↔ ∀ c, g.solvePath (l p) p ≠ .ok (.feasible c) := by
  simp only [Option.eq_none_iff_forall_ne_some, ne_eq, h.test?_eq_some hp]

theorem Knows.shortfall?_eq_some (h : t.Knows g l paths) (hp : p ∈ paths) {s : Shortfall} :
    t.shortfall? p = some s ↔ ∃ d, g.solvePath (l p) p = .ok (.unknown d) ∧ s = .doubt d := by
  obtain ⟨a, ha, hat⟩ := h p hp
  cases a <;> simp [shortfall?, hat, ha, eq_comm]

/-- A path that has no test and is not in doubt is infeasible. -/
theorem Knows.infeasible (h : t.Knows g l paths) (hp : p ∈ paths) (htest : t.test? p = none)
    (hfall : t.shortfall? p = none) : g.solvePath (l p) p = .ok .infeasible := by
  obtain ⟨a, ha, hat⟩ := h p hp
  cases a with
  | feasible c => simp [test?, hat] at htest
  | infeasible => exact ha
  | unknown d => simp [shortfall?, hat] at hfall

end Outcomes

/-! ## Verdicts from the paths that were tried -/

/-- How a verdict follows from what the solver answers about the paths that were tried, `truncated`
saying that there were more. -/
inductive Verdict.FromTried (g : FlowGraph) (l : PathLimits) (paths : List Path)
    (truncated : Bool) : Verdict → Prop
  | unreachable : paths = [] → FromTried g l paths truncated .unreachable
  | testFound {before after : List Path} {p : Path} {t : TestCase} :
    paths = before ++ p :: after → g.solvePath (l p) p = .ok (.feasible t) →
    (∀ q ∈ before, ∀ t', g.solvePath (l q) q ≠ .ok (.feasible t')) →
    FromTried g l paths truncated (.testFound t)
  | doubt {p : Path} {d : Doubt} : p ∈ paths → g.solvePath (l p) p = .ok (.unknown d) →
    (∀ q ∈ paths, ∀ t, g.solvePath (l q) q ≠ .ok (.feasible t)) →
    FromTried g l paths truncated (.inconclusive (.doubt d))
  | candidateLimit : paths ≠ [] → (∀ q ∈ paths, g.solvePath (l q) q = .ok .infeasible) →
    truncated = true → FromTried g l paths truncated (.inconclusive .candidateLimit)
  | infeasible : paths ≠ [] → (∀ q ∈ paths, g.solvePath (l q) q = .ok .infeasible) →
    truncated = false → FromTried g l paths truncated .infeasible

theorem Verdict.FromTried.eq_unreachable_iff {g : FlowGraph} {l : PathLimits} {paths : List Path}
    {truncated : Bool} {v : Verdict} (h : v.FromTried g l paths truncated) :
    v = .unreachable ↔ paths = [] := by
  cases h with
  | unreachable hnil => simp [hnil]
  | testFound hsplit => simp [hsplit]
  | doubt hp => simp [List.ne_nil_of_mem hp]
  | candidateLimit hne => simp [hne]
  | infeasible hne => simp [hne]

theorem Outcomes.Knows.fromTried {g : FlowGraph} {l : PathLimits} {t : Outcomes}
    {paths : List Path} (h : t.Knows g l paths) (truncated : Bool) :
    (t.verdict paths truncated).FromTried g l paths truncated := by
  by_cases hnil : paths = []
  · subst hnil
    exact .unreachable rfl
  rw [Outcomes.verdict, if_neg (by simpa using hnil)]
  cases htest : paths.findSome? t.test? with
  | some c =>
    obtain ⟨before, p, after, rfl, hp, hbefore⟩ := List.findSome?_eq_some_iff.1 htest
    refine .testFound rfl ((h.test?_eq_some (by simp)).1 hp) fun q hq => ?_
    exact (h.test?_eq_none (List.mem_append_left _ hq)).1 (hbefore q hq)
  | none =>
    have hnone := List.findSome?_eq_none_iff.1 htest
    cases hfall : paths.findSome? t.shortfall? with
    | some s =>
      obtain ⟨p, hp, hps⟩ := List.exists_of_findSome?_eq_some hfall
      obtain ⟨d, hd, rfl⟩ := (h.shortfall?_eq_some hp).1 hps
      exact .doubt hp hd fun q hq => (h.test?_eq_none hq).1 (hnone q hq)
    | none =>
      have hinf : ∀ q ∈ paths, g.solvePath (l q) q = .ok .infeasible := fun q hq =>
        h.infeasible hq (hnone q hq) (List.findSome?_eq_none_iff.1 hfall q hq)
      cases truncated with
      | true => exact .candidateLimit hnil hinf rfl
      | false => exact .infeasible hnil hinf rfl

/-! ## Candidates -/

namespace Facts

variable {f : Facts} {b : SuiteLimits} {l : SolveLimits} {c : Criterion} {o : Obligation} {q : Path}

theorem mem_candidates : q ∈ f.candidates b c ↔ q ∈ (f.graph.boundedPaths b.edges).toList ∨
    q ∈ (f.graph.loopPaths b.loopEntries).toList ∨ q ∈ f.namedPaths c := by
  rw [candidates, (shortestFirst_perm _).mem_iff, mem_distinct, List.append_assoc, List.mem_append,
    List.mem_append]

theorem nodup_candidates (f : Facts) (b : SuiteLimits) (c : Criterion) : (f.candidates b c).Nodup :=
  (shortestFirst_perm _).nodup_iff.2 (nodup_distinct _)

/-- The candidates that meet an obligation, the shortest first. -/
def meeting (f : Facts) (b : SuiteLimits) (c : Criterion) (o : Obligation) : List Path :=
  (f.candidates b c).filter fun p => o.isMetBy (f.footprint p)

theorem mem_meeting :
    q ∈ f.meeting b c o ↔ q ∈ f.candidates b c ∧ o.isMetBy (f.footprint q) = true :=
  List.mem_filter

theorem pairwise_meeting (f : Facts) (b : SuiteLimits) (c : Criterion) (o : Obligation) :
    (f.meeting b c o).Pairwise (·.length ≤ ·.length) :=
  (pairwise_shortestFirst _).filter _

/-- The candidates that are tried for an obligation. -/
def tried (f : Facts) (b : SuiteLimits) (c : Criterion) (o : Obligation) : List Path :=
  (f.meeting b c o).take b.perObligation

theorem quota_map_footprint (f : Facts) (b : SuiteLimits) (c : Criterion) (o : Obligation) :
    quota b ((f.candidates b c).map f.footprint) o =
      ⟨o, f.tried b c o, decide (b.perObligation < (f.meeting b c o).length)⟩ := by
  simp only [quota, tried, meeting, List.filter_map, List.length_map, ← List.map_take, List.map_map]
  congr 1
  exact List.map_id _

/-- The paths that are tried for some obligation, each once. -/
def solvedPaths (f : Facts) (b : SuiteLimits) (c : Criterion) : List Path :=
  ascending ((f.obligations c).flatMap (f.tried b c))

/-- The limits under which each of them is solved. -/
def pathLimits (f : Facts) (b : SuiteLimits) (l : SolveLimits) (c : Criterion) : PathLimits :=
  l.inOrder (f.solvedPaths b c)

theorem ascending_quotas (f : Facts) (b : SuiteLimits) (c : Criterion) :
    ascending (((f.obligations c).map (quota b ((f.candidates b c).map f.footprint))).flatMap (·.paths)) =
      f.solvedPaths b c := by
  simp only [solvedPaths, List.flatMap_map, quota_map_footprint]

theorem generateSuite_eq_ok {r : SuiteReport} (h : f.generateSuite b l c = .ok r) :
    ∃ t : Outcomes, (∀ o ∈ f.obligations c, t.Knows f.graph (f.pathLimits b l c) (f.tried b c o)) ∧
      r.verdicts = (f.obligations c).map fun o =>
        (o, t.verdict (f.tried b c o) (decide (b.perObligation < (f.meeting b c o).length))) := by
  obtain ⟨t, ht, hr⟩ := bind_eq_ok.1 h
  cases hr
  refine ⟨t, fun o ho => ?_, ?_⟩
  · rw [ascending_quotas] at ht
    refine (Outcomes.knows_of_solve (nodup_ascending _) ht).mono fun p hp => ?_
    exact mem_ascending.2 (List.mem_flatMap_of_mem ho hp)
  · simp only [List.map_map]
    refine List.map_congr_left fun o _ => ?_
    simp only [Function.comp_apply, quota_map_footprint]

theorem fromTried_of_generateSuite {r : SuiteReport} (h : f.generateSuite b l c = .ok r)
    {v : Verdict} (hv : (o, v) ∈ r.verdicts) :
    v.FromTried f.graph (f.pathLimits b l c) (f.tried b c o)
      (decide (b.perObligation < (f.meeting b c o).length)) := by
  obtain ⟨t, hknows, hr⟩ := generateSuite_eq_ok h
  rw [hr] at hv
  obtain ⟨o', ho', hov⟩ := List.mem_map.1 hv
  cases hov
  exact (hknows o ho').fromTried _

end Facts

/-! ## What the verdicts say of the program -/

/-- What the verdict on an obligation says of the candidates that meet it and of the runs along them. -/
def Verdict.Justified (f : Facts) (b : SuiteLimits) (l : SolveLimits) (c : Criterion)
    (o : Obligation) : Verdict → Prop
  | .testFound t => t.path ∈ f.meeting b c o ∧
    (∀ limit, t.path.length - 1 ≤ limit → (f.graph.runTest limit t).result = .ok t.path) ∧
    ∀ q ∈ f.meeting b c o, q.length < t.path.length →
      ∀ t', f.graph.solvePath (f.pathLimits b l c q) q ≠ .ok (.feasible t')
  | .infeasible => f.meeting b c o ≠ [] ∧
    ∀ q ∈ f.meeting b c o, ∀ (limit : Nat) (m : Machine), (f.graph.run limit m).result ≠ .ok q
  | .inconclusive _ =>
    (∀ q ∈ f.tried b c o, ∀ t, f.graph.solvePath (f.pathLimits b l c q) q ≠ .ok (.feasible t)) ∧
    ((∃ q ∈ f.tried b c o, ∃ d, f.graph.solvePath (f.pathLimits b l c q) q = .ok (.unknown d)) ∨
      b.perObligation < (f.meeting b c o).length)
  | .unreachable => f.tried b c o = []

namespace Facts

variable {f : Facts} {b : SuiteLimits} {l : SolveLimits} {c : Criterion} {o : Obligation}
variable {prog : Program} {v : Verdict}

/-- A path that meets the obligation and is shorter than `p` was tried before `p`. -/
theorem mem_before {before after : List Path} {p q : Path}
    (h : f.tried b c o = before ++ p :: after) (hq : q ∈ f.meeting b c o)
    (hlen : q.length < p.length) : q ∈ before := by
  -- The candidates that were not tried come behind `p` as well.
  have hsplit : f.meeting b c o = before ++ p :: (after ++ (f.meeting b c o).drop b.perObligation) := by
    rw [← List.cons_append, ← List.append_assoc, ← h]
    exact (List.take_append_drop _ _).symm
  have hsorted := f.pairwise_meeting b c o
  rw [hsplit] at hq hsorted
  rcases List.mem_append.1 hq with hq | hq
  · exact hq
  · have hp := (List.pairwise_append.1 hsorted).2.1
    rcases List.mem_cons.1 hq with rfl | hq
    · exact absurd hlen (Nat.lt_irrefl _)
    · exact absurd hlen (Nat.not_lt.2 (List.rel_of_pairwise_cons hp hq))

/-- A verdict that follows from the paths tried is justified by the graph of a program. -/
theorem justified_of_fromTried (hg : FlowGraph.ofProgram prog = .ok f.graph)
    (h : v.FromTried f.graph (f.pathLimits b l c) (f.tried b c o)
      (decide (b.perObligation < (f.meeting b c o).length))) : v.Justified f b l c o := by
  cases h with
  | unreachable hnil => exact hnil
  | testFound hsplit hp hbefore =>
    rename_i before after p t
    obtain rfl := path_of_feasible hp
    have hmem : t.path ∈ f.tried b c o := by simp [hsplit]
    refine ⟨List.mem_of_mem_take hmem, fun limit hl => result_runTest hg hp hl, ?_⟩
    intro q hq hlen
    exact hbefore q (mem_before hsplit hq hlen)
  | doubt hp hd hnone => exact ⟨hnone, Or.inl ⟨_, hp, _, hd⟩⟩
  | candidateLimit hne hinf htrunc =>
    refine ⟨fun q hq t ht => ?_, Or.inr (of_decide_eq_true htrunc)⟩
    rw [hinf q hq] at ht
    cases ht
  | infeasible hne hinf htrunc =>
    have hall : f.tried b c o = f.meeting b c o :=
      List.take_of_length_le (Nat.not_lt.1 (of_decide_eq_false htrunc))
    rw [hall] at hne hinf
    exact ⟨hne, fun q hq limit m => result_run_ne hg (hinf q hq) limit m⟩

end Facts

/-! ## Obligations -/

theorem nodup_map_fst_distances (g : FlowGraph) : (g.distances.map (·.1)).Nodup := by
  rw [FlowGraph.distances, List.map_filterMap]
  refine (nodup_ascending _).filterMap fun n n' k hn hn' => ?_
  simp only [Option.map_map, Option.mem_def, Option.map_eq_some_iff, Function.comp_apply] at hn hn'
  obtain ⟨_, -, rfl⟩ := hn
  obtain ⟨_, -, rfl⟩ := hn'
  rfl

/-- A criterion asks for nothing twice. -/
theorem nodup_obligations (g : FlowGraph) (c : Criterion) : (g.facts.obligations c).Nodup := by
  cases c with
  | assignments => exact (nodup_ascending _).map fun _ _ => Obligation.node.inj
  | decisions => exact (nodup_ascending _).map fun _ _ => Obligation.arc.inj
  | boundedPaths k => exact (nodup_ascending _).map fun _ _ => Obligation.path.inj
  | loopPaths i => exact (nodup_ascending _).map fun _ _ => Obligation.path.inj
  | duPaths => exact (nodup_ascending _).map fun _ _ => Obligation.duPath.inj
  | definitions => exact (nodup_ascending _).map fun _ _ => Obligation.definition.inj
  | uses => exact (nodup_ascending _).map fun _ _ => Obligation.use.inj
  | distance k =>
    refine List.Nodup.map (fun _ _ => Obligation.node.inj) ?_
    exact (nodup_map_fst_distances g).sublist (List.filter_sublist.map _)

/-! ## Suites -/

theorem Facts.map_fst_verdicts {f : Facts} {b : SuiteLimits} {l : SolveLimits} {c : Criterion}
    {r : SuiteReport} (h : f.generateSuite b l c = .ok r) : r.verdicts.map (·.1) = f.obligations c := by
  obtain ⟨t, -, hr⟩ := Facts.generateSuite_eq_ok h
  rw [hr, List.map_map]
  exact List.map_id _

/-- The verdicts of a suite are on the obligations of its criterion, each once and in their order, and
all are justified. The candidates are the paths within the limits and those that the criterion names,
each once, the shortest first. -/
theorem generateSuite_justified {prog : Program} {g : FlowGraph}
    (hg : FlowGraph.ofProgram prog = .ok g) (b : SuiteLimits) (l : SolveLimits) (c : Criterion)
    {r : SuiteReport} (h : g.facts.generateSuite b l c = .ok r) :
    (∀ q, q ∈ g.facts.candidates b c ↔ q ∈ (g.boundedPaths b.edges).toList ∨
      q ∈ (g.loopPaths b.loopEntries).toList ∨ q ∈ g.facts.namedPaths c) ∧
    (g.facts.candidates b c).Nodup ∧ (g.facts.candidates b c).Pairwise (·.length ≤ ·.length) ∧
    r.verdicts.map (·.1) = g.facts.obligations c ∧ (g.facts.obligations c).Nodup ∧
    ∀ o v, (o, v) ∈ r.verdicts → v.Justified g.facts b l c o := by
  refine ⟨fun q => Facts.mem_candidates, g.facts.nodup_candidates b c, pairwise_shortestFirst _,
    Facts.map_fst_verdicts h, nodup_obligations g c, fun o v hv => ?_⟩
  exact Facts.justified_of_fromTried hg (Facts.fromTried_of_generateSuite h hv)

/-- Print a number above five, with an arm that is never taken. -/
def screening : Program :=
  .seq (.input 1 "x") (.branch 2 (.cmp .gt (.var "x") (.const 5))
    (.branch 3 (.cmp .gt (.var "x") (.const 0)) (.print 4 (.var "x")) (.print 5 (.var "x"))) .skip)

theorem exists_of_map_toOption {ε α β : Type} {r : Except ε α} {f : α → β} {b : β}
    (h : r.toOption.map f = some b) : ∃ a, r = .ok a ∧ f a = b := by
  obtain ⟨a, ha, hb⟩ := Option.map_eq_some_iff.1 h
  exact ⟨a, toOption_eq_some.1 ha, hb⟩

theorem candidates_screening : (FlowGraph.layOut screening).facts.candidates ⟨0, 0, 1⟩ .decisions =
    [[.entry, .point 1, .point 2, .exit], [.entry, .point 1, .point 2, .point 3, .point 5, .exit],
      [.entry, .point 1, .point 2, .point 3, .point 4, .exit]] := by
  rw [Facts.candidates, shortestFirst_eq_mergeSort, List.mergeSort_of_pairwise] <;> decide +kernel

theorem generateSuite_screening : ∃ r,
    (FlowGraph.layOut screening).facts.generateSuite ⟨0, 0, 1⟩ (fun _ => {}) .decisions = .ok r ∧
    r.verdicts =
      [(.arc ⟨.point 2, .point 3⟩, .inconclusive .candidateLimit),
        (.arc ⟨.point 2, .exit⟩,
          .testFound ⟨[.entry, .point 1, .point 2, .exit], .empty, [0], ["x"]⟩),
        (.arc ⟨.point 3, .point 4⟩, .testFound
          ⟨[.entry, .point 1, .point 2, .point 3, .point 4, .exit], .empty, [6], ["x"]⟩),
        (.arc ⟨.point 3, .point 5⟩, .infeasible)] := by
  refine exists_of_map_toOption ?_
  -- The sort of the candidates does not reduce in the kernel, so they are put in place first.
  unfold Facts.generateSuite
  rw [candidates_screening]
  decide +kernel

theorem generateSuite_justified_screening : ∃ g r, FlowGraph.ofProgram screening = .ok g ∧
    g.facts.generateSuite ⟨0, 0, 1⟩ (fun _ => {}) .decisions = .ok r ∧
    (.arc ⟨.point 3, .point 5⟩, .infeasible) ∈ r.verdicts ∧ ∀ (limit : Nat) (m : Machine),
      (g.run limit m).result ≠ .ok [.entry, .point 1, .point 2, .point 3, .point 5, .exit] := by
  have hg := ofProgram_of_nodup (p := screening) (by decide)
  obtain ⟨r, hr, hverdicts⟩ := generateSuite_screening
  have hmem : (.arc ⟨.point 3, .point 5⟩, .infeasible) ∈ r.verdicts := by simp [hverdicts]
  obtain ⟨-, -, -, -, -, hjustified⟩ := generateSuite_justified hg ⟨0, 0, 1⟩ (fun _ => {}) .decisions hr
  refine ⟨_, r, hg, hr, hmem, (hjustified _ _ hmem).2 _ ?_⟩
  rw [Facts.mem_meeting, candidates_screening]
  decide +kernel

/-- An obligation is called unreachable exactly if no candidate may be tried or none meets it. Where
some may be tried, an obligation that more candidates meet than are tried is left open unless a test
is found. -/
theorem verdict_eq_unreachable_iff {f : Facts} {b : SuiteLimits} {l : SolveLimits} {c : Criterion}
    {r : SuiteReport} (h : f.generateSuite b l c = .ok r) {o : Obligation} {v : Verdict}
    (hv : (o, v) ∈ r.verdicts) :
    (v = .unreachable ↔ b.perObligation = 0 ∨
      ∀ q ∈ f.candidates b c, o.isMetBy (f.footprint q) = false) ∧
    (0 < b.perObligation → b.perObligation < (f.meeting b c o).length →
      (∀ t, v ≠ .testFound t) → ∃ s, v = .inconclusive s) := by
  have htried := Facts.fromTried_of_generateSuite h hv
  have hnil : f.tried b c o = [] ↔ b.perObligation = 0 ∨
      ∀ q ∈ f.candidates b c, o.isMetBy (f.footprint q) = false := by
    simp [Facts.tried, Facts.meeting]
  refine ⟨htried.eq_unreachable_iff.trans hnil, fun hpos hmore hnone => ?_⟩
  cases htried with
  | unreachable hempty =>
    have hlen := congrArg List.length hempty
    rw [Facts.tried, List.length_take, List.length_nil] at hlen
    omega
  | testFound => exact absurd rfl (hnone _)
  | doubt => exact ⟨_, rfl⟩
  | candidateLimit => exact ⟨_, rfl⟩
  | infeasible _ _ htrunc => exact absurd hmore (of_decide_eq_false htrunc)

theorem verdict_eq_unreachable_iff_screening : ∃ r,
    (FlowGraph.layOut screening).facts.generateSuite ⟨0, 0, 1⟩ (fun _ => {}) .decisions = .ok r ∧
    (.arc ⟨.point 2, .point 3⟩, .inconclusive .candidateLimit) ∈ r.verdicts ∧
    ∃ q ∈ (FlowGraph.layOut screening).facts.candidates ⟨0, 0, 1⟩ .decisions,
      (Obligation.arc ⟨.point 2, .point 3⟩).isMetBy
        ((FlowGraph.layOut screening).facts.footprint q) = true := by
  obtain ⟨r, hr, hverdicts⟩ := generateSuite_screening
  have hmem : (.arc ⟨.point 2, .point 3⟩, .inconclusive .candidateLimit) ∈ r.verdicts := by
    simp [hverdicts]
  have hiff := (verdict_eq_unreachable_iff hr hmem).1
  simp only [reduceCtorEq, false_iff, not_or, not_forall, Bool.not_eq_false] at hiff
  obtain ⟨q, hq, hmet⟩ := hiff.2
  exact ⟨r, hr, hmem, q, hq, hmet⟩

/-- The only candidate goes through the assignment, but it may not be tried, and so the assignment is
called unreachable. -/
theorem unreachable_without_quota : ∃ g r,
    FlowGraph.ofProgram (.assign 1 "x" (.const 1)) = .ok g ∧
    g.facts.generateSuite { perObligation := 0 } (fun _ => {}) .assignments = .ok r ∧
    (.node (.point 1), .unreachable) ∈ r.verdicts ∧
    ∃ q ∈ g.facts.candidates { perObligation := 0 } .assignments,
      (Obligation.node (.point 1)).isMetBy (g.facts.footprint q) = true := by
  have hrun : ((FlowGraph.layOut (.assign 1 "x" (.const 1))).facts.generateSuite
      { perObligation := 0 } (fun _ => {}) .assignments).toOption.map (·.verdicts) =
        some [(.node (.point 1), .unreachable)] := by decide +kernel
  obtain ⟨r, hr, hverdicts⟩ := exists_of_map_toOption hrun
  refine ⟨_, r, ofProgram_of_nodup (by decide), hr, by simp [hverdicts], ?_⟩
  refine ⟨[.entry, .point 1, .exit], ?_⟩
  decide +kernel

end Pathwise
