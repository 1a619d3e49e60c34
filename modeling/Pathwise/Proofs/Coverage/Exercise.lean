import Pathwise.Coverage.Criterion
import Pathwise.Proofs.DataFlow

/-!
The definitions and uses that are found on the graph are those that paths exercise.

A sequence of nodes exercises a use if it carries the value there from a definition
(`mem_exercised_iff`). The search on the graph looks for ways through distinct nodes only, but a way
that carries a value can be cut short to such a one (`mem_defUses_iff`), and every way on the graph is
part of a path from the entry to the exit.
-/

namespace Pathwise

open FlowGraph

variable {g : FlowGraph} {p : Program} {t : Accesses} {x : String} {d : Node} {u : DefUse}

/-! ## What a sequence of nodes exercises -/

namespace Accesses

theorem mem_defsOf : x ∈ t.defsOf d ↔ t.defines d x = true := by
  unfold defsOf defines
  cases t.find? (·.node = d) <;> simp

theorem firstUse?_eq_some {ns : List Node} : t.firstUse? x d ns = some u ↔
    ∃ between n after, ns = between ++ n :: after ∧ u = ⟨x, d, n⟩ ∧ t.uses n x = true ∧
      ∀ k ∈ between, t.uses k x = false ∧ t.defines k x = false := by
  induction ns with
  | nil => simp [firstUse?]
  | cons a ns ih =>
    by_cases hu : t.uses a x = true
    · rw [firstUse?, if_pos hu]
      constructor
      · intro h
        exact ⟨[], a, ns, rfl, (Option.some.inj h).symm, hu, by simp⟩
      · rintro ⟨_ | ⟨b, between⟩, n, after, heq, rfl, -, hclear⟩
        · rw [(List.cons.inj heq).1]
        · obtain rfl := (List.cons.inj heq).1
          exact absurd hu (by simp [(hclear a List.mem_cons_self).1])
    · rw [firstUse?, if_neg hu]
      constructor
      · intro h
        split at h
        · cases h
        next hd =>
          obtain ⟨between, n, after, rfl, rfl, hn, hclear⟩ := ih.1 h
          refine ⟨a :: between, n, after, rfl, rfl, hn, List.forall_mem_cons.2 ⟨?_, hclear⟩⟩
          exact ⟨Bool.eq_false_iff.2 hu, Bool.eq_false_iff.2 hd⟩
      · rintro ⟨_ | ⟨b, between⟩, n, after, heq, rfl, hn, hclear⟩
        · obtain rfl := (List.cons.inj heq).1
          exact absurd hn hu
        · obtain ⟨rfl, rfl⟩ := List.cons.inj heq
          obtain ⟨ha, hclear⟩ := List.forall_mem_cons.1 hclear
          rw [if_neg (by simp [ha.2])]
          exact ih.2 ⟨between, n, after, rfl, rfl, hn, hclear⟩

theorem mem_usesAlong {q : Path} : u ∈ t.usesAlong q ↔
    ∃ before between after, q = before ++ u.definition :: (between ++ u.use :: after) ∧
      t.defines u.definition u.var = true ∧ t.uses u.use u.var = true ∧
      ∀ k ∈ between, t.uses k u.var = false ∧ t.defines k u.var = false := by
  induction q with
  | nil => simp [usesAlong]
  | cons d rest ih =>
    rw [usesAlong, List.mem_append, List.mem_filterMap, ih]
    constructor
    · rintro (⟨x, hx, hu⟩ | ⟨before, between, after, rfl, hrest⟩)
      · obtain ⟨between, n, after, rfl, rfl, hn, hclear⟩ := firstUse?_eq_some.1 hu
        exact ⟨[], between, after, rfl, mem_defsOf.1 hx, hn, hclear⟩
      · exact ⟨d :: before, between, after, rfl, hrest⟩
    · rintro ⟨_ | ⟨a, before⟩, between, after, heq, hd, hn, hclear⟩
      · obtain ⟨rfl, rfl⟩ := List.cons.inj heq
        exact .inl ⟨u.var, mem_defsOf.2 hd,
          firstUse?_eq_some.2 ⟨between, u.use, after, rfl, rfl, hn, hclear⟩⟩
      · obtain ⟨rfl, rfl⟩ := List.cons.inj heq
        exact .inr ⟨before, between, after, rfl, hd, hn, hclear⟩

end Accesses

/-- A sequence of nodes exercises a use if part of it carries the value there. -/
theorem mem_exercised_iff (hg : FlowGraph.ofProgram p = .ok g) {q : Path} :
    u ∈ (Accesses.ofGraph g).exercised q ↔
      ∃ before between after, q = before ++ u.definition :: (between ++ u.use :: after) ∧
        g.Carries u.var u.definition between u.use := by
  rw [Accesses.exercised, mem_ascending, Accesses.mem_usesAlong]
  simp only [Accesses.uses_ofGraph hg, Accesses.defines_ofGraph hg, ← Bool.not_eq_true]
  constructor
  · rintro ⟨before, between, after, heq, hd, hu, hclear⟩
    exact ⟨before, between, after, heq, hd, hu, hclear⟩
  · rintro ⟨before, between, after, heq, hd, hu, hclear⟩
    exact ⟨before, between, after, heq, hd, hu, hclear⟩

/-! ## What is found on the graph -/

theorem defUse?_eq_some {n m : Node} {between : List Node} :
    DuPath.defUse? ⟨x, n :: (between ++ [m])⟩ = some ⟨x, n, m⟩ := by
  simp [DuPath.defUse?, List.getLast?_cons]

/-- A way that carries a value can be cut short so that it passes no node twice. -/
theorem FlowGraph.Carries.exists_nodup {n m : Node} {between : List Node}
    (hc : g.Carries x n between m) (hpath : g.isPath (n :: (between ++ [m])) = true) :
    ∃ between', g.isPath (n :: (between' ++ [m])) = true ∧ g.Carries x n between' m ∧
      between'.Nodup := by
  obtain ⟨k, hk, hhead, hrest⟩ := (isPath_cons_iff (by simp)).1 hpath
  have hfrom : g.IsPathFrom k m (between ++ [m]) := ⟨hhead, by simp, hrest⟩
  obtain ⟨v, hv, hnodup, hsub⟩ := hfrom.exists_nodup
  obtain ⟨between', rfl⟩ := hv.eq_concat
  obtain ⟨hnodup, -, hdisj⟩ := List.nodup_append.1 hnodup
  refine ⟨between', (hv.cons hk).follows, ⟨hc.defined, hc.used, fun a ha => hc.clear a ?_⟩, hnodup⟩
  -- What is left of the way apart from its end was there before the end.
  have hne : a ≠ m := hdisj a ha m (List.mem_singleton.2 rfl)
  simpa [hne] using hsub (List.mem_append_left _ ha)

theorem mem_defUses_iff_exists_duPath :
    u ∈ g.facts.defUses ↔ ∃ d ∈ g.facts.duPaths, d.defUse? = some u := by
  rw [FlowGraph.facts, defUses, mem_ascending, List.mem_filterMap]

theorem mem_defUses_iff (hg : FlowGraph.ofProgram p = .ok g) : u ∈ g.facts.defUses ↔
    ∃ between, g.isPath (u.definition :: (between ++ [u.use])) = true ∧
      g.Carries u.var u.definition between u.use := by
  rw [mem_defUses_iff_exists_duPath]
  constructor
  · rintro ⟨⟨x, w⟩, hw, hu⟩
    obtain ⟨n, between, m, rfl, hpath, hc, -⟩ := (mem_duPaths_iff hg).1 hw
    rw [defUse?_eq_some] at hu
    cases hu
    exact ⟨between, hpath, hc⟩
  · rintro ⟨between, hpath, hc⟩
    obtain ⟨between', hpath', hc', hnodup⟩ := hc.exists_nodup hpath
    exact ⟨_, (mem_duPaths_iff hg).2 ⟨_, between', _, rfl, hpath', hc', hnodup⟩, defUse?_eq_some⟩

theorem exists_path_of_carries (hg : FlowGraph.ofProgram p = .ok g) {n m : Node}
    {between : List Node} (hc : g.Carries x n between m)
    (hpath : g.isPath (n :: (between ++ [m])) = true) :
    ∃ before after, g.IsPathFrom .entry .exit (before ++ n :: (between ++ m :: after)) := by
  obtain ⟨before, after, h⟩ :=
    exists_path_around hg (mem_nodes_of_mem_defs hg hc.defined) (isPathFrom_of_isPath hpath)
  exact ⟨before, after, by simpa using h⟩

/-- The uses that are found on the graph are those to which some way carries the value of a definition,
whether or not it meets a node twice; and they are those that the paths from the entry to the exit
exercise. -/
theorem defUses_exact (hg : FlowGraph.ofProgram p = .ok g) (u : DefUse) :
    (u ∈ g.facts.defUses ↔ ∃ between, g.isPath (u.definition :: (between ++ [u.use])) = true ∧
      g.Carries u.var u.definition between u.use) ∧
    (u ∈ g.facts.defUses ↔
      ∃ q, g.IsPathFrom .entry .exit q ∧ u ∈ g.facts.accesses.exercised q) := by
  refine ⟨mem_defUses_iff hg, (mem_defUses_iff hg).trans ?_⟩
  constructor
  · rintro ⟨between, hpath, hc⟩
    obtain ⟨before, after, hq⟩ := exists_path_of_carries hg hc hpath
    exact ⟨_, hq, (mem_exercised_iff hg).2 ⟨before, between, after, rfl, hc⟩⟩
  · rintro ⟨q, hq, hu⟩
    obtain ⟨before, between, after, rfl, hc⟩ := (mem_exercised_iff hg).1 hu
    have hrest := hq.split.2
    rw [← List.cons_append] at hrest
    exact ⟨between, hrest.split.1.follows, hc⟩

/-- A way that goes round the inner loop shows that the print at 3 reads what 4 writes, so some path
exercises this use. -/
theorem defUses_exact_relay : ∃ g, FlowGraph.ofProgram relay = .ok g ∧
    ⟨"s", .point 4, .point 3⟩ ∈ g.facts.defUses ∧ ∃ q, g.IsPathFrom .entry .exit q ∧
      ⟨"s", .point 4, .point 3⟩ ∈ g.facts.accesses.exercised q := by
  have hg : FlowGraph.ofProgram relay = .ok (layOut relay) := ofProgram_of_nodup (by decide)
  obtain ⟨hwalk, hrun⟩ := defUses_exact hg ⟨"s", .point 4, .point 3⟩
  have hfound := hwalk.2 ⟨[.point 6, .point 6, .point 5, .point 1, .point 2], by decide +kernel,
    ⟨by decide +kernel, by decide +kernel, by decide +kernel⟩⟩
  exact ⟨_, hg, hfound, hrun.1 hfound⟩

end Pathwise
