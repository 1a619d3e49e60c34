import Pathwise.Proofs.Backtracking
import Pathwise.Proofs.Shape

/-!
The paths of bounded length.

Below a trail the enumeration lists the ways on from its last node to the exit, each behind the trail
(`results_boundedPaths`). So the trail can be left out of what is said about the paths: the ways on are
the paths to the exit that are short enough (`mem_waysOn`), and they come in the order of the turns that
they take (`pairwise_turns`). The walk that keeps one path visits the same trails in the same order
(`follows_boundedWalk`).
-/

namespace Pathwise

open FlowGraph

variable {g : FlowGraph} {p : Program} {n : Node} {d : Nat} {u : Path}

namespace FlowGraph

/-- The ways on from `n` to the exit with at most `d` edges, each without `n`, as they are explored. -/
def waysOn (g : FlowGraph) : Nat → Node → List Path
  | d, n =>
    if n = .exit then [[]]
    else
      match d with
      | 0 => []
      | d + 1 => (g.exploreOrder n).flatMap fun m => (g.waysOn d m).map (m :: ·)

/-- Which way is taken at each step of a path: its position in the order in which the nodes after the
one before are explored. -/
def turns (g : FlowGraph) (q : Path) : List Nat :=
  q.arcs.map fun a => (g.exploreOrder a.source).idxOf a.target

end FlowGraph

/-! ## Below a trail -/

theorem results_boundedPaths (g : FlowGraph) (k d : Nat) (t : Trail) :
    (g.boundedPaths k).rule.results d t = (g.waysOn d t.node).map (t.path ++ ·) := by
  generalize ht : t.node = n
  fun_induction g.waysOn d n generalizing t with
  | case1 d =>
    rw [Growth.results_of_some (Trail.complete?_eq_some.2 ⟨ht, rfl⟩)]
    simp
  | case2 n hn =>
    subst ht
    rw [Growth.results_zero (Trail.complete?_eq_none.2 hn)]
    rfl
  | case3 n hn d ih =>
    subst ht
    rw [Growth.results_succ (Trail.complete?_eq_none.2 hn), List.map_flatMap]
    show ((g.exploreOrder t.node).map t.extend).flatMap _ = _
    rw [List.flatMap_map]
    refine List.flatMap_congr fun m _ => ?_
    rw [ih m (t.extend m) rfl, List.map_map, Trail.path_extend]
    exact List.map_congr_left fun u _ => List.append_assoc ..

theorem toList_boundedPaths (g : FlowGraph) (k : Nat) :
    (g.boundedPaths k).toList = (g.waysOn k .entry).map (.entry :: ·) :=
  (Enumeration.toList_single ..).trans (results_boundedPaths g k k .start)

/-! ## The paths to the exit -/

theorem exploreOrder_perm (g : FlowGraph) (n : Node) : (g.exploreOrder n).Perm (g.successors n) := by
  unfold exploreOrder
  split
  · exact List.reverse_perm _
  · exact .refl _

/-- The ways on are the paths to the exit that are short enough. -/
theorem mem_waysOn (hg : FlowGraph.ofProgram p = .ok g) :
    u ∈ g.waysOn d n ↔ g.IsPathFrom n .exit (n :: u) ∧ u.length ≤ d := by
  fun_induction g.waysOn d n generalizing u with
  | case1 d =>
    rw [List.mem_singleton]
    constructor
    · rintro rfl
      exact ⟨.single .exit, Nat.zero_le d⟩
    · rintro ⟨hu, -⟩
      simpa using eq_of_isPathFrom_exit hg hu
  | case2 n hn =>
    refine iff_of_false (by simp) ?_
    rintro ⟨hu, hlen⟩
    obtain rfl := List.length_eq_zero_iff.1 (Nat.le_zero.1 hlen)
    exact hn (by simpa using hu.last)
  | case3 n hn d ih =>
    simp only [List.mem_flatMap, List.mem_map, (exploreOrder_perm g n).mem_iff, ih]
    constructor
    · rintro ⟨m, hm, v, ⟨hv, hlen⟩, rfl⟩
      exact ⟨hv.cons hm, Nat.succ_le_succ hlen⟩
    · rintro ⟨hu, hlen⟩
      obtain ⟨m, hm, w, hw, hpath⟩ := hu.uncons hn
      obtain ⟨v, rfl⟩ := hpath.eq_cons
      obtain rfl : u = m :: v := by simpa using hw
      exact ⟨m, hm, v, ⟨hpath, Nat.le_of_succ_le_succ hlen⟩, rfl⟩

/-! ## The order of the turns -/

theorem pairwise_idxOf {α : Type} [DecidableEq α] {xs : List α} (h : xs.Nodup) :
    xs.Pairwise fun a b => xs.idxOf a < xs.idxOf b := by
  rw [List.pairwise_iff_getElem]
  intro i j hi hj hij
  rw [h.idxOf_getElem, h.idxOf_getElem]
  exact hij

/-- The ways on come in the lexicographic order of the turns that they take. -/
theorem pairwise_turns (g : FlowGraph) (d : Nat) (n : Node) :
    (g.waysOn d n).Pairwise fun u v => List.Lex (· < ·) (g.turns (n :: u)) (g.turns (n :: v)) := by
  fun_induction g.waysOn d n with
  | case1 d => exact List.pairwise_singleton _ _
  | case2 n hn => exact .nil
  | case3 n hn d ih =>
    rw [List.pairwise_flatMap]
    constructor
    · -- Through one node the first turns are the same.
      intro m _
      rw [List.pairwise_map]
      exact (ih m).imp .cons
    · -- Through two nodes the first turns decide.
      refine (pairwise_idxOf (nodup_exploreOrder g n)).imp ?_
      intro m m' hlt u hu v hv
      obtain ⟨u, -, rfl⟩ := List.mem_map.1 hu
      obtain ⟨v, -, rfl⟩ := List.mem_map.1 hv
      exact .rel hlt

/-! ## Choices -/

namespace Program

/-- The nodes at which the program chooses between two arms. -/
def choices (p : Program) : List Node :=
  p.statements.filterMap fun
    | .branch l _ _ _ => some (.point l)
    | _ => none

theorem mem_choices : n ∈ p.choices ↔ ∃ l c a b, .branch l c a b ∈ p.statements ∧ n = .point l := by
  rw [choices, List.mem_filterMap]
  constructor
  · rintro ⟨s, hs, hn⟩
    split at hn
    · cases hn
      exact ⟨_, _, _, _, hs, rfl⟩
    · cases hn
  · rintro ⟨l, c, a, b, hs, rfl⟩
    exact ⟨_, hs, rfl⟩

end Program

/-- The decision of a node is told by its ways out without their targets. -/
theorem decision?_eq_of_opened {es : List OpenEdge} (h : (g.outgoing n).map (·.opened) = es) :
    g.decision? n = es.head?.bind (·.way.decision?) := by
  subst h
  unfold FlowGraph.decision?
  cases g.outgoing n <;> rfl

theorem decision?_eq_choice_iff (hg : FlowGraph.ofProgram p = .ok g) :
    g.decision? n = some .choice ↔ n ∈ p.choices := by
  have hmirrors := mirrors_ofProgram hg
  rw [Program.mem_choices]
  constructor
  · intro hchoice
    cases n with
    | entry => simp [decision?_eq_of_opened hmirrors.entry, Way.decision?] at hchoice
    | exit => simp [FlowGraph.decision?, hmirrors.exit] at hchoice
    | point l =>
      by_cases hl : l ∈ p.labels
      · obtain ⟨s, hs, hsl⟩ := exists_statement hl
        rw [decision?_eq_of_opened (hmirrors.ways s hs l hsl)] at hchoice
        cases s with
        | branch l' c a b =>
          obtain rfl : l' = l := by simpa [Program.label?] using hsl
          exact ⟨l', c, a, b, hs, rfl⟩
        | skip | seq | assign | input | print | loop => simp [Program.ways, Way.decision?] at hchoice
      · simp [FlowGraph.decision?, outgoing_foreign hg hl] at hchoice
  · rintro ⟨l, c, a, b, hs, rfl⟩
    rw [decision?_eq_of_opened (hmirrors.ways _ hs l rfl)]
    rfl

theorem exploreOrder_ofProgram (hg : FlowGraph.ofProgram p = .ok g) (n : Node) :
    g.exploreOrder n = if n ∈ p.choices then (g.successors n).reverse else g.successors n := by
  simp only [exploreOrder, decision?_eq_choice_iff hg]

/-! ## The walk -/

theorem visit_boundedWalk (g : FlowGraph) (k depth : Nat) (path : Path) (n : Node) :
    (g.boundedWalk k).visit depth path n =
      .arrive path n (if k ≤ depth then [] else g.exploreOrder n) := rfl

/-- The frames of the walk are the trails of the enumeration, and the path to a frame has one edge for
each of its nodes. -/
theorem follows_boundedWalk (g : FlowGraph) (k : Nat) : Backtracker.Follows (g.boundedWalk k).visit
    (g.boundedPaths k).rule Trail.behind fun d path _ => path.length + d = k where
  result d path n _ := Visit.result?_arrive path n _
  finish d path n _ h := Visit.behind_arrive_of_ne_none h _
  stop path n h := by
    have hle : k ≤ path.length := by omega
    rw [visit_boundedWalk, if_pos hle, Visit.behind_arrive, ite_self]
  children d path n h hnone := by
    have hlt : ¬ k ≤ path.length := by omega
    rw [visit_boundedWalk, if_neg hlt, Visit.arrive_of_none hnone]
    exact List.map_congr_left fun m _ => Trail.extend_behind path n m
  room d path n h m _ := by
    rw [visit_boundedWalk, Visit.path_arrive, List.length_append, List.length_singleton]
    omega

/-! ## The enumeration -/

/-- The paths of at most `k` edges are yielded one after the other, each once, and then the enumeration
ends. The walk that keeps one path for all its frames yields the same. Of two paths the one comes first
that takes the earlier way where they part; the ways on from a node are explored in the order of its
edges, but at a choice of the program the other way round. -/
theorem boundedPaths_exact (hg : FlowGraph.ofProgram p = .ok g) (k : Nat) :
    (∀ n, g.exploreOrder n = if n ∈ p.choices then (g.successors n).reverse else g.successors n) ∧
    ∃ paths, (g.boundedPaths k).Yields paths ∧ (g.boundedWalk k).Yields paths ∧ paths.Nodup ∧
      (∀ q, q ∈ paths ↔ g.IsPathFrom .entry .exit q ∧ q.arcs.length ≤ k) ∧
      paths.Pairwise fun q q' => List.Lex (· < ·) (g.turns q) (g.turns q') := by
  have hsorted : (g.boundedPaths k).toList.Pairwise fun q q' =>
      List.Lex (· < ·) (g.turns q) (g.turns q') := by
    rw [toList_boundedPaths, List.pairwise_map]
    exact pairwise_turns g k .entry
  have hwalk : (g.boundedWalk k).Yields (g.boundedPaths k).toList :=
    (follows_boundedWalk g k).yields_toList (Nat.zero_add k)
  refine ⟨exploreOrder_ofProgram hg, _, Enumeration.yields_toList _, hwalk, ?_, ?_, hsorted⟩
  · refine hsorted.imp ?_
    rintro q q' hlt rfl
    exact List.lex_irrefl Nat.lt_irrefl _ hlt
  · intro q
    rw [toList_boundedPaths, List.mem_map]
    simp only [mem_waysOn hg]
    constructor
    · rintro ⟨u, ⟨hu, hlen⟩, rfl⟩
      exact ⟨hu, by rw [length_arcs]; exact hlen⟩
    · rintro ⟨hq, hlen⟩
      obtain ⟨u, rfl⟩ := hq.eq_cons
      exact ⟨u, ⟨hq, by rwa [length_arcs] at hlen⟩, rfl⟩

/-- A loop around a choice between two statements. -/
def ferry : Program :=
  .loop 1 (.var "b") (.branch 2 (.var "c") (.print 3 (.const 0)) (.print 4 (.const 1)))

/-- With five edges there is one round through either arm, the second arm first, and not two rounds. -/
theorem boundedPaths_exact_ferry : ∃ g paths, FlowGraph.ofProgram ferry = .ok g ∧
    (g.boundedPaths 5).Yields paths ∧ (g.boundedWalk 5).Yields paths ∧
    paths.Pairwise (fun q q' => List.Lex (· < ·) (g.turns q) (g.turns q')) ∧
    [.entry, .point 1, .point 2, .point 4, .point 1, .exit] ∈ paths ∧
    [.entry, .point 1, .point 2, .point 3, .point 1, .exit] ∈ paths ∧
    [.entry, .point 1, .point 2, .point 4, .point 1, .point 2, .point 3, .point 1, .exit] ∉ paths ∧
    List.Lex (· < ·) (g.turns [.entry, .point 1, .point 2, .point 4, .point 1, .exit])
      (g.turns [.entry, .point 1, .point 2, .point 3, .point 1, .exit]) := by
  have hg := ofProgram_of_nodup (p := ferry) (by decide)
  obtain ⟨-, paths, hyields, hwalk, -, hmem, hsorted⟩ := boundedPaths_exact hg 5
  refine ⟨_, paths, hg, hyields, hwalk, hsorted, ?_, ?_, ?_, ?_⟩
  · exact (hmem _).2 ⟨⟨rfl, rfl, by decide⟩, by decide⟩
  · exact (hmem _).2 ⟨⟨rfl, rfl, by decide⟩, by decide⟩
  · intro hin
    exact absurd ((hmem _).1 hin).2 (by decide)
  · decide

end Pathwise
