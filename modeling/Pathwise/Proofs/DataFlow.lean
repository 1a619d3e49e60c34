import Mathlib.Data.List.Perm.Subperm
import Pathwise.DataFlow
import Pathwise.Proofs.Ascending
import Pathwise.Proofs.Backtracking
import Pathwise.Proofs.Shape

/-!
The search for uses is exact.

A value is carried from its definition to a use along nodes that neither read nor write the variable
(`Carries`). The search goes forward from a definition and drops a path where it comes to a node that it
has passed, so it finds the ways on which the nodes between the ends are distinct
(`mem_usePaths`, `mem_duPaths_iff`). Such a way has no more nodes than the graph
(`length_le_of_leads_useRule`), so the depth that the search is given cuts nothing off: a walk without a
bound that keeps one path finds the same (`yields_useWalk`).
-/

namespace Pathwise

namespace FlowGraph

/-- The value that `x` gets at `d` is first read at `u`, if control goes from one to the other through
the nodes `between`. -/
structure Carries (g : FlowGraph) (x : String) (d : Node) (between : List Node) (u : Node) : Prop where
  defined : x ∈ g.defs d
  used : x ∈ g.refs u
  clear : ∀ n ∈ between, x ∉ g.refs n ∧ x ∉ g.defs n

end FlowGraph

open FlowGraph

variable {g : FlowGraph} {p : Program} {x : String} {n m : Node}

/-! ## The table of accesses -/

theorem mem_defs : x ∈ g.defs n ↔ ∃ e ∈ g.outgoing n, e.action.defined? = some x := by
  rw [defs, mem_ascending, List.mem_filterMap]

theorem mem_refs : x ∈ g.refs n ↔
    ∃ e ∈ g.outgoing n, x ∈ e.guard.occurrences ∨ x ∈ e.action.occurrences := by
  simp only [refs, mem_ascending, List.mem_flatMap, List.mem_append]

theorem mem_nodes_of_mem_defs (hg : FlowGraph.ofProgram p = .ok g) (hx : x ∈ g.defs n) :
    n ∈ g.nodes := by
  obtain ⟨e, he, -⟩ := mem_defs.1 hx
  obtain ⟨hedge, rfl⟩ := mem_outgoing.1 he
  exact source_mem_nodes hg hedge

theorem mem_nodes_of_mem_refs (hg : FlowGraph.ofProgram p = .ok g) (hx : x ∈ g.refs n) :
    n ∈ g.nodes := by
  obtain ⟨e, he, -⟩ := mem_refs.1 hx
  obtain ⟨hedge, rfl⟩ := mem_outgoing.1 he
  exact source_mem_nodes hg hedge

namespace Accesses

theorem find?_ofGraph (g : FlowGraph) (n : Node) : (ofGraph g).find? (·.node = n) =
    if n ∈ g.nodes then some ⟨n, g.defs n, g.refs n⟩ else none := by
  unfold ofGraph
  induction g.nodes with
  | nil => rfl
  | cons a nodes ih =>
    by_cases ha : a = n
    · simp [ha]
    · simp [ha, ih, Ne.symm ha]

theorem uses_ofGraph (hg : FlowGraph.ofProgram p = .ok g) :
    (ofGraph g).uses n x = true ↔ x ∈ g.refs n := by
  rw [uses, find?_ofGraph]
  by_cases hn : n ∈ g.nodes
  · simp [hn]
  · have hx : x ∉ g.refs n := fun hx => hn (mem_nodes_of_mem_refs hg hx)
    simp [hn, hx]

theorem defines_ofGraph (hg : FlowGraph.ofProgram p = .ok g) :
    (ofGraph g).defines n x = true ↔ x ∈ g.defs n := by
  rw [defines, find?_ofGraph]
  by_cases hn : n ∈ g.nodes
  · simp [hn]
  · have hx : x ∉ g.defs n := fun hx => hn (mem_nodes_of_mem_defs hg hx)
    simp [hn, hx]

theorem exists_mem_definitions_iff :
    (∃ ns, (x, ns) ∈ (ofGraph g).definitions ∧ n ∈ ns) ↔ n ∈ g.nodes ∧ x ∈ g.defs n := by
  simp only [definitions, byVariable, ofGraph, List.mem_map, Prod.mk.injEq, mem_ascending,
    List.mem_flatMap]
  constructor
  · rintro ⟨_, ⟨_, -, rfl, rfl⟩, hn⟩
    obtain ⟨a, ha, rfl⟩ := List.mem_map.1 (mem_ascending.1 hn)
    obtain ⟨hmem, hx⟩ := List.mem_filter.1 ha
    obtain ⟨k, hk, rfl⟩ := List.mem_map.1 hmem
    exact ⟨hk, by simpa using hx⟩
  · rintro ⟨hn, hx⟩
    refine ⟨_, ⟨x, ⟨_, ⟨n, hn, rfl⟩, hx⟩, rfl, rfl⟩, mem_ascending.2 ?_⟩
    exact List.mem_map.2 ⟨_, List.mem_filter.2 ⟨List.mem_map_of_mem hn, by simpa using hx⟩, rfl⟩

end Accesses

/-! ## The search -/

namespace FlowGraph

variable {t : Accesses} {depth : Nat} {earlier : List Node}

/-- The search for a use of `x` that has come through `earlier` goes on through `n`. -/
structure GoesOn (t : Accesses) (x : String) (earlier : List Node) (n : Node) : Prop where
  unused : t.uses n x = false
  ne_exit : n ≠ .exit
  undefined : t.defines n x = false
  unvisited : n ∉ earlier

theorem goesOn_cons_iff {a : Node} :
    GoesOn t x (a :: earlier) n ↔ GoesOn t x earlier n ∧ n ≠ a := by
  constructor
  · rintro ⟨hu, he, hd, hv⟩
    rw [List.mem_cons, not_or] at hv
    exact ⟨⟨hu, he, hd, hv.2⟩, hv.1⟩
  · rintro ⟨⟨hu, he, hd, hv⟩, hne⟩
    exact ⟨hu, he, hd, by simp [hne, hv]⟩

theorem usePaths_of_uses (hu : t.uses n x = true) :
    g.usePaths t x (depth + 1) earlier n = [(n :: earlier).reverse] := by
  rw [usePaths, if_pos hu]

theorem usePaths_of_goesOn (hn : GoesOn t x earlier n) : g.usePaths t x (depth + 1) earlier n =
    (g.successors n).flatMap (g.usePaths t x depth (n :: earlier)) := by
  obtain ⟨hu, he, hd, hv⟩ := hn
  rw [usePaths, if_neg (by simp [hu]), if_neg (by simp [he, hd, hv])]

theorem usePaths_of_stops (hu : t.uses n x = false) (hn : ¬ GoesOn t x earlier n) :
    g.usePaths t x (depth + 1) earlier n = [] := by
  rw [usePaths, if_neg (by simp [hu]), if_pos]
  by_contra hgo
  simp only [not_or, Bool.not_eq_true] at hgo
  exact hn ⟨hu, hgo.1, hgo.2.1, hgo.2.2⟩

/-- What the search finds goes on through distinct new nodes and ends at a use. -/
theorem mem_usePaths {q : Path} : q ∈ g.usePaths t x depth earlier n ↔
    ∃ between m, q = earlier.reverse ++ (between ++ [m]) ∧ g.IsPathFrom n m (between ++ [m]) ∧
      t.uses m x = true ∧ (∀ k ∈ between, GoesOn t x earlier k) ∧ between.Nodup ∧
      between.length < depth := by
  induction depth generalizing earlier n with
  | zero => simp [usePaths]
  | succ depth ih =>
    constructor
    · intro hq
      by_cases hu : t.uses n x = true
      · rw [usePaths_of_uses hu, List.mem_singleton] at hq
        exact ⟨[], n, by simp [hq], .single n, hu, by simp, .nil, Nat.succ_pos _⟩
      rw [Bool.not_eq_true] at hu
      by_cases hgo : GoesOn t x earlier n
      · rw [usePaths_of_goesOn hgo, List.mem_flatMap] at hq
        obtain ⟨k, hk, hq⟩ := hq
        obtain ⟨between, m, rfl, hpath, hm, hclear, hnodup, hlen⟩ := ih.1 hq
        simp only [goesOn_cons_iff, forall_and] at hclear
        refine ⟨n :: between, m, by simp, hpath.cons hk, hm, ?_, ?_, Nat.succ_lt_succ hlen⟩
        · exact List.forall_mem_cons.2 ⟨hgo, hclear.1⟩
        · exact List.nodup_cons.2 ⟨fun hn => hclear.2 n hn rfl, hnodup⟩
      · simp [usePaths_of_stops hu hgo] at hq
    · rintro ⟨between, m, rfl, hpath, hm, hclear, hnodup, hlen⟩
      match between with
      | [] =>
        obtain rfl : m = n := by simpa using hpath.head
        simp [usePaths_of_uses hm]
      | a :: between =>
        obtain rfl : a = n := by simpa using hpath.head
        obtain ⟨hgo, hclear⟩ := List.forall_mem_cons.1 hclear
        obtain ⟨ha, hnodup⟩ := List.nodup_cons.1 hnodup
        -- the use is another node, so there is a step to take
        have hne : a ≠ m := by
          rintro rfl
          simp [hgo.unused] at hm
        obtain ⟨k, hk, v, heq, hv⟩ := hpath.uncons hne
        obtain rfl := (List.cons.inj heq).2
        rw [usePaths_of_goesOn hgo, List.mem_flatMap]
        refine ⟨k, hk, ih.2 ⟨between, m, by simp, hv, hm, fun b hb => ?_, hnodup, ?_⟩⟩
        · exact goesOn_cons_iff.2 ⟨hclear b hb, fun h => ha (h ▸ hb)⟩
        · exact Nat.lt_of_succ_lt_succ hlen

/-! ## The walk -/

/-- The search as a growth of trails. -/
def useRule (g : FlowGraph) (t : Accesses) (x : String) : Growth Trail Path where
  result? s := if t.uses s.node x then some s.path else none
  children s := if s.node = .exit ∨ t.defines s.node x ∨ s.node ∈ s.earlier then []
    else (g.successors s.node).map s.extend

theorem result?_useRule_of_uses {s : Trail} (hu : t.uses s.node x = true) :
    (g.useRule t x).result? s = some s.path :=
  if_pos hu

theorem result?_useRule_eq_none {s : Trail} :
    (g.useRule t x).result? s = none ↔ t.uses s.node x = false := by
  simp [useRule]

theorem children_of_goesOn {s : Trail} (hs : GoesOn t x s.earlier s.node) :
    (g.useRule t x).children s = (g.successors s.node).map s.extend :=
  if_neg (by simp [hs.ne_exit, hs.undefined, hs.unvisited])

theorem children_of_stops {s : Trail} (hu : t.uses s.node x = false)
    (hs : ¬ GoesOn t x s.earlier s.node) : (g.useRule t x).children s = [] := by
  refine if_pos ?_
  by_contra hgo
  simp only [not_or, Bool.not_eq_true] at hgo
  exact hs ⟨hu, hgo.1, hgo.2.1, hgo.2.2⟩

theorem usePaths_of_unused (hu : t.uses n x = false) (depth : Nat) (earlier : List Node) :
    g.usePaths t x (depth + 1) earlier n =
      ((g.useRule t x).children ⟨n, earlier⟩).flatMap fun s => g.usePaths t x depth s.earlier s.node := by
  by_cases hgo : GoesOn t x earlier n
  · rw [usePaths_of_goesOn hgo, children_of_goesOn hgo, List.flatMap_map]
    rfl
  · rw [usePaths_of_stops hu hgo, children_of_stops hu hgo]
    rfl

/-- The search goes through the states of the growth. Its depth counts the last node too. -/
theorem usePaths_succ (g : FlowGraph) (t : Accesses) (x : String) (depth : Nat) (earlier : List Node)
    (n : Node) : g.usePaths t x (depth + 1) earlier n = (g.useRule t x).results depth ⟨n, earlier⟩ := by
  induction depth generalizing earlier n with
  | zero =>
    cases hu : t.uses n x with
    | true =>
      rw [usePaths_of_uses hu, Growth.results_of_some (result?_useRule_of_uses hu)]
      rfl
    | false =>
      rw [usePaths_of_unused hu, Growth.results_zero (result?_useRule_eq_none.2 hu)]
      simp [usePaths]
  | succ depth ih =>
    cases hu : t.uses n x with
    | true =>
      rw [usePaths_of_uses hu, Growth.results_of_some (result?_useRule_of_uses hu)]
      rfl
    | false =>
      rw [usePaths_of_unused hu, Growth.results_succ (result?_useRule_eq_none.2 hu)]
      exact List.flatMap_congr fun s _ => ih s.earlier s.node

/-- What the search has passed are distinct nodes of the graph, so it comes to an end by itself. -/
theorem length_le_of_leads_useRule (hg : FlowGraph.ofProgram p = .ok g) {s s' : Trail} {j : Nat}
    (h : (g.useRule t x).Leads j s s') (hs : s.node ∈ g.nodes) (hnodup : s.earlier.Nodup)
    (hsub : s.earlier ⊆ g.nodes) : j + s.earlier.length ≤ g.nodes.length := by
  induction h with
  | refl s =>
    rw [Nat.zero_add]
    exact (List.subperm_of_subset hnodup hsub).length_le
  | @step j s c s' hnone hc _ ih =>
    by_cases hgo : GoesOn t x s.earlier s.node
    · rw [children_of_goesOn hgo] at hc
      obtain ⟨m, hm, rfl⟩ := List.mem_map.1 hc
      have hle := ih (mem_nodes_of_mem_successors hg hm) (List.nodup_cons.2 ⟨hgo.unvisited, hnodup⟩)
        (List.cons_subset.2 ⟨hs, hsub⟩)
      simp only [Trail.extend, List.length_cons] at hle
      omega
    · rw [children_of_stops (result?_useRule_eq_none.1 hnone) hgo] at hc
      cases hc

theorem visit_useWalk_of_uses {m : Node} (hu : t.uses m x = true) (n : Node) (depth : Nat) (path : Path) :
    (g.useWalk t x n).visit depth path m = .pass (some (path ++ [m])) :=
  if_pos hu

theorem visit_useWalk_of_goesOn {m : Node} {path : Path} (hm : GoesOn t x path.reverse m) (n : Node)
    (depth : Nat) : (g.useWalk t x n).visit depth path m = .enter m none (g.successors m) := by
  obtain ⟨hu, he, hd, hv⟩ := hm
  rw [List.mem_reverse] at hv
  simp [useWalk, hu, he, hd, hv]

theorem visit_useWalk_of_stops {m : Node} {path : Path} (hu : t.uses m x = false)
    (hm : ¬ GoesOn t x path.reverse m) (n : Node) (depth : Nat) :
    (g.useWalk t x n).visit depth path m = .pass none := by
  have hstops : m = .exit ∨ t.defines m x ∨ m ∈ path := by
    by_contra hgo
    simp only [not_or, Bool.not_eq_true] at hgo
    exact hm ⟨hu, hgo.1, hgo.2.1, fun hv => hgo.2.2 (List.mem_reverse.1 hv)⟩
  simp [useWalk, hu, hstops]

/-- The frames of the walk are the trails of the search. -/
theorem follows_useWalk (g : FlowGraph) (t : Accesses) (x : String) (n : Node) :
    Backtracker.Follows (g.useWalk t x n).visit (g.useRule t x) Trail.behind fun d path m =>
      ∀ j s, (g.useRule t x).Leads j (Trail.behind path m) s → j ≤ d := by
  refine .ofChains ?_ ?_ ?_
  · intro path m
    by_cases hu : t.uses m x = true
    · rw [visit_useWalk_of_uses hu, result?_useRule_of_uses hu, Trail.path_behind]
      rfl
    · rw [Bool.not_eq_true] at hu
      rw [result?_useRule_eq_none.2 hu]
      by_cases hgo : GoesOn t x path.reverse m
      · rw [visit_useWalk_of_goesOn hgo]
        rfl
      · rw [visit_useWalk_of_stops hu hgo]
        rfl
  · intro path m h
    have hu : t.uses m x = true := by
      by_contra hu
      exact h (result?_useRule_eq_none.2 (Bool.not_eq_true _ ▸ hu))
    rw [visit_useWalk_of_uses hu]
    rfl
  · intro path m hnone
    have hu : t.uses m x = false := result?_useRule_eq_none.1 hnone
    by_cases hgo : GoesOn t x path.reverse m
    · rw [visit_useWalk_of_goesOn hgo, children_of_goesOn hgo]
      exact List.map_congr_left fun k _ => Trail.extend_behind path m k
    · rw [visit_useWalk_of_stops hu hgo, children_of_stops hu hgo]
      rfl

/-- The walk from a definition ends by itself, with the paths to the first uses. -/
theorem yields_useWalk (hg : FlowGraph.ofProgram p = .ok g) (hn : n ∈ g.nodes) (t : Accesses)
    (x : String) : (g.useWalk t x n).Yields
      ((g.successors n).flatMap (g.usePaths t x g.nodes.length [n])) := by
  obtain ⟨d, hd⟩ : ∃ d, g.nodes.length = d + 1 :=
    Nat.exists_eq_succ_of_ne_zero (Nat.ne_of_gt (List.length_pos_of_mem hn))
  have hroom : ∀ m ∈ g.successors n, ∀ j s, (g.useRule t x).Leads j (Trail.behind [n] m) s → j ≤ d := by
    intro m hm j s hlead
    have hle := length_le_of_leads_useRule hg hlead (mem_nodes_of_mem_successors hg hm)
      (List.nodup_singleton n) (by simpa [Trail.behind] using hn)
    simp only [Trail.behind, List.reverse_singleton, List.length_singleton] at hle
    omega
  have hpaths : g.usePaths t x g.nodes.length [n] = fun m => (g.useRule t x).results d (.behind [n] m) := by
    funext m
    rw [hd, usePaths_succ]
    rfl
  rw [hpaths]
  exact (follows_useWalk g t x n).yields_results hroom

theorem mem_duPaths {w : Path} : ⟨x, w⟩ ∈ g.duPaths ↔ ∃ n ∈ g.nodes, x ∈ g.defs n ∧
    ∃ k ∈ g.successors n, w ∈ g.usePaths (.ofGraph g) x g.nodes.length [n] k := by
  simp only [duPaths, duPathsFrom, mem_ascending, List.mem_flatMap, List.mem_map, DuPath.mk.injEq]
  constructor
  · rintro ⟨⟨y, ns⟩, hd, n, hn, q, ⟨k, hk, hq⟩, rfl, rfl⟩
    obtain ⟨hmem, hx⟩ := Accesses.exists_mem_definitions_iff.1 ⟨ns, hd, hn⟩
    exact ⟨n, hmem, hx, k, hk, hq⟩
  · rintro ⟨n, hn, hx, k, hk, hw⟩
    obtain ⟨ns, hd, hmem⟩ := Accesses.exists_mem_definitions_iff.2 ⟨hn, hx⟩
    exact ⟨(x, ns), hd, n, hmem, w, ⟨k, hk, hw⟩, rfl, rfl⟩

end FlowGraph

/-! ## Built graphs -/

theorem isPathFrom_of_isPath {between : List Node} (h : g.isPath (n :: (between ++ [m])) = true) :
    g.IsPathFrom n m (n :: (between ++ [m])) :=
  ⟨rfl, by simp [List.getLast?_cons], h⟩

theorem isPath_cons_iff {w : Path} (hw : w ≠ []) : g.isPath (n :: w) = true ↔
    ∃ k ∈ g.successors n, w.head? = some k ∧ g.isPath w = true := by
  match w with
  | [] => exact absurd rfl hw
  | k :: w => simp [isPath_cons_cons]

/-- A node from which a path goes on is a node of the graph and not the exit. -/
theorem mem_nodes_of_isPath (hg : FlowGraph.ofProgram p = .ok g) {v : Path}
    (hpath : g.isPath (v ++ [m]) = true) (hn : n ∈ v) : n ∈ g.nodes ∧ n ≠ .exit := by
  obtain ⟨a, b, rfl⟩ := List.append_of_mem hn
  rw [List.append_assoc, List.cons_append, isPath_append] at hpath
  obtain ⟨k, hk, -⟩ := (isPath_cons_iff (by simp)).1 hpath.2
  obtain ⟨e, he, -⟩ := mem_successors.1 hk
  refine ⟨(mem_outgoing.1 he).2 ▸ source_mem_nodes hg (mem_outgoing.1 he).1, ?_⟩
  rintro rfl
  simp [outgoing_exit hg] at he

theorem goesOn_iff (hg : FlowGraph.ofProgram p = .ok g) {earlier : List Node} :
    GoesOn (.ofGraph g) x earlier n ↔
      (x ∉ g.refs n ∧ x ∉ g.defs n) ∧ n ≠ .exit ∧ n ∉ earlier := by
  rw [← Accesses.uses_ofGraph hg, ← Accesses.defines_ofGraph hg, Bool.not_eq_true, Bool.not_eq_true]
  exact ⟨fun ⟨hu, he, hd, hv⟩ => ⟨⟨hu, hd⟩, he, hv⟩, fun ⟨⟨hu, hd⟩, he, hv⟩ => ⟨hu, he, hd, hv⟩⟩

theorem mem_duPaths_iff (hg : FlowGraph.ofProgram p = .ok g) {w : Path} : ⟨x, w⟩ ∈ g.duPaths ↔
    ∃ n between m, w = n :: (between ++ [m]) ∧ g.isPath w = true ∧ g.Carries x n between m ∧
      between.Nodup := by
  rw [mem_duPaths]
  constructor
  · rintro ⟨n, hn, hx, k, hk, hw⟩
    obtain ⟨between, m, rfl, hpath, hm, hclear, hnodup, -⟩ := mem_usePaths.1 hw
    refine ⟨n, between, m, rfl, (hpath.cons hk).follows,
      ⟨hx, (Accesses.uses_ofGraph hg).1 hm, fun a ha => ?_⟩, hnodup⟩
    exact ((goesOn_iff hg).1 (hclear a ha)).1
  · rintro ⟨n, between, m, rfl, hpath, ⟨hx, hm, hclear⟩, hnodup⟩
    have hn : n ∉ between := fun hn => (hclear n hn).2 hx
    have hinner : ∀ a ∈ n :: between, a ∈ g.nodes ∧ a ≠ .exit := fun a ha =>
      mem_nodes_of_isPath hg hpath ha
    have hlen : (n :: between).length ≤ g.nodes.length :=
      (List.subperm_of_subset (List.nodup_cons.2 ⟨hn, hnodup⟩) fun a ha => (hinner a ha).1).length_le
    obtain ⟨k, hk, hhead, hrest⟩ := (isPath_cons_iff (by simp)).1 hpath
    refine ⟨n, (hinner n List.mem_cons_self).1, hx, k, hk, mem_usePaths.2 ⟨between, m, by simp,
      ⟨hhead, by simp, hrest⟩, (Accesses.uses_ofGraph hg).2 hm, fun a ha => ?_, hnodup, hlen⟩⟩
    refine (goesOn_iff hg).2 ⟨hclear a ha, (hinner a (List.mem_cons_of_mem n ha)).2, ?_⟩
    rw [List.mem_singleton]
    exact fun h => hn (h ▸ ha)

/-- The paths from definitions to uses, by variable and then by path, are the ways through distinct
nodes that carry a value to its first use. From each definition they are those that a walk finds which
keeps one path and ends by itself. -/
theorem duPaths_exact (hg : FlowGraph.ofProgram p = .ok g) :
    (∀ x, ∀ n ∈ g.nodes, ∃ paths, (g.useWalk (.ofGraph g) x n).Yields paths ∧
      g.duPathsFrom (.ofGraph g) x n = paths.map (⟨x, ·⟩)) ∧
    g.duPaths.Pairwise (fun d e => compare d.var e.var = .lt ∨
      d.var = e.var ∧ compare d.path e.path = .lt) ∧
    ∀ x w, ⟨x, w⟩ ∈ g.duPaths ↔ ∃ n between m, w = n :: (between ++ [m]) ∧ g.isPath w = true ∧
      g.Carries x n between m ∧ between.Nodup := by
  refine ⟨fun x n hn => ⟨_, yields_useWalk hg hn _ x, rfl⟩, ?_, fun x w => mem_duPaths_iff hg⟩
  refine (pairwise_ascending _).imp fun {d e} hlt => ?_
  rcases Ordering.then_eq_lt.1 hlt with hvar | ⟨hvar, hpath⟩
  · exact .inl hvar
  · exact .inr ⟨Std.LawfulEqOrd.eq_of_compare hvar, hpath⟩

/-- A loop with a choice, an inner loop that touches no other variable than its own, and a counter. -/
def relay : Program :=
  .loop 1 (.var "a") (.block [.branch 2 (.var "b") (.print 3 (.var "s")) .skip,
    .assign 4 "s" (.var "n"), .loop 6 (.var "d") .skip,
    .assign 5 "c" (.binary .add (.var "c") (.const 1))])

/-- The counter is read where it was written, one round later; what is written to `s` a second time on
the way does not count. -/
theorem duPaths_exact_relay : ∃ g, FlowGraph.ofProgram relay = .ok g ∧
    ⟨"c", [.point 5, .point 1, .point 2, .point 4, .point 6, .point 5]⟩ ∈ g.duPaths ∧
    ⟨"s", [.point 4, .point 6, .point 5, .point 1, .point 2, .point 4, .point 6, .point 5, .point 1,
      .point 2, .point 3]⟩ ∉ g.duPaths := by
  have hg : FlowGraph.ofProgram relay = .ok (layOut relay) := ofProgram_of_nodup (by decide)
  obtain ⟨-, -, h⟩ := duPaths_exact hg
  refine ⟨_, hg, (h _ _).2 ⟨_, [.point 1, .point 2, .point 4, .point 6], _, rfl, by decide +kernel,
    ⟨by decide +kernel, by decide +kernel, by decide +kernel⟩, by decide⟩, fun hin => ?_⟩
  obtain ⟨n, between, m, heq, -, hcarries, -⟩ := (h _ _).1 hin
  have hbetween : Node.point 4 ∈ between := by
    have hinner := congrArg (fun w : Path => w.tail.dropLast) heq
    simp only [List.tail_cons, List.dropLast_concat] at hinner
    simp [← hinner]
  exact (hcarries.clear _ hbetween).2 (by decide +kernel)

end Pathwise
