import Pathwise.FlowGraph.Distance
import Pathwise.Proofs.Ascending
import Pathwise.Proofs.Shape

/-!
Distances are the least numbers of steps from the entry.

A node is at distance `d + 1` if it comes one step after a node at distance `d` and is at no smaller
distance (`isAtDistance_succ_iff`). The queue of the search has at most two layers, nodes at one distance
and behind them nodes at the next (`Layered`). A turn of the search keeps the layers (`Layered.turn`), and
where the first is used up the second takes its place (`Layered.shift`). When the queue is empty, every
node is met at its distance (`lookup_explore`).
-/

namespace Pathwise

namespace FlowGraph

/-- A path of `d` edges leads from the entry to `n`. -/
def ReachedIn (g : FlowGraph) (d : Nat) (n : Node) : Prop :=
  ∃ w, g.IsPathFrom .entry n w ∧ w.arcs.length = d

/-- A path of `d` edges leads from the entry to `n`, and none of fewer edges does. -/
structure IsAtDistance (g : FlowGraph) (d : Nat) (n : Node) : Prop where
  reached : g.ReachedIn d n
  least : ∀ e < d, ¬ g.ReachedIn e n

variable {g : FlowGraph} {d e : Nat} {n m : Node} {w : Path}

/-! ## Paths by their last step -/

theorem IsPathFrom.length_eq (hw : g.IsPathFrom n m w) : w.length = w.arcs.length + 1 := by
  obtain ⟨t, rfl⟩ := hw.eq_cons
  rw [length_arcs, List.length_cons]

theorem reachedIn_zero_iff : g.ReachedIn 0 n ↔ n = .entry := by
  constructor
  · rintro ⟨w, hw, hlen⟩
    obtain ⟨t, rfl⟩ := hw.eq_cons
    rw [length_arcs, List.length_eq_zero_iff] at hlen
    subst hlen
    simpa using hw.last.symm
  · rintro rfl
    exact ⟨[.entry], .single .entry, rfl⟩

theorem reachedIn_succ_iff :
    g.ReachedIn (d + 1) n ↔ ∃ m, g.ReachedIn d m ∧ n ∈ g.successors m := by
  constructor
  · rintro ⟨w, hw, hlen⟩
    have hw_length := hw.length_eq
    obtain ⟨v, rfl⟩ := hw.eq_concat
    rw [List.length_append, List.length_singleton] at hw_length
    -- There is a node before the last one, since the path has an edge.
    obtain ⟨u, m, rfl⟩ := (List.eq_nil_or_concat' v).resolve_left (by
      rintro rfl
      rw [List.length_nil] at hw_length
      omega)
    rw [List.append_assoc] at hw
    obtain ⟨hm, hlast⟩ := hw.split
    have hm_length := hm.length_eq
    exact ⟨m, ⟨_, hm, by omega⟩, (isPath_cons_cons.1 hlast.follows).1⟩
  · rintro ⟨m, ⟨w, hw, rfl⟩, hn⟩
    have hstep := hw.trans ((IsPathFrom.single n).cons hn)
    have hw_length := hw.length_eq
    have hstep_length := hstep.length_eq
    rw [List.length_append, List.length_singleton] at hstep_length
    exact ⟨_, hstep, by omega⟩

/-! ## Distances by their last step -/

theorem IsAtDistance.unique (h : g.IsAtDistance d n) (h' : g.IsAtDistance e n) : d = e := by
  rcases Nat.lt_trichotomy d e with hlt | heq | hgt
  · exact absurd h.reached (h'.least d hlt)
  · exact heq
  · exact absurd h'.reached (h.least e hgt)

theorem ReachedIn.exists_isAtDistance (h : g.ReachedIn e n) : ∃ d ≤ e, g.IsAtDistance d n := by
  induction e using Nat.strongRecOn with
  | _ e ih =>
    by_cases hleast : ∃ d < e, g.ReachedIn d n
    · obtain ⟨d, hd, hreached⟩ := hleast
      obtain ⟨d', hd', hdist⟩ := ih d hd hreached
      exact ⟨d', by omega, hdist⟩
    · exact ⟨e, Nat.le_refl e, h, fun d hd hreached => hleast ⟨d, hd, hreached⟩⟩

theorem isAtDistance_zero_iff : g.IsAtDistance 0 n ↔ n = .entry := by
  rw [← reachedIn_zero_iff (g := g)]
  exact ⟨fun h => h.reached, fun h => ⟨h, fun e he => absurd he (Nat.not_lt_zero e)⟩⟩

/-- The nodes at distance `d + 1` come one step after those at distance `d`, and are no closer. -/
theorem isAtDistance_succ_iff : g.IsAtDistance (d + 1) n ↔
    (∃ m, g.IsAtDistance d m ∧ n ∈ g.successors m) ∧ ∀ e ≤ d, ¬ g.IsAtDistance e n := by
  constructor
  · intro h
    obtain ⟨m, hm, hn⟩ := reachedIn_succ_iff.1 h.reached
    refine ⟨⟨m, ⟨hm, fun e he hreached => ?_⟩, hn⟩, fun e he h' => ?_⟩
    -- A shorter way to `m` would go on to `n` by one step.
    · exact h.least (e + 1) (by omega) (reachedIn_succ_iff.2 ⟨m, hreached, hn⟩)
    · exact h.least e (by omega) h'.reached
  · rintro ⟨⟨m, hm, hn⟩, hfar⟩
    refine ⟨reachedIn_succ_iff.2 ⟨m, hm.reached, hn⟩, fun e he hreached => ?_⟩
    obtain ⟨d', hd', hdist⟩ := hreached.exists_isAtDistance
    exact hfar d' (by omega) hdist

/-! ## The queue -/

/-- What the search knows while it goes on from the nodes at distance `d`: of the queue, `now` has nodes
at distance `d` and `later`, behind them, the nodes met at distance `d + 1`. All nodes up to distance `d`
are met, and so is what comes after those at distance `d` that the search went on from. -/
structure Layered (g : FlowGraph) (d : Nat) (met : List (Node × Nat)) (now later : List Node) : Prop where
  known : ∀ n e, met.lookup n = some e → g.IsAtDistance e n ∧ e ≤ d + 1
  near : ∀ n e, g.IsAtDistance e n → e ≤ d → met.lookup n = some e
  first : ∀ n ∈ now, g.IsAtDistance d n
  second : ∀ n, n ∈ later ↔ met.lookup n = some (d + 1)
  done : ∀ n, g.IsAtDistance d n → n ∉ now → ∀ m ∈ g.successors n, (met.lookup m).isSome

variable {met : List (Node × Nat)} {now later : List Node}

theorem layered_entry (g : FlowGraph) : g.Layered 0 [(.entry, 0)] [.entry] [] where
  known n e h := by
    rw [lookup_cons_eq_ite, List.lookup_nil, Option.ite_none_right_eq_some] at h
    obtain ⟨rfl, he⟩ := h
    cases he
    exact ⟨isAtDistance_zero_iff.2 rfl, Nat.zero_le _⟩
  near n e h he := by
    obtain rfl : e = 0 := by omega
    obtain rfl := isAtDistance_zero_iff.1 h
    rfl
  first n hn := isAtDistance_zero_iff.2 (List.mem_singleton.1 hn)
  second n := by
    rw [lookup_cons_eq_ite, List.lookup_nil, Option.ite_none_right_eq_some]
    simp
  done n h hn := absurd (List.mem_singleton.2 (isAtDistance_zero_iff.1 h)) hn

namespace Layered

/-- A node one step after the first layer that is not met yet belongs to the second. -/
theorem enter (h : g.Layered d met now later) (hn : g.IsAtDistance d n) (hm : m ∈ g.successors n)
    (hnone : met.lookup m = none) : g.Layered d ((m, d + 1) :: met) now (later ++ [m]) where
  known k e hk := by
    rw [lookup_cons_eq_ite] at hk
    split at hk
    · rename_i hkm
      cases hk
      refine ⟨isAtDistance_succ_iff.2 ⟨⟨n, hn, hkm ▸ hm⟩, fun e he hdist => ?_⟩, Nat.le_refl _⟩
      rw [← hkm, h.near k e hdist he] at hnone
      cases hnone
    · exact h.known k e hk
  near k e hdist he := by
    have hk := h.near k e hdist he
    rw [lookup_cons_eq_ite, if_neg, hk]
    rintro rfl
    rw [hk] at hnone
    cases hnone
  first := h.first
  second k := by
    rw [lookup_cons_eq_ite, List.mem_append, List.mem_singleton, h.second]
    by_cases hkm : k = m
    · simp [hkm]
    · simp [hkm]
  done k hk hknow j hj := by
    rw [lookup_cons_eq_ite]
    split
    · rfl
    · exact h.done k hk hknow j hj

/-- To meet nodes one step after the first layer keeps the layers, leaves all of them met, and puts what
is new at the end of the queue. -/
theorem exists_meet (h : g.Layered d met now later) (hn : g.IsAtDistance d n) {ms : List Node}
    (hms : ∀ m ∈ ms, m ∈ g.successors n) (rest : List Node) :
    ∃ met' later', meet (d + 1) ms met (rest ++ later) = (met', rest ++ later') ∧
      g.Layered d met' now later' ∧ ∀ k, k ∈ ms ∨ (met.lookup k).isSome → (met'.lookup k).isSome := by
  induction ms generalizing met later with
  | nil => exact ⟨met, later, rfl, h, by simp⟩
  | cons m ms ih =>
    have hrest : ∀ k ∈ ms, k ∈ g.successors n := fun k hk => hms k (List.mem_cons_of_mem m hk)
    rw [meet]
    by_cases hm : (met.lookup m).isSome
    · rw [if_pos hm]
      obtain ⟨met', later', heq, hlayers, hmet⟩ := ih h hrest
      refine ⟨met', later', heq, hlayers, fun k hk => hmet k ?_⟩
      rcases hk with hk | hk
      · rcases List.mem_cons.1 hk with rfl | hk
        · exact .inr hm
        · exact .inl hk
      · exact .inr hk
    · rw [if_neg hm, List.append_assoc]
      have hnone := Option.not_isSome_iff_eq_none.1 hm
      obtain ⟨met', later', heq, hlayers, hmet⟩ := ih (h.enter hn (hms m List.mem_cons_self) hnone) hrest
      refine ⟨met', later', heq, hlayers, fun k hk => hmet k ?_⟩
      rw [lookup_cons_eq_ite]
      by_cases hkm : k = m
      · exact .inr (by simp [hkm])
      · simpa [hkm] using hk

/-- The first node of the queue is dealt with once all nodes after it are met. -/
theorem pop (h : g.Layered d met (n :: now) later) (hn : ∀ m ∈ g.successors n, (met.lookup m).isSome) :
    g.Layered d met now later where
  known := h.known
  near := h.near
  first k hk := h.first k (List.mem_cons_of_mem n hk)
  second := h.second
  done k hk hknow := by
    by_cases hkn : k = n
    · subst hkn
      exact hn
    · exact h.done k hk (by simp [hkn, hknow])

/-- One turn of the search: it goes on from the first node of the queue. -/
theorem turn (h : g.Layered d met (n :: now) later) :
    ∃ met' later', meet ((met.lookup n).getD 0 + 1) (g.successors n) met (now ++ later) =
      (met', now ++ later') ∧ g.Layered d met' now later' := by
  have hn : g.IsAtDistance d n := h.first n List.mem_cons_self
  obtain ⟨met', later', heq, hlayers, hmet⟩ := h.exists_meet hn (fun m hm => hm) now
  refine ⟨met', later', ?_, hlayers.pop fun m hm => hmet m (.inl hm)⟩
  rw [h.near n d hn (Nat.le_refl d), Option.getD_some, heq]

/-- Once the first layer is dealt with, all of the second is met. -/
theorem near_succ (h : g.Layered d met [] later) (hdist : g.IsAtDistance (d + 1) n) :
    met.lookup n = some (d + 1) := by
  obtain ⟨⟨m, hm, hn⟩, -⟩ := isAtDistance_succ_iff.1 hdist
  obtain ⟨e, he⟩ := Option.isSome_iff_exists.1 (h.done m hm List.not_mem_nil n hn)
  rw [he, (h.known n e he).1.unique hdist]

/-- Once the first layer is dealt with, the second takes its place. -/
theorem shift (h : g.Layered d met [] later) : g.Layered (d + 1) met later [] where
  known n e hn := by
    obtain ⟨hdist, he⟩ := h.known n e hn
    exact ⟨hdist, by omega⟩
  near n e hdist he := by
    rcases Nat.lt_or_eq_of_le he with hlt | rfl
    · exact h.near n e hdist (by omega)
    · exact h.near_succ hdist
  first n hn := (h.known n (d + 1) ((h.second n).1 hn)).1
  second n := by
    constructor
    · intro hn
      cases hn
    · intro hn
      have hle := (h.known n _ hn).2
      omega
  done n hn hlater := absurd ((h.second n).2 (h.near_succ hn)) hlater

/-- Where nothing is left in the queue, no node is farther than those met. -/
theorem not_isAtDistance (h : g.Layered d met [] []) (hfar : d < e) : ¬ g.IsAtDistance e n := by
  induction e generalizing n with
  | zero => omega
  | succ e ih =>
    intro hdist
    rcases Nat.lt_or_eq_of_le (Nat.le_of_lt_succ hfar) with hlt | rfl
    · obtain ⟨⟨m, hm, -⟩, -⟩ := isAtDistance_succ_iff.1 hdist
      exact ih hlt hm
    · exact absurd ((h.second n).2 (h.near_succ hdist)) List.not_mem_nil

theorem lookup_eq_some_iff (h : g.Layered d met [] []) : met.lookup n = some e ↔ g.IsAtDistance e n := by
  constructor
  · intro hn
    exact (h.known n e hn).1
  · intro hdist
    refine h.near n e hdist (Nat.le_of_not_lt fun hfar => ?_)
    exact h.not_isAtDistance hfar hdist

/-- The first node of a queue is in the first layer, of the layers as they are or with the second in the
first one's place. -/
theorem exists_of_append_eq_cons {queue : List Node} (h : g.Layered d met now later)
    (hqueue : now ++ later = n :: queue) :
    ∃ d' now' later', g.Layered d' met (n :: now') later' ∧ now' ++ later' = queue := by
  cases now with
  | nil =>
    rw [List.nil_append] at hqueue
    subst hqueue
    exact ⟨d + 1, queue, [], h.shift, List.append_nil queue⟩
  | cons k now =>
    rw [List.cons_append, List.cons.injEq] at hqueue
    obtain ⟨rfl, hqueue⟩ := hqueue
    exact ⟨d, now, later, h, hqueue⟩

/-- The search ends with every node at its distance. -/
theorem lookup_explore {queue : List Node} (h : g.Layered d met now later) (hqueue : now ++ later = queue) :
    (g.explore met queue).lookup n = some e ↔ g.IsAtDistance e n := by
  induction met, queue using explore.induct g generalizing d now later with
  | case1 met =>
    obtain ⟨rfl, rfl⟩ := List.append_eq_nil_iff.1 hqueue
    rw [explore]
    exact h.lookup_eq_some_iff
  | case2 met k queue found =>
    rename_i ih
    obtain ⟨d', now', later', h', rfl⟩ := h.exists_of_append_eq_cons hqueue
    obtain ⟨met'', later'', hfound, hlayers⟩ := h'.turn
    simp only [found, hfound] at ih
    rw [explore, hfound]
    exact ih hlayers rfl

end Layered

theorem lookup_explore (g : FlowGraph) (n : Node) (d : Nat) :
    (g.explore [(.entry, 0)] [.entry]).lookup n = some d ↔ g.IsAtDistance d n :=
  (layered_entry g).lookup_explore rfl

end FlowGraph

open FlowGraph

variable {p : Program} {g : FlowGraph} {n : Node} {d : Nat}

/-! ## Built graphs -/

theorem entry_mem_nodes (hg : FlowGraph.ofProgram p = .ok g) : .entry ∈ g.nodes := by
  rw [nodes_ofProgram hg]
  exact List.mem_cons_self

/-- The nodes that have a distance are the nodes of the graph. -/
theorem exists_isAtDistance_iff (hg : FlowGraph.ofProgram p = .ok g) :
    (∃ d, g.IsAtDistance d n) ↔ n ∈ g.nodes := by
  constructor
  · rintro ⟨d, h⟩
    obtain ⟨w, hw, -⟩ := h.reached
    exact hw.mem_nodes hg (entry_mem_nodes hg)
  · intro hn
    obtain ⟨w, hw⟩ := (mirrors_ofProgram hg).reached n hn
    have hreached : g.ReachedIn w.arcs.length n := ⟨w, hw, rfl⟩
    obtain ⟨d, -, hd⟩ := hreached.exists_isAtDistance
    exact ⟨d, hd⟩

theorem isSome_lookup_explore (hg : FlowGraph.ofProgram p = .ok g) :
    ((g.explore [(.entry, 0)] [.entry]).lookup n).isSome ↔ n ∈ g.nodes := by
  rw [Option.isSome_iff_exists, ← exists_isAtDistance_iff hg]
  simp only [lookup_explore]

theorem mem_map_fst_explore (hg : FlowGraph.ofProgram p = .ok g) :
    n ∈ (g.explore [(.entry, 0)] [.entry]).map (·.1) ↔ n ∈ g.nodes := by
  rw [← isSome_lookup_explore hg, List.lookup_isSome_iff, List.mem_map]
  simp only [beq_iff_eq]
  exact exists_congr fun q => and_congr_right fun _ => eq_comm

theorem map_fst_distances (hg : FlowGraph.ofProgram p = .ok g) :
    g.distances.map (·.1) = ascending g.nodes := by
  rw [distances, map_fst_filterMap_self]
  · exact ascending_congr fun n => mem_map_fst_explore hg
  · intro n hn
    rw [isSome_lookup_explore hg, ← mem_map_fst_explore hg]
    exact mem_ascending.1 hn

theorem lookup_distances (hg : FlowGraph.ofProgram p = .ok g) :
    g.distances.lookup n = some d ↔ g.IsAtDistance d n := by
  rw [distances, lookup_filterMap_self, Option.ite_none_right_eq_some, mem_ascending,
    mem_map_fst_explore hg, lookup_explore]
  constructor
  · rintro ⟨-, h⟩
    exact h
  · intro h
    exact ⟨(exists_isAtDistance_iff hg).1 ⟨d, h⟩, h⟩

/-- The table of distances has the nodes of the graph as its keys, in increasing order, and gives each
node the number of edges of the shortest paths to it from the entry. -/
theorem distances_exact (hg : FlowGraph.ofProgram p = .ok g) :
    g.distances.map (·.1) = ascending g.nodes ∧
    ∀ n d, g.distances.lookup n = some d ↔ g.IsAtDistance d n :=
  ⟨map_fst_distances hg, fun _ _ => lookup_distances hg⟩

/-- A loop and a way round it. -/
def bypass : Program :=
  .seq (.branch 1 (.var "b") (.loop 2 (.var "c") (.print 3 (.const 0))) .skip) (.print 4 (.const 1))

/-- The way round the loop is the shortest one to the last statement, and no path leads to it by one
edge. -/
theorem distances_exact_bypass : ∃ g, FlowGraph.ofProgram bypass = .ok g ∧
    g.distances.map (·.1) = [.entry, .point 1, .point 2, .point 3, .point 4, .exit] ∧
    g.distances.lookup (.point 3) = some 3 ∧ g.distances.lookup (.point 4) = some 2 ∧
    ¬ ∃ w, g.IsPathFrom .entry (.point 4) w ∧ w.arcs.length = 1 := by
  have hg : FlowGraph.ofProgram bypass = .ok (FlowGraph.layOut bypass) :=
    ofProgram_of_nodup (by decide)
  obtain ⟨hkeys, hlookup⟩ := distances_exact hg
  have hfour : (FlowGraph.layOut bypass).distances.lookup (.point 4) = some 2 := by decide +kernel
  refine ⟨_, hg, hkeys.trans (by decide +kernel), by decide +kernel, hfour, ?_⟩
  exact ((hlookup _ _).1 hfour).least 1 (by decide)

end Pathwise
