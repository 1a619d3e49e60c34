import Mathlib.Data.List.Nodup
import Pathwise.FlowGraph.Enumeration

/-!
What an enumeration lists.

The results below a state are those at the ends of the chains of states that lead down from it
(`mem_results`); where no chain is longer than the depth that is allowed, the depth cuts nothing off
(`results_eq_of_le`). Asking for one result after the other gives all of them and then comes to an end
(`yields_toList`). Where the states are trails and the children of one go to different nodes, no path
is listed twice (`GrowsTrails.nodup_results`).
-/

namespace Pathwise

variable {σ ρ : Type}

namespace Growth

variable {r : Growth σ ρ} {s s' s'' : σ} {d n m : Nat} {x : ρ}

/-! ## Chains of states -/

/-- From `s` one comes to `s'` by going `n` times from a state that is not finished to a child. -/
inductive Leads (r : Growth σ ρ) : Nat → σ → σ → Prop
  | refl (s : σ) : Leads r 0 s s
  | step {n : Nat} {s c s' : σ} : r.result? s = none → c ∈ r.children s → Leads r n c s' →
    Leads r (n + 1) s s'

theorem Leads.single {c : σ} (hs : r.result? s = none) (hc : c ∈ r.children s) : r.Leads 1 s c :=
  .step hs hc (.refl c)

theorem Leads.trans (h : r.Leads n s s') (h' : r.Leads m s' s'') : r.Leads (n + m) s s'' := by
  induction h with
  | refl => simpa using h'
  | step hs hc _ ih =>
    rw [Nat.add_right_comm]
    exact .step hs hc (ih h')

/-- Nothing comes after a finished state. -/
theorem Leads.eq_of_finished (h : r.Leads n s s') (hs : r.result? s ≠ none) : n = 0 ∧ s' = s := by
  cases h with
  | refl => exact ⟨rfl, rfl⟩
  | step hnone => exact absurd hnone hs

/-! ## Results -/

theorem results_of_some (hs : r.result? s = some x) : r.results d s = [x] := by
  unfold results
  simp [hs]

theorem results_zero (hs : r.result? s = none) : r.results 0 s = [] := by
  unfold results
  simp [hs]

theorem results_succ (hs : r.result? s = none) :
    r.results (d + 1) s = (r.children s).flatMap (r.results d) := by
  conv_lhs => unfold results
  simp [hs]

theorem mem_results_of_some {y : ρ} (hs : r.result? s = some y) :
    x ∈ r.results d s ↔ ∃ n s', n ≤ d ∧ r.Leads n s s' ∧ r.result? s' = some x := by
  rw [results_of_some hs, List.mem_singleton]
  constructor
  · rintro rfl
    exact ⟨0, s, Nat.zero_le d, .refl s, hs⟩
  · rintro ⟨n, s', -, hlead, hs'⟩
    obtain ⟨-, rfl⟩ := hlead.eq_of_finished (by simp [hs])
    exact Option.some.inj (hs'.symm.trans hs)

theorem mem_results :
    x ∈ r.results d s ↔ ∃ n s', n ≤ d ∧ r.Leads n s s' ∧ r.result? s' = some x := by
  induction d generalizing s with
  | zero =>
    cases hs : r.result? s with
    | some y => exact mem_results_of_some hs
    | none =>
      rw [results_zero hs]
      refine iff_of_false (by simp) ?_
      rintro ⟨n, s', hn, hlead, hs'⟩
      obtain rfl := Nat.le_zero.1 hn
      cases hlead
      simp [hs] at hs'
  | succ d ih =>
    cases hs : r.result? s with
    | some y => exact mem_results_of_some hs
    | none =>
      simp only [results_succ hs, List.mem_flatMap, ih]
      constructor
      · rintro ⟨c, hc, n, s', hn, hlead, hs'⟩
        exact ⟨n + 1, s', Nat.succ_le_succ hn, .step hs hc hlead, hs'⟩
      · rintro ⟨n, s', hn, hlead, hs'⟩
        cases hlead with
        | refl => simp [hs] at hs'
        | step _ hc hlead => exact ⟨_, hc, _, s', Nat.le_of_succ_le_succ hn, hlead, hs'⟩

/-- Going deeper than the longest chain adds nothing. -/
theorem results_eq_of_le {d' : Nat} (hchains : ∀ n s', r.Leads n s s' → n ≤ d) (hd : d ≤ d') :
    r.results d' s = r.results d s := by
  induction d generalizing s d' with
  | zero =>
    cases hs : r.result? s with
    | some y => rw [results_of_some hs, results_of_some hs]
    | none =>
      have hnil : r.children s = [] := by
        refine List.eq_nil_iff_forall_not_mem.2 fun c hc => ?_
        exact absurd (hchains 1 c (.single hs hc)) (by simp)
      cases d' with
      | zero => rfl
      | succ d' => simp [results_succ hs, results_zero hs, hnil]
  | succ d ih =>
    cases hs : r.result? s with
    | some y => rw [results_of_some hs, results_of_some hs]
    | none =>
      obtain ⟨d', rfl⟩ := Nat.exists_eq_add_of_le' hd
      rw [← Nat.add_assoc, results_succ hs, results_succ hs]
      refine List.flatMap_congr fun c hc => ih (fun n s' hlead => ?_) (Nat.le_add_left d d')
      exact Nat.le_of_succ_le_succ (hchains (n + 1) s' (.step hs hc hlead))

/-! ## One result after the other -/

/-- The results below the waiting states. -/
def pending (r : Growth σ ρ) (waiting : List (Nat × σ)) : List ρ :=
  waiting.flatMap fun w => r.results w.1 w.2

theorem pending_of_some (hs : r.result? s = some x) (rest : List (Nat × σ)) :
    r.pending ((d, s) :: rest) = x :: r.pending rest := by
  simp [pending, results_of_some hs]

theorem pending_zero (hs : r.result? s = none) (rest : List (Nat × σ)) :
    r.pending ((0, s) :: rest) = r.pending rest := by
  simp [pending, results_zero hs]

theorem pending_succ (hs : r.result? s = none) (rest : List (Nat × σ)) :
    r.pending ((d + 1, s) :: rest) = r.pending (r.expand d s rest) := by
  simp [pending, results_succ hs, expand, List.flatMap_map]

theorem pending_eq (r : Growth σ ρ) (waiting : List (Nat × σ)) :
    r.pending waiting = match r.next? waiting with
      | none => []
      | some (x, rest) => x :: r.pending rest := by
  fun_induction r.next? waiting with
  | case1 => rfl
  | case2 d s rest x hs => exact pending_of_some hs rest
  | case3 s rest hs ih => rw [← ih, pending_zero hs]
  | case4 s rest hs d ih => rw [← ih, pending_succ hs]

end Growth

namespace Enumeration

/-- Asked for one result after the other, the enumeration gives `xs` and then says that there are no
more. -/
inductive Yields : Enumeration σ ρ → List ρ → Prop
  | done {e : Enumeration σ ρ} : e.next? = none → Yields e []
  | more {e e' : Enumeration σ ρ} {x : ρ} {xs : List ρ} : e.next? = some (x, e') → Yields e' xs →
    Yields e (x :: xs)

theorem toList_eq_pending (e : Enumeration σ ρ) : e.toList = e.rule.pending e.waiting :=
  e.toList_eq_flatMap

theorem yields_toList (e : Enumeration σ ρ) : e.Yields e.toList := by
  rw [toList_eq_pending]
  induction hxs : e.rule.pending e.waiting generalizing e with
  | nil =>
    rw [Growth.pending_eq] at hxs
    refine .done ?_
    cases hnext : e.rule.next? e.waiting with
    | none => simp [next?, hnext]
    | some y => simp [hnext] at hxs
  | cons x xs ih =>
    rw [Growth.pending_eq] at hxs
    cases hnext : e.rule.next? e.waiting with
    | none => simp [hnext] at hxs
    | some y =>
      obtain ⟨y, rest⟩ := y
      simp only [hnext, List.cons.injEq] at hxs
      obtain ⟨rfl, hrest⟩ := hxs
      exact .more (by simp [next?, hnext]) (ih { e with waiting := rest } hrest)

theorem toList_single (r : Growth σ ρ) (d : Nat) (s : σ) :
    Enumeration.toList ⟨r, [(d, s)]⟩ = r.results d s := by
  rw [toList_eq_flatMap]
  exact List.flatMap_singleton ..

end Enumeration

/-! ## Trails -/

namespace Trail

variable {t : Trail} {q : Path}

theorem path_extend (t : Trail) (n : Node) : (t.extend n).path = t.path ++ [n] := by
  simp [path, extend]

theorem complete?_eq_some : t.complete? = some q ↔ t.node = .exit ∧ t.path = q := by
  simp [complete?]

theorem complete?_eq_none : t.complete? = none ↔ t.node ≠ .exit := by
  simp [complete?]

end Trail

/-- The states are trails that end at the exit, with something more; the children of a state go on to
different nodes. -/
structure Growth.GrowsTrails (r : Growth σ Path) (trail : σ → Trail) : Prop where
  result : ∀ s, r.result? s = (trail s).complete?
  extend : ∀ s, ∀ c ∈ r.children s, trail c = (trail s).extend (trail c).node
  apart : ∀ s, ((r.children s).map fun c => (trail c).node).Nodup

namespace Growth.GrowsTrails

variable {r : Growth σ Path} {trail : σ → Trail} {s : σ} {d : Nat} {q : Path}

/-- The paths below a trail go on from it. -/
theorem prefix_of_mem_results (hr : r.GrowsTrails trail) (hq : q ∈ r.results d s) :
    (trail s).path <+: q := by
  obtain ⟨n, s', -, hlead, hs'⟩ := mem_results.1 hq
  clear hq
  induction hlead with
  | refl s =>
    rw [hr.result] at hs'
    exact (Trail.complete?_eq_some.1 hs').2 ▸ List.prefix_rfl
  | step _ hc _ ih =>
    refine List.IsPrefix.trans ?_ (ih hs')
    rw [hr.extend _ _ hc, Trail.path_extend]
    exact List.prefix_append ..

/-- Two ways on from one trail have no path in common. -/
theorem disjoint_of_ne (hr : r.GrowsTrails trail) {c c' : σ} (hc : c ∈ r.children s)
    (hc' : c' ∈ r.children s) (hne : (trail c).node ≠ (trail c').node) :
    (r.results d c).Disjoint (r.results d c') := by
  intro q hq hq'
  have hp := hr.prefix_of_mem_results hq
  have hp' := hr.prefix_of_mem_results hq'
  rw [hr.extend _ _ hc, Trail.path_extend] at hp
  rw [hr.extend _ _ hc', Trail.path_extend] at hp'
  have heq := (List.prefix_of_prefix_length_le hp hp' (by simp)).eq_of_length (by simp)
  exact hne (by simpa using heq)

theorem nodup_results (hr : r.GrowsTrails trail) (d : Nat) (s : σ) : (r.results d s).Nodup := by
  induction d generalizing s with
  | zero =>
    cases hs : r.result? s with
    | some q => simp [results_of_some hs]
    | none => simp [results_zero hs]
  | succ d ih =>
    cases hs : r.result? s with
    | some q => simp [results_of_some hs]
    | none =>
      rw [results_succ hs, List.nodup_flatMap]
      refine ⟨fun c _ => ih c, ?_⟩
      have hapart := List.pairwise_map.1 (hr.apart s)
      refine hapart.imp_of_mem fun hc hc' hne => ?_
      exact hr.disjoint_of_ne hc hc' hne

end Growth.GrowsTrails

/-! ## Ways on -/

theorem nodup_eraseDups {α : Type} [DecidableEq α] (xs : List α) : xs.eraseDups.Nodup := by
  induction hlen : xs.length using Nat.strongRecOn generalizing xs with
  | _ len ih =>
    cases xs with
    | nil => simp
    | cons x xs =>
      rw [List.eraseDups_cons, List.nodup_cons, List.mem_eraseDups]
      refine ⟨by simp, ih _ ?_ _ rfl⟩
      rw [← hlen, List.length_cons]
      exact Nat.lt_succ_of_le (List.length_filter_le ..)

theorem nodup_exploreOrder (g : FlowGraph) (n : Node) : (g.exploreOrder n).Nodup := by
  unfold FlowGraph.exploreOrder
  split
  · exact List.nodup_reverse.2 (nodup_eraseDups _)
  · exact nodup_eraseDups _

end Pathwise
