import Mathlib.Algebra.Ring.Nat
import Pathwise.Proofs.Constraint.Search

/-!
What the solver answers, and when it must decide.

A search tries as many combinations as the product of the numbers of choices (`length_combinations`), so
a search that may try that many is stopped by a poll of its budget only (`exists_of_search_eq_stopped`).
Where the domains that propagation leaves have no more combinations than the solver tries in full, it
comes to a definite answer unless a poll stops it (`exists_of_solve_eq_unknown`); that definite answers
are right is known of the search.
-/

namespace Pathwise

/-! ## Searches that are not stopped -/

theorem length_combinations (choices : List (SymbolId × List Value)) (picked : List (SymbolId × Value)) :
    (combinations choices picked).length = (choices.map (·.2.length)).prod := by
  induction choices generalizing picked with
  | nil => rfl
  | cons c rest ih =>
    obtain ⟨s, vs⟩ := c
    rw [combinations, List.length_flatMap, List.map_cons, List.prod_cons]
    simp only [ih, List.map_const', List.sum_replicate_nat]

theorem Budget.exists_of_halt?_eq_some {b : Budget} {limit tried : Nat} {d : Doubt} (hlimit : tried < limit)
    (h : b.halt? limit tried = some d) : ∃ n, b.exhausted? n = some d := by
  rw [halt?, if_neg (Nat.not_le.2 hlimit), poll?] at h
  split at h
  · exact ⟨_, h⟩
  · cases h

namespace Problem

variable {p : Problem} {l : SearchLimits} {b : Budget} {ds : Domains} {d : Doubt}

/-- A search that may try all combinations is stopped by a poll only. -/
theorem exists_of_search_eq_stopped {numbers : List (SymbolId × List Int64)} {limit : Nat}
    (hlimit : (numbers.map (·.2.length)).prod ≤ limit) (h : p.search b numbers limit = .stopped d) :
    ∃ n, b.exhausted? n = some d := by
  rw [search, tryAll_eq_firstSuccess] at h
  obtain ⟨tried, htried, hhalt⟩ := exists_of_firstSuccess_eq_stopped h
  refine b.exists_of_halt?_eq_some (Nat.lt_of_lt_of_le ?_ hlimit) hhalt
  rw [length_combinations, List.map_map] at htried
  simpa [Function.comp_def, ((List.reverse_perm _).map _).prod_nat] using htried

/-! ## The solver -/

theorem min_mul_min (n size m : Nat) : min (min n m * size) m = min (n * size) m := by
  rcases Nat.le_total n m with hle | hge
  · rw [Nat.min_eq_left hle]
  · rcases Nat.eq_zero_or_pos size with rfl | hpos
    · simp
    · have hm := Nat.le_mul_of_pos_right m hpos
      have hn := Nat.le_mul_of_pos_right n hpos
      rw [Nat.min_eq_right hge, Nat.min_eq_right hm, Nat.min_eq_right (Nat.le_trans hge hn)]

/-- It makes no difference whether the size is cut off on the way or at the end. -/
theorem spaceSize_eq_min (ds : List Interval) : spaceSize ds = min (ds.map (·.size)).prod maxSpace := by
  have hfold : ∀ n, ds.foldl (fun n d => min (n * d.size) maxSpace) (min n maxSpace) =
      min (n * (ds.map (·.size)).prod) maxSpace := by
    induction ds with
    | nil => simp
    | cons d ds ih =>
      intro n
      rw [List.foldl_cons, min_mul_min, ih, List.map_cons, List.prod_cons, Nat.mul_assoc]
  have hone : min 1 maxSpace = 1 := by decide
  have h := hfold 1
  rwa [hone, Nat.one_mul] at h

theorem length_toList (d : Interval) : d.toList.length = d.size := by
  simp [Interval.toList]

/-- The solver decides by evaluation, by propagation, or by trying all that propagation leaves, unless a
poll stops it. -/
theorem exists_of_solve_eq_unknown (hrange : l.exhaustive < UInt64.size)
    (hsmall : p.free = [] ∨ p.propagate = none ∨ ∃ ds, p.propagate = some ds ∧
      (p.free.map fun s => (ds.of (.sym s)).size).prod ≤ l.exhaustive)
    (h : p.solve l = .unknown d) : ∃ n, l.exhausted? n = some d := by
  unfold solve at h
  split at h
  · rename_i hstart
    cases h
    exact ⟨0, hstart⟩
  split at h
  · split at h <;> cases h
  rename_i hfree
  split at h
  · cases h
  rename_i ds hds
  -- There are free symbols and propagation did not fail, so the space is small.
  have hspace : (p.free.map fun s => (ds.of (.sym s)).size).prod ≤ l.exhaustive := by
    rcases hsmall with hnil | hnone | ⟨ds', hds', hspace⟩
    · simp [hnil] at hfree
    · rw [hds] at hnone
      cases hnone
    · rw [hds] at hds'
      cases hds'
      exact hspace
  simp only [spaceSize_eq_min, List.map_map, Function.comp_def,
    if_pos (Nat.le_trans (Nat.min_le_left _ _) hspace)] at h
  split at h
  · cases h
  · cases h
  · rename_i hstopped
    cases h
    refine exists_of_search_eq_stopped ?_ hstopped
    simp only [List.map_map, Function.comp_def, length_toList]
    omega

/-- A model that the solver answers is a solution; where it answers that there is none, there is none;
and if no poll finds it cancelled or out of time, it does answer where there is nothing to choose, where
propagation fails, and where the domains have no more combinations than it tries in full. -/
theorem solve_sound_and_decisive (hp : p.WellFormed) (l : SearchLimits) :
    (∀ m, p.solve l = .sat m → p.Solves m) ∧
    (p.solve l = .unsat → ¬ ∃ m, p.Solves m) ∧
    (l.exhaustive < UInt64.size → (∀ n, l.exhausted? n = none) →
      (p.free = [] ∨ p.propagate = none ∨ ∃ ds, p.propagate = some ds ∧
        (p.free.map fun s => (ds.of (.sym s)).size).prod ≤ l.exhaustive) →
      ∀ d, p.solve l ≠ .unknown d) := by
  refine ⟨?_, ?_, ?_⟩
  · intro m hsat
    exact solves_of_solve_eq_sat hp hsat
  · rintro hunsat ⟨m, hm⟩
    exact not_solves_of_solve_eq_unsat hp hunsat hm
  · intro hrange hquiet hsmall d hunknown
    obtain ⟨n, hn⟩ := exists_of_solve_eq_unknown hrange hsmall hunknown
    rw [hquiet n] at hn
    cases hn

end Problem

/-- A square of side 0 to 3 and of area 5. -/
def plot : Problem where
  symbols := [⟨"side", .int, .initial "side"⟩, ⟨"area", .int, .version "area" 1⟩]
  constraints := [.assert (.all [.cmp .ge (.sym 0) (.const 0), .cmp .le (.sym 0) (.const 3)]),
    .define 1 (.binary .mul (.sym 0) (.sym 0)), .assert (.cmp .eq (.sym 1) (.const 5))]

theorem wellFormed_plot : plot.WellFormed where
  inRange := by decide
  intTargets := by simp [plot, Constraint.target?, Problem.kindOf]
  freshTargets := by
    simp [plot, Constraint.target?, Constraint.symbols, Formula.symbols, Formula.listSymbols,
      Term.symbols]
  noCycles := by simp [plot, Definition.symbols, Definition.operands, Term.symbols]

/-- Propagation leaves four sides, and with four attempts the solver finds that none will do. -/
theorem solve_sound_and_decisive_plot : plot.WellFormed ∧
    (∀ d, plot.solve { exhaustive := 4 } ≠ .unknown d) ∧ ¬ ∃ m, plot.Solves m := by
  obtain ⟨-, hunsat, hdecides⟩ :=
    Problem.solve_sound_and_decisive wellFormed_plot { exhaustive := 4 }
  have hds : plot.propagate = some #[⟨0, 3⟩, ⟨5, 5⟩] := by decide +kernel
  refine ⟨wellFormed_plot, hdecides (by decide) (fun _ => rfl) (.inr (.inr ⟨_, hds, ?_⟩)), hunsat ?_⟩
  · decide +kernel
  · decide +kernel

-- A solver that is cancelled at the first poll of its search leaves open what it could have decided.
example : plot.solve { exhaustive := 4, cancelled := fun n => n == 1 } = .unknown .cancelled := by
  decide +kernel

end Pathwise
