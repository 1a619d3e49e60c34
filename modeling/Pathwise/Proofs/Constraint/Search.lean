import Pathwise.Constraint.Search
import Pathwise.Proofs.Constraint.Propagation

/-!
The solver's definite answers are right.

A search tries the combinations of its choices in turn (`tryAll_eq_firstSuccess`), each of them the values
that were picked for the symbols. A model that it finds completes one of them, and once it is exhausted
none of them can be completed, whatever the polls of its budget were answered. The domains hold the values
of every solution, so an exhaustive search of the domains meets every solution.

* `solves_of_solve_eq_sat`: a model that the solver answers is a solution;
* `not_solves_of_solve_eq_unsat`: where the solver answers that there is no solution, there is none.
-/

namespace Pathwise

/-! ## Trying values in turn -/

section
variable {α β : Type}

theorem firstSuccess_append (f : α → Nat → SearchResult) (xs ys : List α) (tried : Nat) :
    firstSuccess f (xs ++ ys) tried = match firstSuccess f xs tried with
      | .exhausted tried => firstSuccess f ys tried
      | r => r := by
  induction xs generalizing tried with
  | nil => rfl
  | cons x xs ih =>
    rw [List.cons_append, firstSuccess, firstSuccess]
    cases f x tried with
    | exhausted tried => exact ih tried
    | found m => rfl
    | stopped d => rfl

/-- Trying the values of one list after another is trying them all in turn. -/
theorem firstSuccess_flatMap (f : β → Nat → SearchResult) (h : α → List β) (xs : List α) (tried : Nat) :
    firstSuccess f (xs.flatMap h) tried = firstSuccess (fun x => firstSuccess f (h x)) xs tried := by
  induction xs generalizing tried with
  | nil => rfl
  | cons x xs ih =>
    rw [List.flatMap_cons, firstSuccess_append, firstSuccess]
    cases firstSuccess f (h x) tried with
    | exhausted tried => exact ih tried
    | found m => rfl
    | stopped d => rfl

end

/-! ## Combinations of values -/

/-- The values that can be picked for the symbols, each from its list and put in front of those that are
already picked, the values of the last symbol changing fastest. -/
def combinations : List (SymbolId × List Value) → List (SymbolId × Value) → List (List (SymbolId × Value))
  | [], picked => [picked]
  | (s, vs) :: rest, picked => vs.flatMap fun v => combinations rest ((s, v) :: picked)

section
variable {choices : List (SymbolId × List Value)} {picked qs : List (SymbolId × Value)} {r : Model}

/-- What is picked was picked before or comes from the choices. -/
theorem mem_or_exists_of_mem_combinations (h : qs ∈ combinations choices picked) {s : SymbolId} {v : Value}
    (hq : (s, v) ∈ qs) : (s, v) ∈ picked ∨ ∃ vs, (s, vs) ∈ choices ∧ v ∈ vs := by
  induction choices generalizing picked with
  | nil =>
    obtain rfl := List.mem_singleton.1 h
    exact .inl hq
  | cons c rest ih =>
    obtain ⟨w, hw, hqs⟩ := List.mem_flatMap.1 h
    rcases ih hqs with hmem | ⟨vs, hvs, hmem⟩
    · rcases List.mem_cons.1 hmem with heq | hmem
      · cases heq
        exact .inr ⟨c.2, by simp, hw⟩
      · exact .inl hmem
    · exact .inr ⟨vs, by simp [hvs], hmem⟩

/-- Values that are among the choices can all be picked. -/
theorem exists_mem_combinations (hpicked : ∀ q ∈ picked, r.get? q.1 = some q.2)
    (h : ∀ c ∈ choices, ∃ v ∈ c.2, r.get? c.1 = some v) :
    ∃ qs ∈ combinations choices picked, (∀ q ∈ qs, r.get? q.1 = some q.2) ∧
      ∀ s, s ∈ picked.map (·.1) ∨ s ∈ choices.map (·.1) → s ∈ qs.map (·.1) := by
  induction choices generalizing picked with
  | nil => exact ⟨picked, by simp [combinations], hpicked, by simp⟩
  | cons c rest ih =>
    simp only [List.mem_cons, forall_eq_or_imp] at h
    obtain ⟨⟨v, hv, hr⟩, hrest⟩ := h
    have hpicked' : ∀ q ∈ (c.1, v) :: picked, r.get? q.1 = some q.2 := by
      intro q hq
      rcases List.mem_cons.1 hq with rfl | hq
      · exact hr
      · exact hpicked q hq
    obtain ⟨qs, hqs, hagree, hkeys⟩ := ih hpicked' hrest
    refine ⟨qs, List.mem_flatMap.2 ⟨v, hv, hqs⟩, hagree, fun s hs => hkeys s ?_⟩
    simp only [List.map_cons, List.mem_cons] at hs ⊢
    rcases hs with hs | hs | hs <;> simp [hs]

end

namespace Model

theorem mem_of_get?_ofList {qs : List (SymbolId × Value)} {s : SymbolId} {v : Value}
    (h : (ofList qs).get? s = some v) : (s, v) ∈ qs := by
  rcases get?_ofList qs s with ⟨w, hmem, hget⟩ | ⟨-, hget⟩
  · rw [hget] at h
    cases h
    exact hmem
  · rw [hget] at h
    cases h

/-- Assignments that agree with `r` give their symbols the values that `r` gives them. -/
theorem get?_ofList_eq {qs : List (SymbolId × Value)} {r : Model}
    (hr : ∀ q ∈ qs, r.get? q.1 = some q.2) {s : SymbolId} (hs : s ∈ qs.map (·.1)) :
    (ofList qs).get? s = r.get? s := by
  rcases get?_ofList qs s with ⟨v, hmem, hget⟩ | ⟨hnone, -⟩
  · rw [hget, hr _ hmem]
  · obtain ⟨⟨t, w⟩, hmem, rfl⟩ := List.mem_map.1 hs
    exact absurd hmem (hnone w)

end Model

namespace Problem

variable {p : Problem} {halt? : Nat → Option Doubt} {l : SearchLimits} {b : Budget} {m f r : Model}
  {s : SymbolId} {v : Value} {d : Doubt} {limit tried n : Nat}

theorem tryAll_eq_firstSuccess (p : Problem) (halt? : Nat → Option Doubt)
    (choices : List (SymbolId × List Value)) (picked : List (SymbolId × Value)) (tried : Nat) :
    p.tryAll halt? choices picked tried =
      firstSuccess (p.attempt halt?) (combinations choices picked) tried := by
  induction choices generalizing picked tried with
  | nil =>
    rw [combinations, firstSuccess, tryAll]
    cases p.attempt halt? picked tried <;> rfl
  | cons c rest ih =>
    obtain ⟨s, vs⟩ := c
    rw [combinations, firstSuccess_flatMap, tryAll]
    simp only [ih]

/-! ## Attempts one after the other -/

section
variable {qss : List (List (SymbolId × Value))}

theorem firstSuccess_attempt_cons (p : Problem) (halt? : Nat → Option Doubt) (qs : List (SymbolId × Value))
    (qss : List (List (SymbolId × Value))) (tried : Nat) :
    firstSuccess (p.attempt halt?) (qs :: qss) tried = match halt? tried with
      | some d => .stopped d
      | none =>
        match p.complete (.ofList qs) with
        | some m => .found m
        | none => firstSuccess (p.attempt halt?) qss (tried + 1) := by
  rw [firstSuccess, attempt]
  cases halt? tried with
  | some d => rfl
  | none => cases p.complete (.ofList qs) <;> rfl

theorem exists_of_firstSuccess_eq_found (h : firstSuccess (p.attempt halt?) qss tried = .found m) :
    ∃ qs ∈ qss, p.complete (.ofList qs) = some m := by
  induction qss generalizing tried with
  | nil => cases h
  | cons qs qss ih =>
    rw [firstSuccess_attempt_cons] at h
    split at h
    · cases h
    · split at h
      · rename_i hqs
        cases h
        exact ⟨qs, by simp, hqs⟩
      · obtain ⟨qs', hmem, hm⟩ := ih h
        exact ⟨qs', by simp [hmem], hm⟩

theorem complete_eq_none_of_firstSuccess_eq_exhausted
    (h : firstSuccess (p.attempt halt?) qss tried = .exhausted n) :
    ∀ qs ∈ qss, p.complete (.ofList qs) = none := by
  induction qss generalizing tried with
  | nil => simp
  | cons qs qss ih =>
    rw [firstSuccess_attempt_cons] at h
    split at h
    · cases h
    · split at h
      · cases h
      · rename_i hqs
        intro qs' hmem
        rcases List.mem_cons.1 hmem with rfl | hmem
        · exact hqs
        · exact ih h qs' hmem

/-- Attempts are stopped for the reason that is given at one of them. -/
theorem exists_of_firstSuccess_eq_stopped (h : firstSuccess (p.attempt halt?) qss tried = .stopped d) :
    ∃ n, n < tried + qss.length ∧ halt? n = some d := by
  induction qss generalizing tried with
  | nil => cases h
  | cons qs qss ih =>
    rw [firstSuccess_attempt_cons] at h
    split at h
    · rename_i hhalt
      cases h
      exact ⟨tried, by simp, hhalt⟩
    · split at h
      · cases h
      · obtain ⟨n, hn, hhalt⟩ := ih h
        refine ⟨n, ?_, hhalt⟩
        rw [List.length_cons]
        omega

end

/-! ## Choices of numbers -/

theorem kind_valueOf (p : Problem) (s : SymbolId) (n : Int64) : (p.valueOf s n).kind = p.kindOf s := by
  unfold valueOf
  split
  · rename_i h
    exact h.symm
  · rename_i h
    exact h.symm

theorem valueOf_number (h : v.kind = p.kindOf s) : p.valueOf s v.number = v := by
  unfold valueOf
  rw [← h]
  cases v with
  | int n => rfl
  | bool b => cases b <;> rfl

/-- A model that a search finds completes values of the right kinds. -/
theorem exists_of_search_eq_found {numbers : List (SymbolId × List Int64)}
    (h : p.search b numbers limit = .found m) :
    ∃ f, (∀ s v, f.get? s = some v → v.kind = p.kindOf s) ∧ p.complete f = some m := by
  rw [search, tryAll_eq_firstSuccess] at h
  obtain ⟨qs, hqs, hm⟩ := exists_of_firstSuccess_eq_found h
  refine ⟨.ofList qs, fun s v hs => ?_, hm⟩
  rcases mem_or_exists_of_mem_combinations hqs (Model.mem_of_get?_ofList hs) with hnil | ⟨vs, hmem, hv⟩
  · cases hnil
  · obtain ⟨⟨t, ns⟩, -, ht⟩ := List.mem_map.1 hmem
    cases ht
    obtain ⟨k, -, rfl⟩ := List.mem_map.1 hv
    exact kind_valueOf p s k

/-- An exhausted search over a set of symbols has seen the values that a model gives them, if these
are among the choices. -/
theorem exists_of_search_eq_exhausted {numbers : List (SymbolId × List Int64)}
    (h : p.search b numbers limit = .exhausted tried)
    (hr : ∀ c ∈ numbers, ∃ v, r.get? c.1 = some v ∧ v.kind = p.kindOf c.1 ∧ v.number ∈ c.2) :
    ∃ f, (∀ s ∈ numbers.map (·.1), f.get? s = r.get? s) ∧ p.complete f = none := by
  rw [search, tryAll_eq_firstSuccess] at h
  have hvalues : ∀ c ∈ numbers.reverse.map fun q => (q.1, q.2.map (p.valueOf q.1)),
      ∃ v ∈ c.2, r.get? c.1 = some v := by
    intro c hc
    obtain ⟨q, hmem, rfl⟩ := List.mem_map.1 hc
    obtain ⟨v, hv, hkind, hnum⟩ := hr _ (List.mem_reverse.1 hmem)
    exact ⟨v, List.mem_map.2 ⟨v.number, hnum, valueOf_number hkind⟩, hv⟩
  obtain ⟨qs, hqs, hagree, hkeys⟩ := exists_mem_combinations (List.forall_mem_nil _) hvalues
  refine ⟨.ofList qs, fun s hs => Model.get?_ofList_eq hagree (hkeys s (.inr ?_)),
    complete_eq_none_of_firstSuccess_eq_exhausted h qs hqs⟩
  obtain ⟨c, hc, rfl⟩ := List.mem_map.1 hs
  exact List.mem_map.2 ⟨_, List.mem_map.2 ⟨c, List.mem_reverse.2 hc, rfl⟩, rfl⟩

/-! ## The solver -/

theorem exists_of_solve_eq_sat (h : p.solve l = .sat m) :
    ∃ f, (∀ s v, f.get? s = some v → v.kind = p.kindOf s) ∧ p.complete f = some m := by
  unfold solve at h
  split at h
  · cases h
  split at h
  · split at h
    · rename_i m' hm'
      cases h
      exact ⟨.empty, by simp, hm'⟩
    · cases h
  split at h
  · cases h
  simp only at h
  split at h
  · split at h
    · rename_i hfound
      cases h
      exact exists_of_search_eq_found hfound
    · cases h
    · cases h
  · split at h
    · rename_i hfound
      cases h
      exact exists_of_search_eq_found hfound
    · cases h
    · cases h

/-- A model that the solver answers is a solution. -/
theorem solves_of_solve_eq_sat (hp : p.WellFormed) (h : p.solve l = .sat m) : p.Solves m := by
  obtain ⟨f, hkinds, hm⟩ := exists_of_solve_eq_sat h
  exact solves_of_complete hp (fun s _ => hkinds s) hm

/-- The reasons for the answer that there is no solution. -/
theorem cases_of_solve_eq_unsat (h : p.solve l = .unsat) :
    (p.free = [] ∧ p.complete .empty = none) ∨ p.propagate = none ∨
      ∃ ds limit tried, p.propagate = some ds ∧
        p.search l.toBudget (p.free.map fun s => (s, (ds.of (.sym s)).toList)) limit =
          .exhausted tried := by
  unfold solve at h
  split at h
  · cases h
  split at h
  · rename_i hfree
    split at h
    · cases h
    · rename_i hnone
      exact .inl ⟨List.isEmpty_iff.1 hfree, hnone⟩
  split at h
  · rename_i hnone
    exact .inr (.inl hnone)
  rename_i ds hds
  simp only at h
  split at h
  · split at h
    · cases h
    · rename_i tried htried
      rw [List.map_map] at htried
      exact .inr (.inr ⟨ds, _, tried, hds, htried⟩)
    · cases h
  · split at h <;> cases h

/-- Completion does not fail on the free symbols' values in a solution. -/
theorem Solves.complete_ne_none (hp : p.WellFormed) (hr : p.Solves r)
    (hf : ∀ s ∈ p.free, f.get? s = r.get? s) : p.complete f ≠ none := by
  intro hnone
  have hfill : ∀ s ∈ p.free, (p.fill f).get? s = r.get? s := by
    intro s hs
    obtain ⟨v, hv, -⟩ := hr.kinds s (mem_free.1 hs).1
    rw [get?_fill, hf s hs, hv]
    rfl
  obtain ⟨m, hm, -⟩ := complete_of_holds hp hr.holds hfill
  rw [hnone] at hm
  cases hm

/-- Where the solver answers that there is no solution, there is none. -/
theorem not_solves_of_solve_eq_unsat (hp : p.WellFormed) (h : p.solve l = .unsat) : ¬ p.Solves r := by
  intro hr
  obtain ⟨ds, hds, hadmits⟩ := propagate_of_solves hr
  rcases cases_of_solve_eq_unsat h with ⟨hfree, hnone⟩ | hnone | ⟨ds', limit, tried, hds', hsearch⟩
  · exact hr.complete_ne_none hp (by simp [hfree]) hnone
  · rw [hds] at hnone
    cases hnone
  · rw [hds] at hds'
    cases hds'
    have hvalues : ∀ c ∈ p.free.map fun s => (s, (ds.of (.sym s)).toList),
        ∃ v, r.get? c.1 = some v ∧ v.kind = p.kindOf c.1 ∧ v.number ∈ c.2 := by
      intro c hc
      obtain ⟨s, hs, rfl⟩ := List.mem_map.1 hc
      obtain ⟨v, hv, hkind⟩ := hr.kinds s (mem_free.1 hs).1
      exact ⟨v, hv, hkind, Interval.mem_toList (hadmits s v hv)⟩
    obtain ⟨f, hagree, hnone⟩ := exists_of_search_eq_exhausted hsearch hvalues
    refine hr.complete_ne_none hp (fun s hs => hagree s ?_) hnone
    rw [List.map_map]
    exact List.mem_map.2 ⟨s, hs, rfl⟩

end Problem

end Pathwise
