import Pathwise.Proofs.PathCondition.Growth
import Pathwise.Proofs.Constraint.Completion

/-!
Invariants of path conditions, each proved for one step of growth and then for every condition that is
made from the empty one.

* `Made.wellFormed`: the problem is one that completion decides;
* `Made.mem_free_iff`: the free symbols are those of initial values and inputs;
* `Made.latest`: the present value of a variable is its latest symbol;
* `Made.listed`: the symbols of initial values and inputs stand for one variable or input each.
-/

namespace Pathwise

/-! ## Problems with one more symbol or constraint -/

namespace Problem

variable {p : Problem} {name : String} {k : Kind} {o : Origin} {d : Definition} {f : Formula}

theorem kindOf_append (p : Problem) (symbol : Symbol) (cs : List Constraint) {s : Nat}
    (h : s < p.symbols.length) :
    Problem.kindOf ⟨p.symbols ++ [symbol], cs⟩ s = p.kindOf s := by
  simp [kindOf, List.getElem?_append_left h]

theorem WellFormed.fresh (hp : p.WellFormed) : (p.fresh name k o).2.WellFormed where
  inRange c hc s hs := by
    have h := hp.inRange c hc s hs
    simp only [Problem.fresh, List.length_append, List.length_singleton]
    omega
  intTargets c hc s ht := by
    rw [← hp.intTargets c hc s ht]
    exact kindOf_append p _ _ (target_lt hp hc ht)
  freshTargets := hp.freshTargets
  noCycles := hp.noCycles

theorem WellFormed.assert (hp : p.WellFormed) (hf : ∀ s : Nat, s ∈ f.symbols → s < p.symbols.length) :
    (p.add (.assert f)).WellFormed where
  inRange c hc s hs := by
    rcases List.mem_append.1 hc with hc | hc
    · exact hp.inRange c hc s hs
    · obtain rfl := List.mem_singleton.1 hc
      exact hf s hs
  intTargets c hc s ht := by
    rcases List.mem_append.1 hc with hc | hc
    · exact hp.intTargets c hc s ht
    · obtain rfl := List.mem_singleton.1 hc
      cases ht
  freshTargets := by
    refine List.pairwise_append.2 ⟨hp.freshTargets, List.pairwise_singleton _ _, ?_⟩
    intro c _ c' hc' s ht
    obtain rfl := List.mem_singleton.1 hc'
    cases ht
  noCycles s d hd := by
    rcases List.mem_append.1 hd with hd | hd
    · exact hp.noCycles s d hd
    · cases List.mem_singleton.1 hd

theorem WellFormed.define (hp : p.WellFormed) (hd : ∀ s : Nat, s ∈ d.symbols → s < p.symbols.length) :
    ((p.fresh name .int o).2.add (.define p.symbols.length d)).WellFormed where
  inRange c hc s hs := by
    rcases List.mem_append.1 hc with hc | hc
    · exact hp.fresh.inRange c hc s hs
    · obtain rfl := List.mem_singleton.1 hc
      simp only [Problem.add, Problem.fresh, List.length_append, List.length_singleton]
      rcases List.mem_cons.1 hs with rfl | hs
      · omega
      · have h := hd s hs
        omega
  intTargets c hc s ht := by
    rcases List.mem_append.1 hc with hc | hc
    · exact hp.fresh.intTargets c hc s ht
    · obtain rfl := List.mem_singleton.1 hc
      cases ht
      simp [Problem.add, Problem.fresh, kindOf]
  freshTargets := by
    refine List.pairwise_append.2 ⟨hp.freshTargets, List.pairwise_singleton _ _, ?_⟩
    intro c hc c' hc' s ht hs
    obtain rfl := List.mem_singleton.1 hc'
    cases ht
    exact Nat.lt_irrefl _ (hp.inRange c hc _ hs)
  noCycles s d' hd' := by
    rcases List.mem_append.1 hd' with hd' | hd'
    · exact hp.noCycles s d' hd'
    · cases List.mem_singleton.1 hd'
      intro hs
      exact Nat.lt_irrefl _ (hd _ hs)

theorem mem_free_fresh (hp : p.WellFormed) {s : Nat} :
    s ∈ (p.fresh name k o).2.free ↔ s ∈ p.free ∨ s = p.symbols.length := by
  have hlen : (p.fresh name k o).2.symbols.length = p.symbols.length + 1 := by
    simp [Problem.fresh]
  rw [mem_free, mem_free, hlen]
  constructor
  · rintro ⟨hs, ht⟩
    by_cases h : s = p.symbols.length
    · exact .inr h
    · exact .inl ⟨by omega, ht⟩
  · rintro (⟨hs, ht⟩ | rfl)
    · exact ⟨by omega, ht⟩
    · exact ⟨by omega, fun c hc ht => Nat.lt_irrefl _ (target_lt hp hc ht)⟩

theorem mem_free_assert {s : SymbolId} : s ∈ (p.add (.assert f)).free ↔ s ∈ p.free := by
  simp [mem_free, Problem.add, or_imp, forall_and, Constraint.target?]

theorem mem_free_define {s : Nat} :
    s ∈ ((p.fresh name k o).2.add (.define p.symbols.length d)).free ↔ s ∈ p.free := by
  have hlen : ((p.fresh name k o).2.add (.define p.symbols.length d)).symbols.length =
      p.symbols.length + 1 := by
    simp [Problem.fresh, Problem.add]
  have hcs : ((p.fresh name k o).2.add (.define p.symbols.length d)).constraints =
      p.constraints ++ [.define p.symbols.length d] := rfl
  rw [mem_free, mem_free, hlen, hcs]
  constructor
  · rintro ⟨hs, ht⟩
    have hne : p.symbols.length ≠ s := by
      intro h
      exact ht (.define p.symbols.length d) (by simp) (by rw [h]; rfl)
    exact ⟨by omega, fun c hc => ht c (by simp [hc])⟩
  · rintro ⟨hs, ht⟩
    refine ⟨by omega, fun c hc hct => ?_⟩
    rcases List.mem_append.1 hc with hc | hc
    · exact ht c hc hct
    · obtain rfl := List.mem_singleton.1 hc
      cases hct
      omega

end Problem

namespace PathCondition

/-! ## Conditions as problems -/

variable {c c' : PathCondition} {w : Option Touch} {ts : List Touch} {x : String}

theorem Step.wellFormed (h : Step c w c') (hc : c.problem.WellFormed) : c'.problem.WellFormed := by
  cases h with
  | init x k _ => exact hc.fresh
  | again x _ => exact hc
  | check f hf => exact hc.assert fun s hs => hf.lt (f.symbols_eq_map ▸ hs)
  | define d hd => exact hc.define fun s hs => hd.lt (d.symbols_eq_map ▸ hs)
  | assign x n t ht =>
    refine hc.define fun s hs => ht.lt (t.symbols_eq_map ▸ ?_)
    simpa [Definition.symbols, Definition.operands] using hs
  | receive x n => exact hc.fresh

theorem wellFormed_empty : Problem.WellFormed {} :=
  ⟨by simp, by simp, by simp, by simp⟩

theorem Made.wellFormed (hc : c.Made) : c.problem.WellFormed := by
  obtain ⟨ts, hts⟩ := hc
  exact hts.keeps Step.wellFormed wellFormed_empty

/-- The symbols of initial values and inputs are the free ones. -/
def ListsFree (c : PathCondition) : Prop :=
  ∀ s, s ∈ c.problem.free ↔ s ∈ c.initial.map (·.2) ∨ s ∈ c.inputs.map (·.2)

theorem Step.listsFree (h : Step c w c') (hc : c.problem.WellFormed) (hf : c.ListsFree) :
    c'.ListsFree := by
  intro s
  cases h with
  | init x k _ =>
    rw [initialized, Problem.mem_free_fresh hc, hf s]
    simp only [List.map_append, List.map_cons, List.map_nil, List.mem_append, List.mem_singleton]
    grind
  | again x _ => exact hf s
  | check f _ => exact Problem.mem_free_assert.trans (hf s)
  | define d _ => exact Problem.mem_free_define.trans (hf s)
  | assign x n t _ => exact Problem.mem_free_define.trans (hf s)
  | receive x n =>
    rw [received, Problem.mem_free_fresh hc, hf s]
    simp only [List.map_append, List.map_cons, List.map_nil, List.mem_append, List.mem_singleton]
    grind

theorem Made.mem_free_iff (hc : c.Made) {s : SymbolId} :
    s ∈ c.problem.free ↔ s ∈ c.initial.map (·.2) ∨ s ∈ c.inputs.map (·.2) := by
  obtain ⟨ts, hts⟩ := hc
  have hboth := hts.keeps (P := fun c => c.problem.WellFormed ∧ c.ListsFree)
    (fun h hc => ⟨h.wellFormed hc.1, h.listsFree hc.1 hc.2⟩)
    ⟨wellFormed_empty, by simp [ListsFree, Problem.free]⟩
  exact hboth.2 s

end PathCondition

/-! ## Origins -/

/-- The variable to which the symbol gives a new value. -/
def Origin.written? : Origin → Option String
  | version x _ | input x _ => some x
  | initial _ | aux => none

namespace Problem

def originOf? (p : Problem) (s : SymbolId) : Option Origin :=
  (p.symbols[s]?).map (·.origin)

/-- The symbol is a version or an input of `x`. -/
def Writes (p : Problem) (x : String) (s : SymbolId) : Prop :=
  ∃ o, p.originOf? s = some o ∧ o.written? = some x

/-- The symbol is the last version or input of `x`. -/
def LastWrite (p : Problem) (x : String) (s : SymbolId) : Prop :=
  p.Writes x s ∧ ∀ t, s < t → ¬ p.Writes x t

variable {p : Problem} {o : Origin}

theorem lt_of_originOf? {s : Nat} (h : p.originOf? s = some o) : s < p.symbols.length := by
  obtain ⟨symbol, hs, -⟩ := Option.map_eq_some_iff.1 h
  exact (List.getElem?_eq_some_iff.1 hs).1

theorem Writes.lt {x : String} {s : Nat} (h : p.Writes x s) : s < p.symbols.length := by
  obtain ⟨o, ho, -⟩ := h
  exact lt_of_originOf? ho

theorem originOf?_append (p : Problem) (symbol : Symbol) (cs : List Constraint) (s : Nat) :
    Problem.originOf? ⟨p.symbols ++ [symbol], cs⟩ s =
      if s = p.symbols.length then some symbol.origin else p.originOf? s := by
  unfold originOf?
  rcases Nat.lt_trichotomy s p.symbols.length with h | h | h
  · have hne : s ≠ p.symbols.length := by omega
    rw [if_neg hne, List.getElem?_append_left h]
  · subst h
    simp
  · have hne : s ≠ p.symbols.length := by omega
    rw [if_neg hne, List.getElem?_eq_none (by simp; omega), List.getElem?_eq_none (by omega)]

theorem writes_append (p : Problem) (symbol : Symbol) (cs : List Constraint) (x : String) (s : Nat) :
    Problem.Writes ⟨p.symbols ++ [symbol], cs⟩ x s ↔
      p.Writes x s ∨ (symbol.origin.written? = some x ∧ s = p.symbols.length) := by
  unfold Writes
  rw [originOf?_append]
  by_cases hs : s = p.symbols.length
  · subst hs
    have hnone : p.originOf? p.symbols.length = none := by simp [originOf?]
    simp [hnone]
  · simp [hs]

end Problem

namespace PathCondition

variable {c c' : PathCondition} {w : Option Touch} {ts : List Touch} {x : String} {σ : Slot}

theorem Step.writes_iff (h : Step c w c') (y : String) (s : Nat) :
    c'.problem.Writes y s ↔ c.problem.Writes y s ∨
      (w.bind Touch.written? = some y ∧ s = c.problem.symbols.length) := by
  cases h with
  | init x k _ => exact Problem.writes_append c.problem _ _ y s
  | again x _ => simp [Touch.written?]
  | check f _ => simp [assert, Problem.add, Problem.Writes, Problem.originOf?]
  | define d _ => exact Problem.writes_append c.problem _ _ y s
  | assign x n t _ => exact Problem.writes_append c.problem _ _ y s
  | receive x n => exact Problem.writes_append c.problem _ _ y s

/-- The variables that have a written symbol are those that were written. -/
theorem Grows.exists_writes_iff (h : Grows c ts c') :
    (∃ s, c'.problem.Writes x s) ↔
      (∃ s, c.problem.Writes x s) ∨ ∃ t ∈ ts, t.written? = some x := by
  induction h with
  | refl => simp
  | @tail ts w c₁ c₂ _ hs ih =>
    have hstep : (∃ s, c₂.problem.Writes x s) ↔
        (∃ s, c₁.problem.Writes x s) ∨ w.bind Touch.written? = some x := by
      constructor
      · rintro ⟨s, hw⟩
        rcases (hs.writes_iff x s).1 hw with hw | ⟨hw, -⟩
        · exact .inl ⟨s, hw⟩
        · exact .inr hw
      · rintro (⟨s, hw⟩ | hw)
        · exact ⟨s, (hs.writes_iff x s).2 (.inl hw)⟩
        · exact ⟨_, (hs.writes_iff x _).2 (.inr ⟨hw, rfl⟩)⟩
    simp only [hstep, ih, List.mem_append, Option.mem_toList, Option.bind_eq_some_iff, or_and_right,
      exists_or, or_assoc]

theorem Grows.exists_writes_iff_mem {g : FlowGraph} {p : Path} (h : Grows {} (g.touches p) c) :
    (∃ s, c.problem.Writes x s) ↔ x ∈ g.written p := by
  have hnone : ¬ ∃ s, Problem.Writes {} x s := by
    rintro ⟨s, hs⟩
    exact Nat.not_lt_zero s hs.lt
  rw [h.exists_writes_iff, or_iff_right hnone, FlowGraph.mem_written]

/-- The present value of `x` is its last written symbol, or its initial value as long as there is
none. -/
def Latest (c : PathCondition) (x : String) : Prop :=
  match c.slots.lookup x with
  | none => ∀ s, ¬ c.problem.Writes x s
  | some σ => c.problem.LastWrite x σ.symbol ∨
      ((x, σ.symbol) ∈ c.initial ∧ ∀ s, ¬ c.problem.Writes x s)

theorem Step.latest_of_unwritten (h : Step c w c') (hx : w.bind Touch.written? ≠ some x)
    (hslot : c'.slots.lookup x = c.slots.lookup x) (hc : c.Latest x) : c'.Latest x := by
  have hw : ∀ s : Nat, c'.problem.Writes x s ↔ c.problem.Writes x s := by
    intro s
    simp [h.writes_iff x s, hx]
  unfold Latest at hc ⊢
  rw [hslot]
  cases hl : c.slots.lookup x with
  | none =>
    rw [hl] at hc
    intro s
    rw [hw s]
    exact hc s
  | some σ =>
    rw [hl] at hc
    rcases hc with ⟨hwrites, hlast⟩ | ⟨hinit, hnone⟩
    · refine .inl ⟨(hw _).2 hwrites, fun t ht => ?_⟩
      rw [hw t]
      exact hlast t ht
    · refine .inr ⟨h.extends.initial.subset hinit, fun s => ?_⟩
      rw [hw s]
      exact hnone s

theorem Step.latest_of_written (h : Step c w c') (hx : w.bind Touch.written? = some x)
    (hslot : c'.slots.lookup x = some σ) (hσ : σ.symbol = c.problem.symbols.length) :
    c'.Latest x := by
  unfold Latest
  rw [hslot]
  refine .inl ⟨(h.writes_iff x _).2 (.inr ⟨hx, hσ⟩), fun (t : Nat) ht hw => ?_⟩
  rw [hσ] at ht
  rcases (h.writes_iff x t).1 hw with hw | ⟨-, rfl⟩
  · exact Nat.lt_asymm ht hw.lt
  · exact Nat.lt_irrefl _ ht

theorem Step.latest (h : Step c w c') (hc : ∀ x, c.Latest x) : ∀ x, c'.Latest x := by
  intro y
  cases h with
  | init x k hnone =>
    by_cases hy : y = x
    · subst hy
      have hw := (Step.init c y k hnone).writes_iff y
      have hnot := hc y
      unfold Latest at hnot ⊢
      rw [hnone] at hnot
      rw [lookup_initialized, if_pos rfl]
      refine .inr ⟨by simp [initialized], fun s => ?_⟩
      rw [hw s]
      simp [hnot s, Touch.written?]
    · refine (Step.init c x k hnone).latest_of_unwritten (by simp [Touch.written?]) ?_ (hc y)
      rw [lookup_initialized, if_neg hy]
  | again x hx => exact hc y
  | check f hf => exact (Step.check c f hf).latest_of_unwritten (by simp) rfl (hc y)
  | define d hd => exact (Step.define c d hd).latest_of_unwritten (by simp) rfl (hc y)
  | assign x n t ht =>
    have hslot := lookup_assigned c x y n t
    by_cases hy : y = x
    · subst hy
      exact (Step.assign c y n t ht).latest_of_written rfl (hslot.trans (if_pos rfl)) rfl
    · exact (Step.assign c x n t ht).latest_of_unwritten (by simpa [Touch.written?] using Ne.symm hy)
        (hslot.trans (if_neg hy)) (hc y)
  | receive x n =>
    have hslot := lookup_received c x y n
    by_cases hy : y = x
    · subst hy
      exact (Step.receive c y n).latest_of_written rfl (hslot.trans (if_pos rfl)) rfl
    · exact (Step.receive c x n).latest_of_unwritten (by simpa [Touch.written?] using Ne.symm hy)
        (hslot.trans (if_neg hy)) (hc y)

theorem Made.latest (hc : c.Made) (x : String) : c.Latest x := by
  obtain ⟨ts, hts⟩ := hc
  refine hts.keeps Step.latest (fun x s hw => ?_) x
  exact Nat.not_lt_zero s hw.lt

/-! ## Initial values and inputs -/

/-- The listed symbols tell which variable or input they stand for, and no variable is listed twice
among the initial ones. -/
structure Listed (c : PathCondition) : Prop where
  initial : ∀ q ∈ c.initial, c.problem.originOf? q.2 = some (.initial q.1)
  inputs : ∀ j q, c.inputs[j]? = some q →
    c.problem.originOf? q.2 = some (.input q.1 j) ∧ c.problem.kindOf q.2 = .int
  met : ∀ q ∈ c.initial, c.slots.lookup q.1 ≠ none
  nodup : (c.initial.map (·.1)).Nodup

theorem Extends.originOf? {s : Nat} {o : Origin} (h : Extends c c')
    (ho : c.problem.originOf? s = some o) : c'.problem.originOf? s = some o := by
  rw [Problem.originOf?, h.getElem? (Problem.lt_of_originOf? ho)]
  exact ho

theorem Listed.extends (hc : c.Listed) (h : Extends c c') :
    (∀ q ∈ c.initial, c'.problem.originOf? q.2 = some (.initial q.1)) ∧
      ∀ j q, c.inputs[j]? = some q →
        c'.problem.originOf? q.2 = some (.input q.1 j) ∧ c'.problem.kindOf q.2 = .int := by
  refine ⟨fun q hq => h.originOf? (hc.initial q hq), fun j q hq => ?_⟩
  obtain ⟨ho, hk⟩ := hc.inputs j q hq
  exact ⟨h.originOf? ho, by rw [h.kindOf (Problem.lt_of_originOf? ho), hk]⟩

theorem Step.listed (h : Step c w c') (hc : c.Listed) : c'.Listed := by
  obtain ⟨hinit, hinp⟩ := hc.extends h.extends
  have hmet : ∀ q ∈ c.initial, c'.slots.lookup q.1 ≠ none := fun q hq =>
    (h.lookup_ne_none_iff q.1).2 (.inl (hc.met q hq))
  cases h with
  | init x k hnone =>
    refine ⟨fun q hq => ?_, hinp, fun q hq => ?_, ?_⟩
    · rcases List.mem_append.1 hq with hq | hq
      · exact hinit q hq
      · obtain rfl := List.mem_singleton.1 hq
        exact (Problem.originOf?_append c.problem _ _ _).trans (if_pos rfl)
    · rcases List.mem_append.1 hq with hq | hq
      · exact hmet q hq
      · obtain rfl := List.mem_singleton.1 hq
        simp [initialized]
    · simp only [initialized, List.map_append, List.map_cons, List.map_nil]
      refine List.nodup_append.2 ⟨hc.nodup, by simp, ?_⟩
      intro y hy z hz hyz
      obtain ⟨q, hq, rfl⟩ := List.mem_map.1 hy
      obtain rfl := List.mem_singleton.1 hz
      exact hc.met q hq (hyz ▸ hnone)
  | again x _ => exact hc
  | check f _ => exact ⟨hinit, hinp, hmet, hc.nodup⟩
  | define d _ => exact ⟨hinit, hinp, hmet, hc.nodup⟩
  | assign x n t _ => exact ⟨hinit, hinp, hmet, hc.nodup⟩
  | receive x n =>
    refine ⟨hinit, fun j q hq => ?_, hmet, hc.nodup⟩
    simp only [received, List.getElem?_append] at hq
    split at hq
    · exact hinp j q hq
    · rename_i hj
      obtain ⟨hlt, hq⟩ := List.getElem?_eq_some_iff.1 hq
      simp only [List.length_singleton] at hlt
      have hjlen : j = c.inputs.length := by omega
      subst hjlen
      simp only [Nat.sub_self, List.getElem_cons_zero] at hq
      subst hq
      exact ⟨(Problem.originOf?_append c.problem _ _ _).trans (if_pos rfl),
        by simp [received, Problem.fresh, Problem.kindOf]⟩

theorem Made.listed (hc : c.Made) : c.Listed := by
  obtain ⟨ts, hts⟩ := hc
  exact hts.keeps Step.listed ⟨by simp, by simp, by simp, by simp⟩

end PathCondition

end Pathwise
