import Pathwise.PathCondition
import Pathwise.Proofs.Walk
import Pathwise.Proofs.Constraint.Symbols
import Pathwise.Proofs.PathCondition.Touches

/-!
How a path condition grows.

Whatever is encoded, the condition changes in five ways: a variable gets a symbol for its initial value,
an assertion is added, an intermediate result is defined, a variable is assigned, an input is received
(`Step`). What is added uses symbols that are there, at their kinds (`Fits`). Encoding an expression, an
edge or a path is a sequence of such steps (`Grows`), which lists what is done with variables on the
way. Nothing is taken back, and definitions only set symbols that are new (`Grows.extends`).

What the encoder does with each form of expression, action and edge where it succeeds is said once, in
the lemmas that end in `eq_ok`. Only what is said about where it fails unfolds the encoder again.
-/

namespace Pathwise

theorem bind_eq_ok {ε α β : Type} {r : Except ε α} {f : α → Except ε β} {b : β} :
    (r >>= f) = .ok b ↔ ∃ a, r = .ok a ∧ f a = .ok b := by
  cases r with
  | error e => simp [bind, Except.bind]
  | ok a => simp [bind, Except.bind]

namespace PathCondition

/-! ## Steps -/

/-- `x` gets a symbol for its initial value. -/
def initialized (c : PathCondition) (x : String) (k : Kind) : PathCondition :=
  { c with
    problem := (c.problem.fresh x k (.initial x)).2
    slots := (x, ⟨k, c.problem.symbols.length, 1⟩) :: c.slots
    initial := c.initial ++ [(x, c.problem.symbols.length)] }

/-- `x` gets a symbol for its `n`th version, which has the value of `t`. -/
def assigned (c : PathCondition) (x : String) (n : Nat) (t : Term) : PathCondition :=
  { c with
    problem := (c.problem.fresh s!"{x}#{n}" .int (.version x n)).2.add
      (.define c.problem.symbols.length (.copy t))
    slots := (x, ⟨.int, c.problem.symbols.length, n⟩) :: c.slots }

/-- `x` gets a symbol for the next input. -/
def received (c : PathCondition) (x : String) (n : Nat) : PathCondition :=
  { c with
    problem := (c.problem.fresh s!"{x}?{c.inputs.length}" .int (.input x c.inputs.length)).2
    slots := (x, ⟨.int, c.problem.symbols.length, n⟩) :: c.slots
    inputs := c.inputs ++ [(x, c.problem.symbols.length)] }

/-- What the operator requires of its second operand is asserted, if there is something. -/
def required (c : PathCondition) (op : ArithOp) (b : Term) : PathCondition :=
  match requirement? op b with
  | some f => c.assert f
  | none => c

/-- The condition has the symbols, and their kinds are those at which they are used. -/
def Fits (c : PathCondition) (us : List SymbolUse) : Prop :=
  ∀ u ∈ us, (u.1 : Nat) < c.problem.symbols.length ∧ c.problem.kindOf u.1 = u.2

/-- One change of a condition, with the touch of a variable that brings it about. A variable that has
been met can be read again without a change. -/
inductive Step : PathCondition → Option Touch → PathCondition → Prop
  | init (c : PathCondition) (x : String) (k : Kind) (h : c.slots.lookup x = none) :
    Step c (some (.read x)) (c.initialized x k)
  | again (c : PathCondition) (x : String) (h : c.slots.lookup x ≠ none) : Step c (some (.read x)) c
  | check (c : PathCondition) (f : Formula) (h : c.Fits f.symbolUses) : Step c none (c.assert f)
  | define (c : PathCondition) (d : Definition) (h : c.Fits d.symbolUses) :
    Step c none (c.result d).2
  | assign (c : PathCondition) (x : String) (n : Nat) (t : Term) (h : c.Fits t.symbolUses) :
    Step c (some (.assign x)) (c.assigned x n t)
  | receive (c : PathCondition) (x : String) (n : Nat) :
    Step c (some (.receive x)) (c.received x n)

/-- Changes one after another, with all touches in order. -/
inductive Grows (c : PathCondition) : List Touch → PathCondition → Prop
  | refl : Grows c [] c
  | tail {ts : List Touch} {w : Option Touch} {c' c'' : PathCondition} :
    Grows c ts c' → Step c' w c'' → Grows c (ts ++ w.toList) c''

/-- The condition comes from the empty one. -/
def Made (c : PathCondition) : Prop := ∃ ts, Grows {} ts c

variable {c c' c₁ c₂ : PathCondition} {w : Option Touch} {ts us : List Touch} {x : String}
  {k : Kind} {s : SymbolId} {t : Term} {f : Formula}

theorem Step.grows (h : Step c w c') : Grows c w.toList c' := by
  simpa using Grows.tail (.refl (c := c)) h

theorem Grows.trans (h : Grows c ts c₁) (h' : Grows c₁ us c₂) : Grows c (ts ++ us) c₂ := by
  induction h' with
  | refl => simpa using h
  | tail _ hs ih =>
    rw [← List.append_assoc]
    exact ih.tail hs

/-- What every step keeps is kept. -/
theorem Grows.keeps {P : PathCondition → Prop} (hstep : ∀ {c w c'}, Step c w c' → P c → P c')
    (h : Grows c ts c') (hc : P c) : P c' := by
  induction h with
  | refl => exact hc
  | tail _ hs ih => exact hstep hs ih

theorem Made.grows (hc : c.Made) (h : Grows c ts c') : c'.Made := by
  obtain ⟨us, hu⟩ := hc
  exact ⟨us ++ ts, hu.trans h⟩

/-! ## Nothing is taken back -/

/-- `c'` is `c` with more at the end, and what it defines in addition are symbols that `c` does not
have. -/
structure Extends (c c' : PathCondition) : Prop where
  symbols : c.problem.symbols <+: c'.problem.symbols
  constraints : ∃ new, c'.problem.constraints = c.problem.constraints ++ new ∧
    ∀ k ∈ new, ∀ s : Nat, k.target? = some s → c.problem.symbols.length ≤ s
  initial : c.initial <+: c'.initial
  inputs : c.inputs <+: c'.inputs

theorem Extends.refl (c : PathCondition) : Extends c c :=
  ⟨List.prefix_rfl, ⟨[], by simp⟩, List.prefix_rfl, List.prefix_rfl⟩

theorem Extends.trans (h : Extends c c₁) (h' : Extends c₁ c₂) : Extends c c₂ := by
  refine ⟨h.symbols.trans h'.symbols, ?_, h.initial.trans h'.initial, h.inputs.trans h'.inputs⟩
  obtain ⟨new, hnew, ht⟩ := h.constraints
  obtain ⟨new', hnew', ht'⟩ := h'.constraints
  refine ⟨new ++ new', by rw [hnew', hnew, List.append_assoc], fun k hk s hs => ?_⟩
  rcases List.mem_append.1 hk with hk | hk
  · exact ht k hk s hs
  · exact Nat.le_trans h.symbols.length_le (ht' k hk s hs)

theorem Step.extends (h : Step c w c') : Extends c c' := by
  have hdefine : ∀ d, ∀ k ∈ [Constraint.define c.problem.symbols.length d], ∀ s : Nat,
      k.target? = some s → c.problem.symbols.length ≤ s := by
    intro d k hk s hs
    obtain rfl := List.mem_singleton.1 hk
    cases hs
    exact Nat.le_refl _
  cases h with
  | init x k h =>
    exact ⟨List.prefix_append _ _, ⟨[], (List.append_nil _).symm, by simp⟩,
      List.prefix_append _ _, List.prefix_rfl⟩
  | again x h => exact .refl c
  | check f h =>
    exact ⟨List.prefix_rfl, ⟨[.assert f], rfl, by simp [Constraint.target?]⟩,
      List.prefix_rfl, List.prefix_rfl⟩
  | define d h =>
    exact ⟨List.prefix_append _ _, ⟨_, rfl, hdefine d⟩, List.prefix_rfl, List.prefix_rfl⟩
  | assign x n t h =>
    exact ⟨List.prefix_append _ _, ⟨_, rfl, hdefine (.copy t)⟩, List.prefix_rfl, List.prefix_rfl⟩
  | receive x n =>
    exact ⟨List.prefix_append _ _, ⟨[], (List.append_nil _).symm, by simp⟩, List.prefix_rfl,
      List.prefix_append _ _⟩

theorem Grows.extends (h : Grows c ts c') : Extends c c' := by
  induction h with
  | refl => exact .refl c
  | tail _ hs ih => exact ih.trans hs.extends

theorem Extends.getElem? (h : Extends c c') {s : Nat} (hs : s < c.problem.symbols.length) :
    c'.problem.symbols[s]? = c.problem.symbols[s]? := by
  obtain ⟨new, hnew⟩ := h.symbols
  rw [← hnew, List.getElem?_append_left hs]

theorem Extends.kindOf (h : Extends c c') {s : Nat} (hs : s < c.problem.symbols.length) :
    c'.problem.kindOf s = c.problem.kindOf s := by
  simp only [Problem.kindOf, h.getElem? hs]

/-! ## Uses at the right kinds -/

section
variable {us vs : List SymbolUse}

theorem Extends.fits (h : Extends c c') (hu : c.Fits us) : c'.Fits us := by
  intro u hmem
  obtain ⟨hlt, hk⟩ := hu u hmem
  exact ⟨Nat.lt_of_lt_of_le hlt h.symbols.length_le, (h.kindOf hlt).trans hk⟩

theorem Fits.append (hu : c.Fits us) (hv : c.Fits vs) : c.Fits (us ++ vs) := fun u hmem =>
  (List.mem_append.1 hmem).elim (hu u) (hv u)

theorem Fits.lt {s : Nat} (hu : c.Fits us) (hs : s ∈ us.map (·.1)) : s < c.problem.symbols.length := by
  obtain ⟨u, hmem, rfl⟩ := List.mem_map.1 hs
  exact (hu u hmem).1

end

/-- A new symbol has the kind that it is made with. -/
theorem fits_fresh {name : String} {o : Origin} {cs : List Constraint}
    (h : c'.problem = ⟨c.problem.symbols ++ [⟨name, k, o⟩], cs⟩) :
    c'.Fits [(c.problem.symbols.length, k)] := by
  intro u hu
  obtain rfl := List.mem_singleton.1 hu
  simp [h, Problem.kindOf]

theorem fits_binary (op : ArithOp) {ta tb : Term} (ha : c.Fits ta.symbolUses)
    (hb : c.Fits tb.symbolUses) : c.Fits (Definition.binary op ta tb).symbolUses := by
  simpa [Definition.symbolUses, Definition.operands] using ha.append hb

theorem fits_disj {f g : Formula} (hf : c.Fits f.symbolUses) (hg : c.Fits g.symbolUses) :
    c.Fits (Formula.disj [f, g]).symbolUses := by
  intro u hu
  obtain ⟨q, hq, huq⟩ := Formula.mem_symbolUses_join false hu
  rcases List.mem_pair.1 hq with rfl | rfl
  · exact hf u huq
  · exact hg u huq

/-! ## Expressions -/

theorem read_eq_ok (h : c.read x k = .ok (s, c')) :
    (∃ σ, c.slots.lookup x = some σ ∧ σ.kind = k ∧ s = σ.symbol ∧ c' = c) ∨
      (c.slots.lookup x = none ∧ s = c.problem.symbols.length ∧ c' = c.initialized x k) := by
  unfold read slot? at h
  split at h
  · rename_i σ hσ
    split at h
    · rename_i hk
      cases h
      exact .inl ⟨σ, hσ, hk, rfl, rfl⟩
    · cases h
  · rename_i hnone
    cases h
    exact .inr ⟨hnone, rfl, rfl⟩

theorem arith_var_eq_ok (h : c.arith (.var x) = .ok (t, c')) :
    ∃ s, c.read x .int = .ok (s, c') ∧ t = .sym s := by
  obtain ⟨⟨s, c₁⟩, hr, he⟩ := bind_eq_ok.1 h
  cases he
  exact ⟨s, hr, rfl⟩

theorem arith_unary_eq_ok {op : UnaryOp} {a : Arith} (h : c.arith (.unary op a) = .ok (t, c')) :
    ∃ ta c₁, c.arith a = .ok (ta, c₁) ∧ t = .sym c₁.problem.symbols.length ∧
      c' = (c₁.result (.unary op ta)).2 := by
  obtain ⟨⟨ta, c₁⟩, ha, he⟩ := bind_eq_ok.1 h
  cases he
  exact ⟨ta, c₁, ha, rfl, rfl⟩

theorem arith_binary_eq_ok {op : ArithOp} {a b : Arith}
    (h : c.arith (.binary op a b) = .ok (t, c')) :
    ∃ ta c₁ tb c₂, c.arith a = .ok (ta, c₁) ∧ c₁.arith b = .ok (tb, c₂) ∧
      t = .sym (c₂.required op tb).problem.symbols.length ∧
      c' = ((c₂.required op tb).result (.binary op ta tb)).2 := by
  obtain ⟨⟨ta, c₁⟩, ha, h⟩ := bind_eq_ok.1 h
  obtain ⟨⟨tb, c₂⟩, hb, he⟩ := bind_eq_ok.1 h
  cases he
  exact ⟨ta, c₁, tb, c₂, ha, hb, rfl, rfl⟩

theorem cond_var_eq_ok (h : c.cond (.var x) = .ok (f, c')) :
    ∃ s, c.read x .bool = .ok (s, c') ∧ f = .sym s := by
  obtain ⟨⟨s, c₁⟩, hr, he⟩ := bind_eq_ok.1 h
  cases he
  exact ⟨s, hr, rfl⟩

theorem cond_not_eq_ok {q : Cond} (h : c.cond (.not q) = .ok (f, c')) :
    ∃ f₁, c.cond q = .ok (f₁, c') ∧ f = f₁.negate := by
  obtain ⟨⟨f₁, c₁⟩, hq, he⟩ := bind_eq_ok.1 h
  cases he
  exact ⟨f₁, hq, rfl⟩

theorem cond_logic_eq_ok {op : LogicOp} {q r : Cond} (h : c.cond (.logic op q r) = .ok (f, c')) :
    ∃ f₁ c₁ f₂, c.cond q = .ok (f₁, c₁) ∧ c₁.cond r = .ok (f₂, c') ∧ f = .connect op f₁ f₂ := by
  obtain ⟨⟨f₁, c₁⟩, hq, h⟩ := bind_eq_ok.1 h
  obtain ⟨⟨f₂, c₂⟩, hr, he⟩ := bind_eq_ok.1 h
  cases he
  exact ⟨f₁, c₁, f₂, hq, hr, rfl⟩

theorem cond_cmp_eq_ok {op : CmpOp} {a b : Arith} (h : c.cond (.cmp op a b) = .ok (f, c')) :
    ∃ ta c₁ tb, c.arith a = .ok (ta, c₁) ∧ c₁.arith b = .ok (tb, c') ∧ f = .cmp op ta tb := by
  obtain ⟨⟨ta, c₁⟩, ha, h⟩ := bind_eq_ok.1 h
  obtain ⟨⟨tb, c₂⟩, hb, he⟩ := bind_eq_ok.1 h
  cases he
  exact ⟨ta, c₁, tb, ha, hb, rfl⟩

/-! ## Slots -/

theorem lookup_cons_slot (x y : String) (σ : Slot) (slots : List (String × Slot)) :
    ((x, σ) :: slots).lookup y = if y = x then some σ else slots.lookup y := by
  by_cases h : y = x
  · simp [h]
  · have hb : (y == x) = false := by simp [h]
    simp [List.lookup_cons, h, hb]

theorem lookup_initialized (c : PathCondition) (x y : String) (k : Kind) :
    (c.initialized x k).slots.lookup y =
      if y = x then some ⟨k, c.problem.symbols.length, 1⟩ else c.slots.lookup y :=
  lookup_cons_slot x y _ _

theorem lookup_assigned (c : PathCondition) (x y : String) (n : Nat) (t : Term) :
    (c.assigned x n t).slots.lookup y =
      if y = x then some ⟨.int, c.problem.symbols.length, n⟩ else c.slots.lookup y :=
  lookup_cons_slot x y _ _

theorem lookup_received (c : PathCondition) (x y : String) (n : Nat) :
    (c.received x n).slots.lookup y =
      if y = x then some ⟨.int, c.problem.symbols.length, n⟩ else c.slots.lookup y :=
  lookup_cons_slot x y _ _

/-- After a step a slot is as it was or has the symbol that the step makes, with its kind. -/
theorem Step.lookup (h : Step c w c') (y : String) :
    c'.slots.lookup y = c.slots.lookup y ∨ ∃ σ, c'.slots.lookup y = some σ ∧
      σ.symbol = c.problem.symbols.length ∧ c'.Fits [(c.problem.symbols.length, σ.kind)] := by
  cases h with
  | init x k _ =>
    rw [lookup_initialized]
    split
    · exact .inr ⟨_, rfl, rfl, fits_fresh rfl⟩
    · exact .inl rfl
  | again x _ => exact .inl rfl
  | check f _ => exact .inl rfl
  | define d _ => exact .inl rfl
  | assign x n t _ =>
    rw [lookup_assigned]
    split
    · exact .inr ⟨_, rfl, rfl, fits_fresh rfl⟩
    · exact .inl rfl
  | receive x n =>
    rw [lookup_received]
    split
    · exact .inr ⟨_, rfl, rfl, fits_fresh rfl⟩
    · exact .inl rfl

theorem ite_ne_none_iff {o : Option Slot} {σ : Slot} {y : String} :
    (if y = x then some σ else o) ≠ none ↔ o ≠ none ∨ x = y := by
  by_cases hy : x = y
  · simp [hy]
  · simp [hy, Ne.symm hy]

theorem Step.lookup_ne_none_iff (h : Step c w c') (y : String) :
    c'.slots.lookup y ≠ none ↔ c.slots.lookup y ≠ none ∨ ∃ t ∈ w, t.var = y := by
  cases h with
  | init x k _ =>
    rw [lookup_initialized, ite_ne_none_iff]
    simp [Touch.var]
  | again x hx =>
    refine ⟨.inl, ?_⟩
    rintro (hy | ⟨t, ht, rfl⟩)
    · exact hy
    · cases ht
      exact hx
  | check f _ => simp [assert]
  | define d _ => simp [result]
  | assign x n t _ =>
    rw [lookup_assigned, ite_ne_none_iff]
    simp [Touch.var]
  | receive x n =>
    rw [lookup_received, ite_ne_none_iff]
    simp [Touch.var]

theorem Step.slot_fits (h : Step c w c')
    (hc : ∀ y σ, c.slots.lookup y = some σ → c.Fits [(σ.symbol, σ.kind)]) :
    ∀ y σ, c'.slots.lookup y = some σ → c'.Fits [(σ.symbol, σ.kind)] := by
  intro y σ hy
  rcases h.lookup y with hold | ⟨σ', hnew, hσ', hfits⟩
  · exact h.extends.fits (hc y σ (hold ▸ hy))
  · rw [hnew] at hy
    cases hy
    rw [hσ']
    exact hfits

theorem Made.slot_fits {σ : Slot} (hc : c.Made) (h : c.slots.lookup x = some σ) :
    c.Fits [(σ.symbol, σ.kind)] := by
  obtain ⟨ts, hts⟩ := hc
  exact hts.keeps Step.slot_fits (by simp) x σ h

theorem Made.slot_lt {σ : Slot} (hc : c.Made) (h : c.slots.lookup x = some σ) :
    (σ.symbol : Nat) < c.problem.symbols.length :=
  (hc.slot_fits h).lt (by simp)

/-! ## What is encoded makes the condition grow -/

theorem grows_read (hc : c.Made) (h : c.read x k = .ok (s, c')) :
    Grows c [.read x] c' ∧ c'.Fits [(s, k)] := by
  rcases read_eq_ok h with ⟨σ, hσ, rfl, rfl, rfl⟩ | ⟨hnone, rfl, rfl⟩
  · exact ⟨(Step.again c' x (by simp [hσ])).grows, hc.slot_fits hσ⟩
  · exact ⟨(Step.init c x k hnone).grows, fits_fresh rfl⟩

theorem grows_result {d : Definition} (hd : c.Fits d.symbolUses) :
    Grows c [] (c.result d).2 ∧ (c.result d).2.Fits [(c.problem.symbols.length, .int)] :=
  ⟨(Step.define c d hd).grows, fits_fresh rfl⟩

theorem grows_required {op : ArithOp} (ht : c.Fits t.symbolUses) : Grows c [] (c.required op t) := by
  unfold required
  split
  · rename_i f hf
    refine (Step.check c f fun u hu => ht u ?_).grows
    cases op <;> cases hf <;> simpa [Formula.symbolUses, Term.symbolUses, Term.symbols] using hu
  · exact .refl

theorem grows_operator (op : ArithOp) {ta tb : Term} (ha : c.Fits ta.symbolUses)
    (hb : c.Fits tb.symbolUses) :
    Grows c [] ((c.required op tb).result (.binary op ta tb)).2 ∧
      ((c.required op tb).result (.binary op ta tb)).2.Fits
        [((c.required op tb).problem.symbols.length, .int)] := by
  have hg : Grows c [] (c.required op tb) := grows_required hb
  obtain ⟨hg', hs⟩ := grows_result (hg.extends.fits (fits_binary op ha hb))
  exact ⟨hg.trans hg', hs⟩

theorem grows_arith {a : Arith} (hc : c.Made) (h : c.arith a = .ok (t, c')) :
    Grows c (a.occurrences.map .read) c' ∧ c'.Fits t.symbolUses := by
  induction a generalizing c t c' with
  | const n =>
    cases h
    exact ⟨.refl, by simp [Fits, Term.symbolUses, Term.symbols]⟩
  | var x =>
    obtain ⟨s, hr, rfl⟩ := arith_var_eq_ok h
    exact grows_read hc hr
  | unary op a ih =>
    obtain ⟨ta, c₁, ha, rfl, rfl⟩ := arith_unary_eq_ok h
    obtain ⟨hg, hs⟩ := ih hc ha
    have hd : c₁.Fits (Definition.unary op ta).symbolUses := by
      simpa [Definition.symbolUses, Definition.operands] using hs
    obtain ⟨hg', hs'⟩ := grows_result hd
    refine ⟨?_, hs'⟩
    simpa [Arith.occurrences] using hg.trans hg'
  | binary op a b iha ihb =>
    obtain ⟨ta, c₁, tb, c₂, ha, hb, rfl, rfl⟩ := arith_binary_eq_ok h
    obtain ⟨hga, hsa⟩ := iha hc ha
    obtain ⟨hgb, hsb⟩ := ihb (hc.grows hga) hb
    obtain ⟨hgo, hso⟩ := grows_operator op (hgb.extends.fits hsa) hsb
    refine ⟨?_, hso⟩
    simpa [Arith.occurrences] using (hga.trans hgb).trans hgo

theorem grows_cond {q : Cond} (hc : c.Made) (h : c.cond q = .ok (f, c')) :
    Grows c (q.occurrences.map .read) c' ∧ c'.Fits f.symbolUses := by
  induction q generalizing c f c' with
  | const b =>
    cases h
    exact ⟨.refl, by simp [Fits, Formula.symbolUses]⟩
  | var x =>
    obtain ⟨s, hr, rfl⟩ := cond_var_eq_ok h
    simpa [Formula.symbolUses, Cond.occurrences] using grows_read hc hr
  | not q ih =>
    obtain ⟨f₁, hq, rfl⟩ := cond_not_eq_ok h
    rw [Formula.symbolUses_negate]
    exact ih hc hq
  | logic op q r ihq ihr =>
    obtain ⟨f₁, c₁, f₂, hq, hr, rfl⟩ := cond_logic_eq_ok h
    obtain ⟨hgq, hsq⟩ := ihq hc hq
    obtain ⟨hgr, hsr⟩ := ihr (hc.grows hgq) hr
    constructor
    · simpa [Cond.occurrences] using hgq.trans hgr
    · intro u hu
      exact (Formula.mem_symbolUses_connect hu).elim (hgr.extends.fits hsq u) (hsr u)
  | cmp op a b =>
    obtain ⟨ta, c₁, tb, ha, hb, rfl⟩ := cond_cmp_eq_ok h
    obtain ⟨hga, hsa⟩ := grows_arith hc ha
    obtain ⟨hgb, hsb⟩ := grows_arith (hc.grows hga) hb
    constructor
    · simpa [Cond.occurrences] using hga.trans hgb
    · exact (hgb.extends.fits hsa).append hsb

/-! ## Actions, edges and paths -/

theorem action_assign_eq_ok {e : Arith} (h : c.action (.assign x e) = .ok c') :
    ∃ t c₁ n, c.arith e = .ok (t, c₁) ∧ c' = c₁.assigned x n t := by
  obtain ⟨⟨t, c₁⟩, he, h⟩ := bind_eq_ok.1 h
  obtain ⟨n, -, h⟩ := bind_eq_ok.1 h
  cases h
  exact ⟨t, c₁, n + 1, he, rfl⟩

theorem action_input_eq_ok (h : c.action (.input x) = .ok c') : ∃ n, c' = c.received x n := by
  obtain ⟨n, -, h⟩ := bind_eq_ok.1 h
  cases h
  exact ⟨n + 1, rfl⟩

theorem action_print_eq_ok {e : Arith} (h : c.action (.print e) = .ok c') :
    ∃ t, c.arith e = .ok (t, c') := by
  obtain ⟨⟨t, c₁⟩, he, h⟩ := bind_eq_ok.1 h
  cases h
  exact ⟨t, he⟩

theorem edge_eq_ok {e : Edge} (h : c.edge e = .ok c') :
    (e.guard = .const true ∧ c.action e.action = .ok c') ∨
      ∃ f c₁, c.cond e.guard = .ok (f, c₁) ∧ (c₁.assert f).action e.action = .ok c' := by
  unfold edge at h
  split at h
  · rename_i htrue
    refine .inl ⟨?_, h⟩
    cases hg : e.guard <;> simp_all [Cond.isTrue]
  · obtain ⟨⟨f, c₁⟩, hf, h⟩ := bind_eq_ok.1 h
    exact .inr ⟨f, c₁, hf, h⟩

theorem grows_action {a : Action} (hc : c.Made) (h : c.action a = .ok c') : Grows c a.touches c' := by
  cases a with
  | skip =>
    cases h
    exact .refl
  | assign x e =>
    obtain ⟨t, c₁, n, he, rfl⟩ := action_assign_eq_ok h
    obtain ⟨hg, hs⟩ := grows_arith hc he
    exact hg.tail (.assign c₁ x n t hs)
  | input x =>
    obtain ⟨n, rfl⟩ := action_input_eq_ok h
    exact (Step.receive c x n).grows
  | print e =>
    obtain ⟨t, he⟩ := action_print_eq_ok h
    exact (grows_arith hc he).1

theorem grows_edge {e : Edge} (hc : c.Made) (h : c.edge e = .ok c') : Grows c e.touches c' := by
  rcases edge_eq_ok h with ⟨htrue, ha⟩ | ⟨f, c₁, hf, ha⟩
  · simpa [Edge.touches, htrue, Cond.occurrences] using grows_action hc ha
  · obtain ⟨hg, hs⟩ := grows_cond hc hf
    have hg' := hg.trans (Step.check c₁ f hs).grows
    simpa [Edge.touches] using hg'.trans (grows_action (hc.grows hg') ha)

end PathCondition

namespace PathCondition

variable {c c' : PathCondition} {g : FlowGraph}

/-- One step of the path follows its only edge or one of two edges that do nothing. -/
theorem step_eq_ok {a : Arc} (hg : ∀ n, Fan n (g.outgoing n)) (h : step g c a = .ok c') :
    (∃ e, g.touchesOn a = e.touches ∧ c.edge e = .ok c' ∧
      ∀ m m', g.step a.source m = .ok (a.target, m') ↔
        e.guard.eval m.env = .ok true ∧ e.action.perform m = .ok m') ∨
    ∃ q f₁ c₁ f₂ c₂, g.touchesOn a = (q.occurrences ++ q.negate.occurrences).map .read ∧
      c.cond q = .ok (f₁, c₁) ∧ c₁.cond q.negate = .ok (f₂, c₂) ∧ c' = c₂.assert (.disj [f₁, f₂]) ∧
      ∀ m m', g.step a.source m = .ok (a.target, m') ↔ m' = m ∧ ∃ b, q.eval m.env = .ok b := by
  have hlink := FlowGraph.link_edgesBetween (hg a.source) a.target
  unfold step at h
  unfold FlowGraph.touchesOn
  generalize g.edgesBetween a.source a.target = es at hlink h
  cases hlink with
  | none => cases h
  | single e hstep => exact .inl ⟨e, by simp, h, hstep⟩
  | double q w₁ w₂ hstep =>
    simp only [List.all_cons, List.all_nil, Action.isSkip, Bool.and_self, ↓reduceIte] at h
    obtain ⟨⟨fs, c₂⟩, hfs, h⟩ := bind_eq_ok.1 h
    cases h
    obtain ⟨⟨f₁, c₁⟩, hq, hfs⟩ := bind_eq_ok.1 hfs
    obtain ⟨⟨fs', c₃⟩, hrest, hfs⟩ := bind_eq_ok.1 hfs
    cases hfs
    obtain ⟨⟨f₂, c₂'⟩, hq', hrest⟩ := bind_eq_ok.1 hrest
    cases hrest
    exact .inr ⟨q, f₁, c₁, f₂, c₂, by simp [Edge.touches, Action.touches], hq, hq', rfl, hstep⟩

theorem grows_step {a : Arc} (hg : ∀ n, Fan n (g.outgoing n)) (hc : c.Made)
    (h : step g c a = .ok c') : Grows c (g.touchesOn a) c' := by
  rcases step_eq_ok hg h with ⟨e, he, hedge, -⟩ | ⟨q, f₁, c₁, f₂, c₂, hq₁₂, hq, hq', rfl, -⟩
  · rw [he]
    exact grows_edge hc hedge
  · obtain ⟨hg₁, hs₁⟩ := grows_cond hc hq
    obtain ⟨hg₂, hs₂⟩ := grows_cond (hc.grows hg₁) hq'
    have hcheck : Step c₂ none (c₂.assert (.disj [f₁, f₂])) :=
      .check c₂ _ (fits_disj (hg₂.extends.fits hs₁) hs₂)
    rw [hq₁₂, List.map_append]
    simpa using (hg₁.trans hg₂).tail hcheck

theorem grows_arcs {as : List Arc} (hg : ∀ n, Fan n (g.outgoing n)) (hc : c.Made)
    (h : as.foldlM (step g) c = .ok c') : Grows c (as.flatMap g.touchesOn) c' := by
  induction as generalizing c with
  | nil =>
    cases h
    exact .refl
  | cons a as ih =>
    rw [List.foldlM_cons] at h
    obtain ⟨c₁, hstep, hrest⟩ := bind_eq_ok.1 h
    have hg₁ := grows_step hg hc hstep
    exact hg₁.trans (ih (hc.grows hg₁) hrest)

theorem pathCondition_eq_ok {p : Path} (h : g.pathCondition p = .ok c) :
    p.head? = some .entry ∧ p.getLast? = some .exit ∧ p.arcs.foldlM (step g) {} = .ok c := by
  unfold FlowGraph.pathCondition at h
  split at h
  · cases h
  split at h
  · cases h
  rename_i hhead hlast
  exact ⟨Decidable.not_not.1 hhead, Decidable.not_not.1 hlast, h⟩

theorem grows_pathCondition {p : Path} (hg : ∀ n, Fan n (g.outgoing n))
    (h : g.pathCondition p = .ok c) : Grows {} (g.touches p) c :=
  grows_arcs hg ⟨[], .refl⟩ (pathCondition_eq_ok h).2.2

end PathCondition

end Pathwise
