import Pathwise.Constraint.Formula

/-!
The constructors that keep formulas small change no value.

Conjunctions and disjunctions are treated as one notion, a junction, told apart by its unit: the value
of a part that leaves it undecided. The first part that is not worth the unit decides a junction, and
if that part has no value the junction has none (`eval_junction_cons`). So opening a junction of the
same unit among the parts, leaving the unit out and unwrapping a single part keep the value in every
model (`eval_join`), also in one that lacks a symbol or has it at the wrong kind.

A formula built anew with the constructors at every depth (`simplified`) therefore has the value it had,
and no constructor finds anything left to do in it (`isReduced_simplified`).
-/

namespace Pathwise

theorem CmpOp.holds_negate (op : CmpOp) (a b : Int64) : op.negate.holds a b = !op.holds a b := by
  cases op with
  | eq => rfl
  | ne => simp [negate, holds, bne]
  | lt | ge => simp [negate, holds, ← Int64.not_lt]
  | le | gt => simp [negate, holds, ← Int64.not_le]

namespace Formula

/-! ## Junctions -/

/-- The conjunction, of unit `true`, or the disjunction, of unit `false`. -/
def junction : Bool → List Formula → Formula
  | true => all
  | false => any

/-- What a formula brings to a junction. -/
def joinParts : Bool → Formula → List Formula
  | true => conjunctionParts
  | false => disjunctionParts

/-- The junction as its constructor builds it. -/
def join : Bool → List Formula → Formula
  | true => conj
  | false => disj

/-- Whether a junction keeps the formula as it is: not its unit and no junction of the same unit. -/
def isPart : Bool → Formula → Bool
  | true, all _ => false
  | false, any _ => false
  | unit, const b => b != unit
  | _, _ => true

theorem joinParts_cases (unit : Bool) (f : Formula) :
    (∃ fs, f = junction unit fs ∧ joinParts unit f = fs) ∨
      (f = const unit ∧ joinParts unit f = []) ∨
      (isPart unit f = true ∧ joinParts unit f = [f]) := by
  cases f with
  | const b =>
    cases unit <;> cases b <;> simp [junction, joinParts, conjunctionParts, disjunctionParts, isPart]
  | all fs | any fs =>
    cases unit <;> simp [junction, joinParts, conjunctionParts, disjunctionParts, isPart]
  | sym _ | not _ | xor _ _ | cmp _ _ _ =>
    refine .inr (.inr ?_)
    cases unit <;> exact ⟨rfl, rfl⟩

/-- What the constructor builds depends on how many parts are left. -/
theorem join_cases (unit : Bool) (fs : List Formula) :
    (fs.flatMap (joinParts unit) = [] ∧ join unit fs = const unit) ∨
      (∃ f, fs.flatMap (joinParts unit) = [f] ∧ join unit fs = f) ∨
      (2 ≤ (fs.flatMap (joinParts unit)).length ∧
        join unit fs = junction unit (fs.flatMap (joinParts unit))) := by
  cases unit with
  | true =>
    simp only [join, joinParts, junction, conj]
    rcases fs.flatMap conjunctionParts with _ | ⟨f, _ | ⟨g, gs⟩⟩ <;> simp
  | false =>
    simp only [join, joinParts, junction, disj]
    rcases fs.flatMap disjunctionParts with _ | ⟨f, _ | ⟨g, gs⟩⟩ <;> simp

/-! ## Values -/

variable (m : Model)

@[simp] theorem eval_not (f : Formula) : (not f).eval m = (f.eval m).map (!·) := by
  cases h : f.eval m <;> simp [eval, h]

theorem eval_negate (f : Formula) : f.negate.eval m = (not f).eval m := by
  fun_cases negate f with
  | case1 b => rfl
  | case2 op a b =>
    rw [eval_not]
    simp only [eval]
    cases a.eval m <;> cases b.eval m <;> simp [CmpOp.holds_negate]
  | case3 f => simp [Function.comp_def]
  | case4 => rfl

theorem eval_junction_nil (unit : Bool) : (junction unit []).eval m = some unit := by
  cases unit <;> rfl

theorem eval_junction_cons (unit : Bool) (f : Formula) (fs : List Formula) :
    (junction unit (f :: fs)).eval m =
      if f.eval m = some unit then (junction unit fs).eval m else f.eval m := by
  cases unit <;> simp only [junction, eval, evalAll, evalAny]
  all_goals
    split
    next h => rw [if_pos h]
    next h => rw [if_neg h]

theorem eval_junction_append (unit : Bool) (fs gs : List Formula) :
    (junction unit (fs ++ gs)).eval m =
      if (junction unit fs).eval m = some unit then (junction unit gs).eval m
      else (junction unit fs).eval m := by
  induction fs with
  | nil => simp [eval_junction_nil]
  | cons f fs ih =>
    rw [List.cons_append, eval_junction_cons, eval_junction_cons]
    by_cases h : f.eval m = some unit <;> simp [h, ih]

theorem eval_junction_singleton (unit : Bool) (f : Formula) :
    (junction unit [f]).eval m = f.eval m := by
  rw [eval_junction_cons, eval_junction_nil]
  split
  next h => exact h.symm
  · rfl

theorem eval_joinParts (unit : Bool) (f : Formula) :
    (junction unit (joinParts unit f)).eval m = f.eval m := by
  obtain ⟨fs, rfl, h⟩ | ⟨rfl, h⟩ | ⟨-, h⟩ := joinParts_cases unit f
  · rw [h]
  · rw [h, eval_junction_nil, eval]
  · rw [h, eval_junction_singleton]

theorem eval_junction_flatMap (unit : Bool) (fs : List Formula) :
    (junction unit (fs.flatMap (joinParts unit))).eval m = (junction unit fs).eval m := by
  induction fs with
  | nil => rfl
  | cons f fs ih =>
    rw [List.flatMap_cons, eval_junction_append, eval_joinParts, ih, eval_junction_cons]

/-- The constructor of a junction and the plain node have the same value, defined or not. -/
theorem eval_join (unit : Bool) (fs : List Formula) :
    (join unit fs).eval m = (junction unit fs).eval m := by
  rw [← eval_junction_flatMap]
  obtain ⟨h, hjoin⟩ | ⟨f, h, hjoin⟩ | ⟨-, hjoin⟩ := join_cases unit fs
  · rw [h, hjoin, eval_junction_nil, eval]
  · rw [h, hjoin, eval_junction_singleton]
  · rw [hjoin]

theorem eval_join_pair {f g : Formula} {a b : Bool} (unit : Bool) (hf : f.eval m = some a)
    (hg : g.eval m = some b) : (join unit [f, g]).eval m = some (if a = unit then b else a) := by
  rw [eval_join, eval_junction_cons, eval_junction_singleton, hf, hg]
  by_cases h : a = unit <;> simp [h]

/-- Where both operands have a value, a connective takes its own. -/
theorem eval_connect {f g : Formula} {a b : Bool} (op : LogicOp) (hf : f.eval m = some a)
    (hg : g.eval m = some b) : (connect op f g).eval m = some (op.apply a b) := by
  cases op with
  | and =>
    refine (eval_join_pair m true hf hg).trans ?_
    cases a <;> rfl
  | or =>
    refine (eval_join_pair m false hf hg).trans ?_
    cases a <;> rfl
  | xor => simp [connect, eval, hf, hg, LogicOp.apply]

variable {m}

theorem eval_junction_eq_unit (unit : Bool) {fs : List Formula} :
    (junction unit fs).eval m = some unit ↔ ∀ f ∈ fs, f.eval m = some unit := by
  induction fs with
  | nil => simp [eval_junction_nil]
  | cons f fs ih =>
    rw [eval_junction_cons, List.forall_mem_cons, ← ih]
    by_cases h : f.eval m = some unit <;> simp [h]

theorem eval_eq_true_iff_conjuncts {f : Formula} :
    f.eval m = some true ↔ ∀ g ∈ f.conjuncts, g.eval m = some true := by
  fun_cases conjuncts f with
  | case1 fs => exact eval_junction_eq_unit true
  | case2 => simp

/-! ## Reduced formulas -/

/-- Whether negation changes the formula instead of standing in front of it. -/
def absorbsNegation : Formula → Bool
  | const _ | not _ | cmp _ _ _ => true
  | _ => false

mutual

/-- Whether no constructor finds anything to simplify at any depth: a negation is not of what absorbs it,
and a junction has two parts or more, which it keeps as they are. -/
def isReduced : Formula → Bool
  | const _ | sym _ | cmp _ _ _ => true
  | not f => !f.absorbsNegation && f.isReduced
  | all fs => decide (2 ≤ fs.length) && fs.all (isPart true) && areReduced fs
  | any fs => decide (2 ≤ fs.length) && fs.all (isPart false) && areReduced fs
  | xor f g => f.isReduced && g.isReduced

def areReduced : List Formula → Bool
  | [] => true
  | f :: fs => f.isReduced && areReduced fs

end

theorem areReduced_iff {fs : List Formula} : areReduced fs = true ↔ ∀ f ∈ fs, f.isReduced = true := by
  induction fs with
  | nil => simp [areReduced]
  | cons f fs ih => simp [areReduced, ih]

theorem isReduced_junction {unit : Bool} {fs : List Formula} :
    (junction unit fs).isReduced = true ↔
      2 ≤ fs.length ∧ ∀ f ∈ fs, isPart unit f = true ∧ f.isReduced = true := by
  cases unit <;> simp [junction, isReduced, areReduced_iff, and_assoc, forall_and]

theorem isReduced_negate {f : Formula} (h : f.isReduced = true) : f.negate.isReduced = true := by
  cases f with
  | const _ | sym _ | cmp _ _ _ => rfl
  | not f =>
    rw [isReduced, Bool.and_eq_true] at h
    exact h.2
  | all _ | any _ | xor _ _ => simpa [negate, isReduced, absorbsNegation] using h

theorem isReduced_of_mem_joinParts {unit : Bool} {f g : Formula} (h : f.isReduced = true)
    (hg : g ∈ joinParts unit f) : isPart unit g = true ∧ g.isReduced = true := by
  obtain ⟨fs, rfl, hparts⟩ | ⟨rfl, hparts⟩ | ⟨hpart, hparts⟩ := joinParts_cases unit f
  · rw [hparts] at hg
    exact (isReduced_junction.1 h).2 g hg
  · simp [hparts] at hg
  · rw [hparts, List.mem_singleton] at hg
    subst hg
    exact ⟨hpart, h⟩

theorem isReduced_join (unit : Bool) {fs : List Formula} (h : ∀ f ∈ fs, f.isReduced = true) :
    (join unit fs).isReduced = true := by
  have hparts : ∀ g ∈ fs.flatMap (joinParts unit), isPart unit g = true ∧ g.isReduced = true := by
    intro g hg
    obtain ⟨f, hf, hgf⟩ := List.mem_flatMap.1 hg
    exact isReduced_of_mem_joinParts (h f hf) hgf
  obtain ⟨-, hjoin⟩ | ⟨f, hf, hjoin⟩ | ⟨hlen, hjoin⟩ := join_cases unit fs
  · rw [hjoin, isReduced]
  · rw [hjoin]
    exact (hparts f (by simp [hf])).2
  · rw [hjoin]
    exact isReduced_junction.2 ⟨hlen, hparts⟩

mutual

/-- The formula built anew, each of its nodes by the constructor for it. -/
def simplified : Formula → Formula
  | not f => f.simplified.negate
  | all fs => conj (listSimplified fs)
  | any fs => disj (listSimplified fs)
  | xor f g => connect .xor f.simplified g.simplified
  | f => f

def listSimplified : List Formula → List Formula
  | [] => []
  | f :: fs => f.simplified :: listSimplified fs

end

-- By recursion on the formula, with its parts taken together as a junction of either unit.
mutual

theorem eval_simplified (m : Model) : ∀ f : Formula, f.simplified.eval m = f.eval m
  | const _ | sym _ | cmp _ _ _ => rfl
  | not f => by rw [simplified, eval_negate, eval_not, eval_not, eval_simplified m f]
  | all fs => (eval_join m true _).trans (eval_junction_listSimplified m true fs)
  | any fs => (eval_join m false _).trans (eval_junction_listSimplified m false fs)
  | xor f g => by simp only [simplified, connect, eval, eval_simplified m f, eval_simplified m g]

theorem eval_junction_listSimplified (m : Model) (unit : Bool) : ∀ fs : List Formula,
    (junction unit (listSimplified fs)).eval m = (junction unit fs).eval m
  | [] => rfl
  | f :: fs => by
    rw [listSimplified, eval_junction_cons, eval_junction_cons, eval_simplified m f,
      eval_junction_listSimplified m unit fs]

end

mutual

theorem isReduced_simplified : ∀ f : Formula, f.simplified.isReduced = true
  | const _ | sym _ | cmp _ _ _ => rfl
  | not f => isReduced_negate (isReduced_simplified f)
  | all fs => isReduced_join true (isReduced_of_mem_listSimplified fs)
  | any fs => isReduced_join false (isReduced_of_mem_listSimplified fs)
  | xor f g => by
    simp only [simplified, connect, isReduced, isReduced_simplified f, isReduced_simplified g, Bool.and_self]

theorem isReduced_of_mem_listSimplified : ∀ fs : List Formula,
    ∀ f ∈ listSimplified fs, f.isReduced = true
  | [] => by simp [listSimplified]
  | f :: fs => List.forall_mem_cons.2 ⟨isReduced_simplified f, isReduced_of_mem_listSimplified fs⟩

end

/-! ## Main statement -/

/-- In every model the constructors have the value of the plain nodes, or none with them. A connective
has its own value where both operands have one, and a formula is true if and only if its conjuncts are.
Building a formula anew with the constructors keeps its value and leaves nothing to simplify. -/
theorem constructors_exact (m : Model) :
    (∀ fs, (conj fs).eval m = (all fs).eval m) ∧
    (∀ fs, (disj fs).eval m = (any fs).eval m) ∧
    (∀ f : Formula, f.negate.eval m = (not f).eval m) ∧
    (∀ op (f g : Formula) a b, f.eval m = some a → g.eval m = some b →
      (connect op f g).eval m = some (op.apply a b)) ∧
    (∀ f : Formula, f.eval m = some true ↔ ∀ g ∈ f.conjuncts, g.eval m = some true) ∧
    ∀ f : Formula, f.simplified.eval m = f.eval m ∧ f.simplified.isReduced = true :=
  ⟨eval_join m true, eval_join m false, eval_negate m, fun op _ _ _ _ hf hg => eval_connect m op hf hg,
    fun _ => eval_eq_true_iff_conjuncts, fun f => ⟨eval_simplified m f, isReduced_simplified f⟩⟩

-- `s0` has no value, and `s2` has an integer although it also stands as a formula.
theorem constructors_exact_illKinded :
    (conj [const true, all [sym 1, not (sym 2)], const false]).eval
      ⟨#[none, some (.bool true), some (.int 5)]⟩ = none ∧
    (disj [any [cmp .lt (.sym 2) (.const 3), sym 1], sym 0]).eval
      ⟨#[none, some (.bool true), some (.int 5)]⟩ = some true ∧
    (cmp .lt (.sym 2) (.const 3)).eval ⟨#[none, some (.bool true), some (.int 5)]⟩ = some false ∧
    (sym 1).eval ⟨#[none, some (.bool true), some (.int 5)]⟩ = some true ∧
    (connect .xor (cmp .lt (.sym 2) (.const 3)) (sym 1)).eval
      ⟨#[none, some (.bool true), some (.int 5)]⟩ = some true :=
  ⟨((constructors_exact _).1 _).trans (by decide), ((constructors_exact _).2.1 _).trans (by decide),
    by decide, by decide, (constructors_exact _).2.2.2.1 .xor _ _ false true (by decide) (by decide)⟩

end Formula

end Pathwise
