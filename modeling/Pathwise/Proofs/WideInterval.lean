import Mathlib.Algebra.Order.Ring.Int
import Pathwise.Proofs.Interval

/-!
Operations on intervals in 128-bit arithmetic.

The ends of a result are computed on exact integers before they are cut to 64 bits. Two operands of 64
bits leave so much room in 128 bits that no step on the way leaves these: computed with a check after
each step, every operation comes to the same interval and no check fails (`onIntervalsWide?_eq`). The
quotients are those of Euclidean division, corrected for negative divisors.
-/

namespace Pathwise

/-! ## Checked steps -/

/-- The integer `x`, if 128 bits hold it. -/
def wide? (x : Int) : Option Int :=
  if -2 ^ 127 ≤ x ∧ x < 2 ^ 127 then some x else none

theorem wide?_eq_some {x : Int} (h : x.natAbs ≤ 2 ^ 126) : wide? x = some x := by
  unfold wide?
  rw [if_pos (by omega)]

/-- Floor division by way of the division that leaves a remainder of at least zero. -/
def floorDivWide? (x y : Int) : Option Int :=
  if y = 0 then none
  else do
    let q ← wide? (x / y)
    let r ← wide? (x % y)
    if y < 0 ∧ r ≠ 0 then wide? (q - 1) else some q

namespace Interval

/-- The corners of an operation that may fail. -/
def corners? (f : Int → Int → Option Int) (i j : Interval) : Option Interval :=
  if i.isEmpty || j.isEmpty then some empty
  else do
    let a ← f i.lo.toInt j.lo.toInt
    let b ← f i.lo.toInt j.hi.toInt
    let c ← f i.hi.toInt j.lo.toInt
    let d ← f i.hi.toInt j.hi.toInt
    return ofBounds (min (min a b) (min c d)) (max (max a b) (max c d))

def negWide? (i : Interval) : Option Interval :=
  if i.isEmpty then some empty
  else do
    let lo ← wide? (-i.hi.toInt)
    let hi ← wide? (-i.lo.toInt)
    return ofBounds lo hi

def absWide? (i : Interval) : Option Interval :=
  if i.isEmpty then some empty
  else if 0 ≤ i.lo then some i
  else if i.hi ≤ 0 then i.negWide?
  else do
    let top ← wide? (-i.lo.toInt)
    return ofBounds 0 (max top i.hi.toInt)

def divWide? (i j : Interval) : Option Interval := do
  let below ← corners? floorDivWide? i j.negatives
  let above ← corners? floorDivWide? i j.positives
  return below.hull above

def modWide? (i j : Interval) : Option Interval :=
  if i.isEmpty then some empty
  else do
    let below ← if j.negatives.isEmpty then some empty
      else (wide? (j.negatives.lo.toInt + 1)).map (ofBounds · 0)
    let above ← if j.positives.isEmpty then some empty
      else (wide? (j.positives.hi.toInt - 1)).map (ofBounds 0 ·)
    return below.hull above

end Interval

def UnaryOp.onIntervalsWide? : UnaryOp → Interval → Option Interval
  | .plus, i => some i
  | .neg, i => i.negWide?
  | .abs, i => i.absWide?

/-- Powers of intervals need no arithmetic on their ends. -/
def ArithOp.onIntervalsWide? : ArithOp → Interval → Interval → Option Interval
  | .add, i, j => Interval.corners? (fun x y => wide? (x + y)) i j
  | .sub, i, j => Interval.corners? (fun x y => wide? (x - y)) i j
  | .mul, i, j => Interval.corners? (fun x y => wide? (x * y)) i j
  | .div, i, j => i.divWide? j
  | .mod, i, j => i.modWide? j
  | .pow, i, j => some (i.pow j)

/-! ## No check fails -/

theorem natAbs_toInt_le (a : Int64) : a.toInt.natAbs ≤ 2 ^ 63 := by
  have h := toInt_bounds a
  omega

theorem wide?_add (a b : Int64) : wide? (a.toInt + b.toInt) = some (a.toInt + b.toInt) := by
  have ha := natAbs_toInt_le a
  have hb := natAbs_toInt_le b
  exact wide?_eq_some (by omega)

theorem wide?_sub (a b : Int64) : wide? (a.toInt - b.toInt) = some (a.toInt - b.toInt) := by
  have ha := natAbs_toInt_le a
  have hb := natAbs_toInt_le b
  exact wide?_eq_some (by omega)

theorem wide?_mul (a b : Int64) : wide? (a.toInt * b.toInt) = some (a.toInt * b.toInt) := by
  refine wide?_eq_some ?_
  calc
    (a.toInt * b.toInt).natAbs = a.toInt.natAbs * b.toInt.natAbs := Int.natAbs_mul ..
    _ ≤ 2 ^ 63 * 2 ^ 63 := Nat.mul_le_mul (natAbs_toInt_le a) (natAbs_toInt_le b)
    _ = 2 ^ 126 := by decide

/-- Correcting the Euclidean quotient by a negative divisor rounds it down. -/
theorem floorDivWide?_eq (a : Int64) {b : Int64} (hb : b.toInt ≠ 0) :
    floorDivWide? a.toInt b.toInt = some (a.toInt.fdiv b.toInt) := by
  have ha' := natAbs_toInt_le a
  have hb' := natAbs_toInt_le b
  have hq := Int.natAbs_ediv_le_natAbs a.toInt b.toInt
  have hr := Int.emod_nonneg a.toInt hb
  have hr' := Int.emod_lt a.toInt hb
  unfold floorDivWide?
  rw [if_neg hb, wide?_eq_some (by omega), wide?_eq_some (by omega)]
  simp only [Option.bind_eq_bind, Option.bind_some]
  rw [Int.fdiv_eq_ediv]
  simp only [Int.dvd_iff_emod_eq_zero]
  split
  next hcorrect => rw [wide?_eq_some (by omega), if_neg (by omega)]
  next hcorrect => rw [if_pos (by omega), Int.sub_zero]

namespace Interval

variable {i j : Interval} {a b : Int64}

theorem ends_mem (h : ¬ i.isEmpty = true) : i.lo ∈ i ∧ i.hi ∈ i := by
  have hle : i.lo.toInt ≤ i.hi.toInt := by
    simp only [isEmpty, decide_eq_true_eq, Int64.lt_iff_toInt_lt] at h
    omega
  exact ⟨mem_iff.2 ⟨Int.le_refl _, hle⟩, mem_iff.2 ⟨hle, Int.le_refl _⟩⟩

/-- A member of an intersection is a member of the second interval. -/
theorem mem_of_mem_intersect (h : a ∈ i.intersect j) : a ∈ j := by
  unfold intersect at h
  simp only at h
  split at h
  · exact absurd (isEmpty_of_mem h) (by decide)
  · rw [mem_iff] at h ⊢
    simp only [toInt_max, toInt_min] at h
    omega

theorem toInt_ne_zero_of_mem_negatives (h : b ∈ j.negatives) : b.toInt ≠ 0 := by
  have h := (mem_iff.1 (mem_of_mem_intersect h)).2
  have hend : (-1 : Int64).toInt = -1 := rfl
  simp only [hend] at h
  omega

theorem toInt_ne_zero_of_mem_positives (h : b ∈ j.positives) : b.toInt ≠ 0 := by
  have h := (mem_iff.1 (mem_of_mem_intersect h)).1
  have hend : (1 : Int64).toInt = 1 := rfl
  simp only [hend] at h
  omega

/-- Corners are met without a failure if the operation does not fail on members of the second operand. -/
theorem corners?_eq {f? : Int → Int → Option Int} {f : Int → Int → Int}
    (h : ∀ a b : Int64, b ∈ j → f? a.toInt b.toInt = some (f a.toInt b.toInt)) :
    corners? f? i j = some (corners f i j) := by
  unfold corners? corners
  split
  · rfl
  next hne =>
    obtain ⟨hlo, hhi⟩ := @ends_mem j (fun hj => hne (by simp [hj]))
    rw [h i.lo j.lo hlo, h i.lo j.hi hhi, h i.hi j.lo hlo, h i.hi j.hi hhi]
    rfl

theorem negWide?_eq (i : Interval) : i.negWide? = some i.neg := by
  have hlo := natAbs_toInt_le i.lo
  have hhi := natAbs_toInt_le i.hi
  unfold negWide? neg
  split
  · rfl
  · rw [wide?_eq_some (by omega), wide?_eq_some (by omega)]
    rfl

theorem absWide?_eq (i : Interval) : i.absWide? = some i.abs := by
  have hlo := natAbs_toInt_le i.lo
  unfold absWide? abs
  split
  · rfl
  split
  · rfl
  split
  · exact negWide?_eq i
  · rw [wide?_eq_some (by omega)]
    rfl

theorem divWide?_eq (i j : Interval) : i.divWide? j = some (i.div j) := by
  unfold divWide? div
  rw [corners?_eq fun a b hb => floorDivWide?_eq a (toInt_ne_zero_of_mem_negatives hb),
    corners?_eq fun a b hb => floorDivWide?_eq a (toInt_ne_zero_of_mem_positives hb)]
  rfl

theorem modWide?_eq (i j : Interval) : i.modWide? j = some (i.mod j) := by
  have hlo := natAbs_toInt_le j.negatives.lo
  have hhi := natAbs_toInt_le j.positives.hi
  unfold modWide? mod
  rw [wide?_eq_some (x := j.negatives.lo.toInt + 1) (by omega),
    wide?_eq_some (x := j.positives.hi.toInt - 1) (by omega)]
  split
  · rfl
  · cases j.negatives.isEmpty <;> cases j.positives.isEmpty <;> rfl

end Interval

theorem UnaryOp.onIntervalsWide?_eq (op : UnaryOp) (i : Interval) :
    op.onIntervalsWide? i = some (op.onIntervals i) := by
  cases op with
  | plus => rfl
  | neg => exact Interval.negWide?_eq i
  | abs => exact Interval.absWide?_eq i

theorem ArithOp.onIntervalsWide?_eq (op : ArithOp) (i j : Interval) :
    op.onIntervalsWide? i j = some (op.onIntervals i j) := by
  cases op with
  | add =>
    simp only [onIntervalsWide?, onIntervals, Interval.add]
    exact Interval.corners?_eq fun a b _ => wide?_add a b
  | sub =>
    simp only [onIntervalsWide?, onIntervals, Interval.sub]
    exact Interval.corners?_eq fun a b _ => wide?_sub a b
  | mul =>
    simp only [onIntervalsWide?, onIntervals, Interval.mul]
    exact Interval.corners?_eq fun a b _ => wide?_mul a b
  | div => exact Interval.divWide?_eq i j
  | mod => exact Interval.modWide?_eq i j
  | pow => rfl

/-- On all intervals, empty ones and those that touch the ends of the range among them, an operation
contains what the operator answers on members, and its steps stay within 128 bits. -/
theorem onIntervals_encloses (i j : Interval) :
    (∀ op : UnaryOp, op.onIntervalsWide? i = some (op.onIntervals i) ∧
      ∀ a c, a ∈ i → op.apply a = .ok c → c ∈ op.onIntervals i) ∧
    (∀ op : ArithOp, op.onIntervalsWide? i j = some (op.onIntervals i j) ∧
      ∀ a b c, a ∈ i → b ∈ j → op.apply a b = .ok c → c ∈ op.onIntervals i j) := by
  refine ⟨fun op => ⟨op.onIntervalsWide?_eq i, fun a c ha h => ?_⟩,
    fun op => ⟨op.onIntervalsWide?_eq i j, fun a b c ha hb h => ?_⟩⟩
  · exact UnaryOp.mem_onIntervals ha h
  · exact ArithOp.mem_onIntervals ha hb h

end Pathwise
