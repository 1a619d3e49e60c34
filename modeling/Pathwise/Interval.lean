import Pathwise.Operator

/-!
Closed intervals of 64-bit integers, and operations on them that contain the results of the arithmetic
operators on their members.

An interval whose lower end exceeds its upper end is empty. Results are computed on exact ends and then
cut to the 64-bit range, since no operator answers a value outside it.
-/

namespace Pathwise

structure Interval where
  lo : Int64
  hi : Int64
  deriving DecidableEq, Repr

namespace Interval

def full : Interval := ⟨Int64.minValue, Int64.maxValue⟩

def empty : Interval := ⟨1, 0⟩

def point (n : Int64) : Interval := ⟨n, n⟩

/-- The values that a truth value takes as a number. -/
def truth : Interval := ⟨0, 1⟩

def nonNegative : Interval := ⟨0, Int64.maxValue⟩

/-- The 64-bit integers between `lo` and `hi`. -/
def ofBounds (lo hi : Int) : Interval :=
  let lo := max lo Int64.minValue.toInt
  let hi := min hi Int64.maxValue.toInt
  if hi < lo then empty else ⟨Int64.ofInt lo, Int64.ofInt hi⟩

def isEmpty (i : Interval) : Bool := i.hi < i.lo

def contains (i : Interval) (n : Int64) : Bool := i.lo ≤ n && n ≤ i.hi

instance : Membership Int64 Interval := ⟨fun i n => i.lo ≤ n ∧ n ≤ i.hi⟩

def point? (i : Interval) : Option Int64 :=
  if i.lo = i.hi then some i.lo else none

/-- The number of members. -/
def size (i : Interval) : Nat := (i.hi.toInt - i.lo.toInt + 1).toNat

/-- The members in increasing order. -/
def toList (i : Interval) : List Int64 :=
  (List.range i.size).map fun (k : Nat) => Int64.ofInt (i.lo.toInt + k)

def intersect (i j : Interval) : Interval :=
  let r : Interval := ⟨max i.lo j.lo, min i.hi j.hi⟩
  if r.isEmpty then empty else r

/-- The smallest interval around both. -/
def hull (i j : Interval) : Interval :=
  if i.isEmpty then j
  else if j.isEmpty then i
  else ⟨min i.lo j.lo, max i.hi j.hi⟩

/-- The interval between the least and the greatest of the values of `f` at the four pairs of ends. -/
def corners (f : Int → Int → Int) (i j : Interval) : Interval :=
  if i.isEmpty || j.isEmpty then empty
  else
    let a := f i.lo.toInt j.lo.toInt
    let b := f i.lo.toInt j.hi.toInt
    let c := f i.hi.toInt j.lo.toInt
    let d := f i.hi.toInt j.hi.toInt
    ofBounds (min (min a b) (min c d)) (max (max a b) (max c d))

def neg (i : Interval) : Interval :=
  if i.isEmpty then empty else ofBounds (-i.hi.toInt) (-i.lo.toInt)

def abs (i : Interval) : Interval :=
  if i.isEmpty then empty
  else if 0 ≤ i.lo then i
  else if i.hi ≤ 0 then i.neg
  else ofBounds 0 (max (-i.lo.toInt) i.hi.toInt)

def add (i j : Interval) : Interval := corners (· + ·) i j

def sub (i j : Interval) : Interval := corners (· - ·) i j

def mul (i j : Interval) : Interval := corners (· * ·) i j

/-- The members below zero. -/
def negatives (i : Interval) : Interval := i.intersect ⟨Int64.minValue, -1⟩

/-- The members above zero. -/
def positives (i : Interval) : Interval := i.intersect ⟨1, Int64.maxValue⟩

/-- Floor division is monotone in each operand while the divisor keeps its sign, so the two signs are
taken apart. -/
def div (i j : Interval) : Interval :=
  (corners Int.fdiv i j.negatives).hull (corners Int.fdiv i j.positives)

/-- A remainder lies between zero and the divisor, without the divisor. -/
def mod (i j : Interval) : Interval :=
  if i.isEmpty then empty
  else
    let below := if j.negatives.isEmpty then empty else ofBounds (j.negatives.lo.toInt + 1) 0
    let above := if j.positives.isEmpty then empty else ofBounds 0 (j.positives.hi.toInt - 1)
    below.hull above

/-- Exact for single values and for the exponent zero, and everything otherwise. -/
def pow (i j : Interval) : Interval :=
  let e := j.intersect nonNegative
  if i.isEmpty || e.isEmpty then empty
  else if e.point? = some 0 then point 1
  else
    match i.point?, e.point? with
    | some a, some b =>
      match power a b with
      | .ok n => point n
      | .error _ => empty
    | _, _ => full

end Interval

def UnaryOp.onIntervals : UnaryOp → Interval → Interval
  | .plus, i => i
  | .neg, i => i.neg
  | .abs, i => i.abs

def ArithOp.onIntervals : ArithOp → Interval → Interval → Interval
  | .add, i, j => i.add j
  | .sub, i, j => i.sub j
  | .mul, i, j => i.mul j
  | .div, i, j => i.div j
  | .mod, i, j => i.mod j
  | .pow, i, j => i.pow j

end Pathwise
