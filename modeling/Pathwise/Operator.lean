import Pathwise.Fault

/-!
Operators of the expression language and their meaning on 64-bit integers.

Arithmetic is exact: an operator answers the mathematical result when a 64-bit integer equals it, and
faults with `overflow` when none does. Division rounds toward negative infinity, and the remainder has
the sign of the divisor.
-/

namespace Pathwise

/-- The 64-bit integer equal to `r`, when there is one. -/
def fit? (r : Int) : Option Int64 :=
  if -9223372036854775808 ≤ r ∧ r ≤ 9223372036854775807 then some (Int64.ofInt r) else none

/-- The 64-bit integer equal to `r`, or an overflow. -/
def fit (r : Int) : Except Fault Int64 :=
  match fit? r with
  | some n => .ok n
  | none => .error .overflow

def floorDiv (a b : Int64) : Except Fault Int64 :=
  if b = 0 then .error .divisionByZero else fit (a.toInt.fdiv b.toInt)

def floorMod (a b : Int64) : Except Fault Int64 :=
  if b = 0 then .error .divisionByZero else fit (a.toInt.fmod b.toInt)

/-- Powers with a non-negative exponent. A base other than `0`, `1` and `-1` leaves the range by its
64th power, so larger exponents are settled without computing the power. -/
def power (a b : Int64) : Except Fault Int64 :=
  if b < 0 then .error .negativeExponent
  else if a = 0 then .ok (if b = 0 then 1 else 0)
  else if a = 1 then .ok 1
  else if a = -1 then .ok (if b.toInt % 2 = 0 then 1 else -1)
  else if 64 ≤ b.toInt then .error .overflow
  else fit (Int.pow a.toInt b.toInt.toNat)

inductive UnaryOp
  | plus
  | neg
  | abs
  deriving DecidableEq, Repr

namespace UnaryOp

def symbol : UnaryOp → String
  | plus => "+"
  | neg => "-"
  | abs => "."

def ofSymbol? : String → Option UnaryOp
  | "+" => some plus
  | "-" => some neg
  | "." => some abs
  | _ => none

def apply : UnaryOp → Int64 → Except Fault Int64
  | plus, a => .ok a
  | neg, a => fit (-a.toInt)
  | abs, a => fit a.toInt.natAbs

end UnaryOp

inductive ArithOp
  | add
  | sub
  | mul
  | div
  | mod
  | pow
  deriving DecidableEq, Repr

namespace ArithOp

def symbol : ArithOp → String
  | add => "+"
  | sub => "-"
  | mul => "*"
  | div => "/"
  | mod => "%"
  | pow => "**"

def ofSymbol? : String → Option ArithOp
  | "+" => some add
  | "-" => some sub
  | "*" => some mul
  | "/" => some div
  | "%" => some mod
  | "**" => some pow
  | _ => none

def apply : ArithOp → Int64 → Int64 → Except Fault Int64
  | add, a, b => fit (a.toInt + b.toInt)
  | sub, a, b => fit (a.toInt - b.toInt)
  | mul, a, b => fit (a.toInt * b.toInt)
  | div, a, b => floorDiv a b
  | mod, a, b => floorMod a b
  | pow, a, b => power a b

end ArithOp

inductive CmpOp
  | eq
  | ne
  | lt
  | le
  | gt
  | ge
  deriving DecidableEq, Repr

namespace CmpOp

def symbol : CmpOp → String
  | eq => "=="
  | ne => "!="
  | lt => "<"
  | le => "<="
  | gt => ">"
  | ge => ">="

def ofSymbol? : String → Option CmpOp
  | "==" => some eq
  | "!=" => some ne
  | "<" => some lt
  | "<=" => some le
  | ">" => some gt
  | ">=" => some ge
  | _ => none

def holds : CmpOp → Int64 → Int64 → Bool
  | eq, a, b => a == b
  | ne, a, b => a != b
  | lt, a, b => a < b
  | le, a, b => a ≤ b
  | gt, a, b => b < a
  | ge, a, b => b ≤ a

/-- The comparison that holds exactly when this one does not. -/
def negate : CmpOp → CmpOp
  | eq => ne
  | ne => eq
  | lt => ge
  | le => gt
  | gt => le
  | ge => lt

/-- The comparison with its operands exchanged. -/
def flip : CmpOp → CmpOp
  | eq => eq
  | ne => ne
  | lt => gt
  | le => ge
  | gt => lt
  | ge => le

end CmpOp

inductive LogicOp
  | and
  | or
  | xor
  deriving DecidableEq, Repr

namespace LogicOp

def symbol : LogicOp → String
  | and => "&&"
  | or => "||"
  | xor => "^"

def ofSymbol? : String → Option LogicOp
  | "&&" => some and
  | "||" => some or
  | "^" => some xor
  | _ => none

def apply : LogicOp → Bool → Bool → Bool
  | and, a, b => a && b
  | or, a, b => a || b
  | xor, a, b => a != b

end LogicOp

end Pathwise
