/-!
Decimal text of floating-point numbers with a fixed number of places, from their exact binary value.
-/

namespace Pathwise.Decimal

/-- The natural number nearest to `num / den`, the even one of two that are equally near. -/
def roundDiv (num den : Nat) : Nat :=
  let q := num / den
  let r := num % den
  if 2 * r < den then q
  else if den < 2 * r then q + 1
  else q + q % 2

/-- A finite number without its sign, as a fraction. -/
def fraction (x : Float) : Nat × Nat :=
  let bits := x.toBits.toNat
  let exponent := bits / 4503599627370496 % 2048
  let digits := bits % 4503599627370496
  if exponent = 0 then (digits, Nat.shiftLeft 1 1074)
  else
    let digits := digits + 4503599627370496
    if exponent < 1075 then (digits, Nat.shiftLeft 1 (1075 - exponent))
    else (Nat.shiftLeft digits (exponent - 1075), 1)

/-- A finite number that is not negative, with one decimal place; a tie goes to the even digit. -/
def tenths (x : Float) : String :=
  let (num, den) := fraction x
  let n := roundDiv (num * 10) den
  toString (n / 10) ++ "." ++ toString (n % 10)

end Pathwise.Decimal
