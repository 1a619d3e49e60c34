/-!
Everything that can go wrong while an expression is evaluated or an action is performed.
-/

namespace Pathwise

/-- Why an evaluation stopped. -/
inductive Fault
  | unbound (name : String)
  | notAnInteger (name : String)
  | notABoolean (name : String)
  | divisionByZero
  | negativeExponent
  | overflow
  | inputExhausted (name : String)
  deriving DecidableEq, Repr

def Fault.message : Fault → String
  | .unbound x => s!"unbound variable '{x}'"
  | .notAnInteger x => s!"variable '{x}' is not an integer"
  | .notABoolean x => s!"variable '{x}' is not a boolean"
  | .divisionByZero => "division by zero"
  | .negativeExponent => "negative exponent"
  | .overflow => "integer overflow"
  | .inputExhausted x => s!"no input value left for '{x}'"

end Pathwise
