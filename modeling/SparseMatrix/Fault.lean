/-!
# Arithmetic faults

Element arithmetic is checked: an operation whose exact result does not fit the element
type, or that divides by zero, does not return a value. It stops the whole computation
with a `Fault`, and the fault's message names the first primitive operation that failed.
A buffer too large for the address space is a fault too (`capacityOverflow`).

A fault is not a library error. A library error is an answer that a caller can inspect;
a fault ends the request, even when it happens in a later chunk of a loop whose earlier
chunk already failed with an error (`Failure` below, and `Range.tryMap`).
-/

namespace SparseMatrix

/-- The primitive operation that could not produce a value. -/
inductive Fault where
  | addOverflow
  | subOverflow
  | mulOverflow
  | divOverflow
  | divByZero
  | remOverflow
  | remByZero
  | negOverflow
  | zeroDenominator
  | capacityOverflow
  deriving DecidableEq, Repr

namespace Fault

/-- The text that reports the fault. -/
def message : Fault → String
  | .addOverflow => "attempt to add with overflow"
  | .subOverflow => "attempt to subtract with overflow"
  | .mulOverflow => "attempt to multiply with overflow"
  | .divOverflow => "attempt to divide with overflow"
  | .divByZero => "attempt to divide by zero"
  | .remOverflow => "attempt to calculate the remainder with overflow"
  | .remByZero => "attempt to calculate the remainder with a divisor of zero"
  | .negOverflow => "attempt to negate with overflow"
  | .zeroDenominator => "denominator == 0"
  | .capacityOverflow => "capacity overflow"

end Fault

end SparseMatrix
