import SparseMatrix.Fault

/-!
# Checked element arithmetic

`Arith α` is what the matrix algorithms need of an element: zero, one, the four operations
and the element's own equality. Each operation either returns its value or the `Fault`
that stops the computation, so an algorithm written over `Arith` runs the same on
fixed-width words, on 64-bit fractions and on floats, and a proof can run it on `Int`,
where nothing ever faults.

Equality is the element's own: two floats that are NaN are not equal, and `0.0 == -0.0`.
A value is zero when it equals `zero` in this sense (`Arith.isZero`).
-/

namespace SparseMatrix

/-- Checked arithmetic of a matrix element. -/
class Arith (α : Type) where
  zero : α
  one : α
  add : α → α → Except Fault α
  sub : α → α → Except Fault α
  mul : α → α → Except Fault α
  div : α → α → Except Fault α
  /-- The element's own equality. -/
  eq : α → α → Bool

namespace Arith

variable {α : Type} [Arith α]

/-- Whether a value equals zero in the element's own equality. -/
def isZero (v : α) : Bool :=
  eq v zero

/-- `v` times `(-1)^k`, written as a subtraction from zero so that it needs no negation. -/
def signed (v : α) (k : Nat) : Except Fault α :=
  if k % 2 = 0 then pure v else sub zero v

/-- Sums a list from zero, left to right. -/
def sum (xs : List α) : Except Fault α :=
  xs.foldlM add zero

theorem signed_even (v : α) {k : Nat} (h : k % 2 = 0) : signed v k = pure v := by
  simp [signed, h]

theorem signed_odd (v : α) {k : Nat} (h : k % 2 = 1) : signed v k = sub zero v := by
  simp [signed, h]

end Arith

/-- Exact integers: nothing overflows, and division goes toward zero. -/
instance : Arith Int where
  zero := 0
  one := 1
  add a b := pure (a + b)
  sub a b := pure (a - b)
  mul a b := pure (a * b)
  div a b := if b = 0 then .error .divByZero else pure (a.tdiv b)
  eq a b := a == b

/-- Exact rationals: nothing overflows, and only a zero divisor faults. -/
instance : Arith Rat where
  zero := 0
  one := 1
  add a b := pure (a + b)
  sub a b := pure (a - b)
  mul a b := pure (a * b)
  div a b := if b = 0 then .error .zeroDenominator else pure (a / b)
  eq a b := a == b

/-!
## Floating-point elements

Binary64 (`Float`) and binary32 (`Float32`) elements use the IEEE operations of their own
precision and never fault: an overflow gives an infinity, `0 / 0` gives NaN. Equality is
IEEE equality, so NaN differs from itself and `-0.0` equals `0.0`.
-/

instance : Arith Float where
  zero := 0
  one := 1
  add a b := pure (a + b)
  sub a b := pure (a - b)
  mul a b := pure (a * b)
  div a b := pure (a / b)
  eq a b := a == b

instance : Arith Float32 where
  zero := 0
  one := 1
  add a b := pure (a + b)
  sub a b := pure (a - b)
  mul a b := pure (a * b)
  div a b := pure (a / b)
  eq a b := a == b

end SparseMatrix
