import SparseMatrix.Arith

/-!
# Fixed-width integers

A `Word` is an integer type with a range: `Int64`, `Int32`, `UInt64` and `UInt8`. Its
checked operations compute the exact result in `Int` and keep it only when it lies in
the range; otherwise they fault. Division goes toward zero, and a zero divisor is
reported before an overflowing quotient.
-/

namespace SparseMatrix

/-- An integer type with the range `[lo, hi]`, read through `toInt` and built by `ofInt`. -/
class Word (α : Type) where
  lo : Int
  hi : Int
  toInt : α → Int
  ofInt : Int → α

namespace Word

variable {α : Type} [Word α]

/-- Whether an integer lies in the range of the word type. -/
def fits (α : Type) [Word α] (x : Int) : Bool :=
  decide (lo α ≤ x ∧ x ≤ hi α)

/-- The word holding `x`, or the fault `f` when `x` is out of range. -/
def fit (f : Fault) (x : Int) : Except Fault α :=
  if fits α x then pure (ofInt x) else .error f

/-- Checked sum. -/
def add (a b : α) : Except Fault α :=
  fit .addOverflow (toInt a + toInt b)

/-- Checked difference. -/
def sub (a b : α) : Except Fault α :=
  fit .subOverflow (toInt a - toInt b)

/-- Checked product. -/
def mul (a b : α) : Except Fault α :=
  fit .mulOverflow (toInt a * toInt b)

/-- Checked quotient, rounded toward zero. -/
def div (a b : α) : Except Fault α :=
  if toInt b = 0 then .error .divByZero else fit .divOverflow ((toInt a).tdiv (toInt b))

/-- Checked remainder of the quotient rounded toward zero: it faults where `div` does. -/
def rem (a b : α) : Except Fault α :=
  if toInt b = 0 then .error .remByZero
  else if fits α ((toInt a).tdiv (toInt b)) then fit .remOverflow ((toInt a).tmod (toInt b))
  else .error .remOverflow

/-- Checked negation. -/
def neg (a : α) : Except Fault α :=
  fit .negOverflow (-toInt a)

/-- Checked absolute value. -/
def abs (a : α) : Except Fault α :=
  if toInt a < 0 then neg a else pure a

end Word

instance : Word Int64 where
  lo := -(Nat.pow 2 63 : Int)
  hi := Nat.pow 2 63 - 1
  toInt := Int64.toInt
  ofInt := Int64.ofInt

instance : Word Int32 where
  lo := -(Nat.pow 2 31 : Int)
  hi := Nat.pow 2 31 - 1
  toInt := Int32.toInt
  ofInt := Int32.ofInt

instance : Word UInt64 where
  lo := 0
  hi := Nat.pow 2 64 - 1
  toInt x := x.toNat
  ofInt x := UInt64.ofNat x.toNat

instance : Word UInt8 where
  lo := 0
  hi := Nat.pow 2 8 - 1
  toInt x := x.toNat
  ofInt x := UInt8.ofNat x.toNat

/-- The checked arithmetic of a word type. -/
@[reducible] def Word.arith (α : Type) [Word α] : Arith α where
  zero := Word.ofInt 0
  one := Word.ofInt 1
  add := Word.add
  sub := Word.sub
  mul := Word.mul
  div := Word.div
  eq a b := Word.toInt a == Word.toInt b

instance : Arith Int64 := Word.arith Int64
instance : Arith Int32 := Word.arith Int32
instance : Arith UInt64 := Word.arith UInt64
instance : Arith UInt8 := Word.arith UInt8

end SparseMatrix
