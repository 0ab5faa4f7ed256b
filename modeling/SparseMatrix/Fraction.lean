import SparseMatrix.Word

/-!
# Fractions of 64-bit integers

A `Fraction` is a numerator and a denominator, both `Int64`. Arithmetic keeps results in
lowest terms with a positive denominator (`Fraction.new`), and every intermediate step
is a checked 64-bit operation, so a result whose terms do not fit faults with the
message of the first step that overflowed.

A fraction read from a document keeps the terms it was written with: `2/4` and `(-3)/(-6)`
are stored as such. Equality compares the values, so `2/4` equals `1/2`.

`gcd` is the greatest common divisor of the absolute values and faults only when that
divisor is `2^63`; `new` divides out the gcd and moves the sign to the numerator.
-/

namespace SparseMatrix

/-- A fraction of two 64-bit integers. -/
structure Fraction where
  num : Int64
  den : Int64
  deriving DecidableEq, Repr

namespace Fraction

/-- The greatest common divisor of the absolute values, computed binary-wise. It faults
when the divisor is `2^63`, which happens for `gcd 0 (-2^63)` and `gcd (-2^63) (-2^63)`. -/
def gcd (m n : Int64) : Except Fault Int64 :=
  Word.fit .negOverflow (Int.gcd m.toInt n.toInt : Int)

/-- The least common multiple: `|m * (n / gcd m n)|`, every step checked. -/
def lcm (m n : Int64) : Except Fault Int64 := do
  if m.toInt = 0 ∧ n.toInt = 0 then return Word.ofInt 0
  let g ← gcd m n
  let q ← Word.div n g
  let p ← Word.mul m q
  Word.abs p

/-- The fraction `num/den` in lowest terms with a positive denominator. A zero
denominator faults; a zero numerator gives `0/1`; equal terms give `1/1`. -/
def new (num den : Int64) : Except Fault Fraction := do
  if den.toInt = 0 then throw .zeroDenominator
  if num.toInt = 0 then return ⟨Word.ofInt 0, Word.ofInt 1⟩
  if num.toInt = den.toInt then return ⟨Word.ofInt 1, Word.ofInt 1⟩
  let g ← gcd num den
  let n ← Word.div num g
  let d ← Word.div den g
  if d.toInt < 0 then
    let n' ← Word.sub (Word.ofInt 0) n
    let d' ← Word.sub (Word.ofInt 0) d
    return ⟨n', d'⟩
  return ⟨n, d⟩

/-- The integer `n` as a fraction `n/1`. -/
def ofInt64 (n : Int64) : Fraction :=
  ⟨n, Word.ofInt 1⟩

/-- Whether a fraction is a whole number written over one. -/
def isWhole (x : Fraction) : Bool :=
  x.den.toInt = 1

/-- Sum or difference through the common denominator: with equal denominators the
numerators are combined directly, otherwise both are scaled to the least common multiple.
Two whole numbers combine to a whole number: `new n 1` is `n/1` for every `n`, since the
gcd of `n` and one is one. -/
def combine (op : Int64 → Int64 → Except Fault Int64) (a b : Fraction) :
    Except Fault Fraction := do
  if a.isWhole ∧ b.isWhole then
    let n ← op a.num b.num
    return ⟨n, b.den⟩
  if a.den.toInt = b.den.toInt then
    let n ← op a.num b.num
    return ← new n b.den
  let l ← lcm a.den b.den
  let qa ← Word.div l a.den
  let na ← Word.mul a.num qa
  let qb ← Word.div l b.den
  let nb ← Word.mul b.num qb
  let n ← op na nb
  new n l

/-- Checked sum. -/
def add (a b : Fraction) : Except Fault Fraction :=
  combine Word.add a b

/-- Checked difference. -/
def sub (a b : Fraction) : Except Fault Fraction :=
  combine Word.sub a b

/-- Checked product, cancelling across before multiplying:
`(a/b)(c/d) = ((a/g₁)(c/g₂)) / ((b/g₂)(d/g₁))` with `g₁ = gcd a d`, `g₂ = gcd b c`.
For two whole numbers both gcds are one and every division is by one, so the product is
the checked product of the numerators over one. -/
def mul (x y : Fraction) : Except Fault Fraction := do
  if x.isWhole ∧ y.isWhole then
    let n ← Word.mul x.num y.num
    return ⟨n, y.den⟩
  let g1 ← gcd x.num y.den
  let g2 ← gcd x.den y.num
  let n1 ← Word.div x.num g1
  let n2 ← Word.div y.num g2
  let n ← Word.mul n1 n2
  let d1 ← Word.div x.den g2
  let d2 ← Word.div y.den g1
  let d ← Word.mul d1 d2
  new n d

/-- Checked quotient, cancelling across before multiplying:
`(a/b)/(c/d) = ((a/g₁)(d/g₂)) / ((b/g₂)(c/g₁))` with `g₁ = gcd a c`, `g₂ = gcd b d`.
Dividing by zero faults. -/
def div (x y : Fraction) : Except Fault Fraction := do
  let g1 ← gcd x.num y.num
  let g2 ← gcd x.den y.den
  let n1 ← Word.div x.num g1
  let n2 ← Word.div y.den g2
  let n ← Word.mul n1 n2
  let d1 ← Word.div x.den g2
  let d2 ← Word.div y.num g1
  let d ← Word.mul d1 d2
  new n d

/-- Whether two fractions have the same value. -/
def sameValue (x y : Fraction) : Bool :=
  x.num.toInt * y.den.toInt == y.num.toInt * x.den.toInt

end Fraction

instance : Arith Fraction where
  zero := Fraction.ofInt64 (Word.ofInt 0)
  one := Fraction.ofInt64 (Word.ofInt 1)
  add := Fraction.add
  sub := Fraction.sub
  mul := Fraction.mul
  div := Fraction.div
  eq := Fraction.sameValue

end SparseMatrix
