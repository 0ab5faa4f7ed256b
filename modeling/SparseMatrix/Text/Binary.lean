/-!
# Binary floating-point formats

A `BinaryFormat` is an IEEE 754 interchange format, given by its significand precision
(the hidden bit included) and its exponent width. `decode` splits a bit pattern into
NaN, an infinity, or a finite value `(-1)^s · m · 2^e`; `round` gives the bit pattern of
the value nearest to a nonnegative rational, ties to the even significand, going to
infinity past the largest finite value.

Both work in exact `Nat` arithmetic, so they are the same for every value and need no
floating-point operation.
-/

namespace SparseMatrix.Text

/-- An IEEE 754 binary interchange format. -/
structure BinaryFormat where
  /-- Significand bits, the hidden bit included. -/
  precision : Nat
  /-- Bits of the biased exponent. -/
  exponentBits : Nat
  deriving DecidableEq, Repr

namespace BinaryFormat

/-- Binary64. -/
def double : BinaryFormat := ⟨53, 11⟩

/-- Binary32. -/
def single : BinaryFormat := ⟨24, 8⟩

/-- The exponent bias. -/
def bias (f : BinaryFormat) : Nat :=
  Nat.pow 2 (f.exponentBits - 1) - 1

/-- The biased exponent of infinities and NaNs. -/
def topExponent (f : BinaryFormat) : Nat :=
  Nat.pow 2 f.exponentBits - 1

/-- The exponent of the unit in the last place of subnormals: `2^leastExponent` is the
least positive value. -/
def leastExponent (f : BinaryFormat) : Int :=
  1 - (f.bias : Int) - (f.precision - 1 : Nat)

/-- The width of a bit pattern. -/
def width (f : BinaryFormat) : Nat :=
  f.precision + f.exponentBits

end BinaryFormat

/-- A decoded floating-point value. -/
inductive Binary where
  | nan
  | infinite (negative : Bool)
  /-- The value `(-1)^negative · significand · 2^exponent`. -/
  | finite (negative : Bool) (significand : Nat) (exponent : Int)
  deriving DecidableEq, Repr

namespace BinaryFormat

/-- The value a bit pattern of the format stands for. -/
def decode (f : BinaryFormat) (bits : Nat) : Binary :=
  let fractionBits := f.precision - 1
  let fraction := bits % Nat.pow 2 fractionBits
  let biased := (bits / Nat.pow 2 fractionBits) % Nat.pow 2 f.exponentBits
  let negative := (bits / Nat.pow 2 (f.width - 1)) % 2 = 1
  if biased = f.topExponent then
    if fraction = 0 then .infinite negative else .nan
  else if biased = 0 then
    .finite negative fraction f.leastExponent
  else
    .finite negative (fraction + Nat.pow 2 fractionBits) (f.leastExponent + (biased - 1 : Nat))

/-- The bit pattern of a signed zero. -/
def zeroBits (f : BinaryFormat) (negative : Bool) : Nat :=
  if negative then Nat.pow 2 (f.width - 1) else 0

/-- The bit pattern of a signed infinity. -/
def infinityBits (f : BinaryFormat) (negative : Bool) : Nat :=
  f.zeroBits negative + f.topExponent * Nat.pow 2 (f.precision - 1)

/-- `num / (den · 2^e)` as a quotient and a remainder over the divisor, in `Nat`. -/
def scaled (num den : Nat) (e : Int) : Nat × Nat × Nat :=
  let n := num * Nat.pow 2 (-e).toNat
  let d := den * Nat.pow 2 e.toNat
  (n / d, n % d, d)

/-- The exponent `e` with `2^(p-1) ≤ num / (den · 2^e) < 2^p`, found from the bit lengths
and corrected by at most two steps each way. -/
def normalExponent (p num den : Nat) : Int :=
  let e0 : Int := (num.log2 : Int) - (den.log2 : Int) - (p - 1 : Nat)
  let up (e : Int) : Int := if (scaled num den e).1 ≥ Nat.pow 2 p then e + 1 else e
  let down (e : Int) : Int := if (scaled num den e).1 < Nat.pow 2 (p - 1) then e - 1 else e
  down (down (up (up e0)))

/-- The bit pattern of the value nearest to `num / den` (with sign `negative`), ties to
the even significand; values past the largest finite one become infinite. -/
def round (f : BinaryFormat) (negative : Bool) (num den : Nat) : Nat :=
  if num = 0 ∨ den = 0 then f.zeroBits negative
  else
    let p := f.precision
    let e := max (normalExponent p num den) f.leastExponent
    let (q, r, d) := scaled num den e
    let up := 2 * r > d ∨ (2 * r = d ∧ q % 2 = 1)
    let q := if up then q + 1 else q
    let (q, e) := if q = Nat.pow 2 p then (Nat.pow 2 (p - 1), e + 1) else (q, e)
    if q < Nat.pow 2 (p - 1) then f.zeroBits negative + q
    else
      let biased := (e - f.leastExponent).toNat + 1
      if biased ≥ f.topExponent then f.infinityBits negative
      else f.zeroBits negative + biased * Nat.pow 2 (p - 1) + (q - Nat.pow 2 (p - 1))

example : double.round false 1 10 = 0x3FB999999999999A := by decide
example : single.round false 1 10 = 0x3DCCCCCD := by decide
example : double.decode 0x3FF0000000000000 = .finite false (Nat.pow 2 52) (-52) := by decide

end BinaryFormat

end SparseMatrix.Text
