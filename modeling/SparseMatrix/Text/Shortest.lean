import SparseMatrix.Text.Binary

/-!
# Shortest decimal digits

Of the decimals that read back as a given finite float, `shortest` gives one with the
fewest significant digits, and of those the one nearest to the float's exact value. When
the float lies exactly halfway between the two nearest, a `Tie` rule decides: the even
last digit (the writer of JSON documents) or the larger magnitude (the text of a value
in sheets and on its own).

A decimal reads back as the float when it lies in the float's rounding interval: the
reals between the midpoints to the two neighbouring floats, midpoints included when the
significand is even (ties go to even). The search tries 1, 2, 3, … significant digits:
at `n` digits the decimals are the multiples of `10^(k+1-n)`, where `10^k ≤ v < 10^(k+1)`,
and if one of them lies in the interval then so does one of the two that enclose `v`.
So testing those two suffices, and the first digit count with a hit is the shortest.
-/

namespace SparseMatrix.Text

/-- Which of two equally near shortest decimals is taken. -/
inductive Tie where
  /-- The one with the even last digit. -/
  | even
  /-- The one of larger magnitude. -/
  | up
  deriving DecidableEq, Repr

/-- The decimal `digits · 10^exponent`. -/
structure Decimal where
  digits : Nat
  exponent : Int
  deriving DecidableEq, Repr

namespace Decimal

/-- The same value without trailing zero digits. -/
def normalize (d : Decimal) : Decimal :=
  if h : d.digits ≠ 0 ∧ d.digits % 10 = 0 then
    normalize ⟨d.digits / 10, d.exponent + 1⟩
  else d
termination_by d.digits
decreasing_by exact Nat.div_lt_self (Nat.pos_of_ne_zero h.1) (by decide)

end Decimal

/-- Compares `c · 10^s` with `x · 2^e` exactly. -/
def compareScaled (c : Nat) (s : Int) (x : Nat) (e : Int) : Ordering :=
  compare (c * Nat.pow 10 s.toNat * Nat.pow 2 (-e).toNat) (x * Nat.pow 2 e.toNat * Nat.pow 10 (-s).toNat)

/-- `⌊x · 2^e / 10^s⌋`. -/
def floorScaled (x : Nat) (e s : Int) : Nat :=
  (x * Nat.pow 2 e.toNat * Nat.pow 10 (-s).toNat) / (Nat.pow 2 (-e).toNat * Nat.pow 10 s.toNat)

/-- The `k` with `10^k ≤ m · 2^e < 10^(k+1)`, for `m > 0`: estimated from the bit length
and corrected by at most two steps each way. -/
def decimalExponent (m : Nat) (e : Int) : Int :=
  let bits : Int := (m.log2 : Int) + e
  let k0 : Int := (bits * 30103) / 100000
  let up (k : Int) : Int := if compareScaled 1 (k + 1) m e != .gt then k + 1 else k
  let down (k : Int) : Int := if compareScaled 1 k m e == .gt then k - 1 else k
  down (down (up (up k0)))

/-- The rounding interval of a float `m · 2^e`, in units of `2^(e-2)`: its ends, and
whether they belong to it. -/
structure Interval where
  low : Nat
  high : Nat
  closed : Bool

/-- Whether `c · 10^s` lies in the interval, whose units are `2^e`. -/
def Interval.holds (i : Interval) (e : Int) (c : Nat) (s : Int) : Bool :=
  let lo := compareScaled c s i.low e
  let hi := compareScaled c s i.high e
  (lo == .gt || (lo == .eq && i.closed)) && (hi == .lt || (hi == .eq && i.closed))

/-- The `n`-digit decimal that reads back as the float `v = m · 2^e` (in units `2^(e-2)`,
`v = 4m`), if there is one: of the two multiples of `10^s` that enclose `v`, the one in
the interval, or the nearer if both are (the one `tie` names when they are equally near). -/
def candidate (tie : Tie) (m : Nat) (e : Int) (i : Interval) (k : Int) (n : Nat) :
    Option Decimal :=
  let s : Int := k + 1 - n
  let c := floorScaled (4 * m) (e - 2) s
  let lowIn := i.holds (e - 2) c s
  let highIn := i.holds (e - 2) (c + 1) s
  if lowIn && highIn then
    -- twice the distance from `c · 10^s` against one grid step
    match compareScaled (2 * c + 1) s (8 * m) (e - 2) with
    | .gt => some ⟨c, s⟩
    | .lt => some ⟨c + 1, s⟩
    | .eq =>
      match tie with
      | .even => some (if c % 2 = 0 then ⟨c, s⟩ else ⟨c + 1, s⟩)
      | .up => some ⟨c + 1, s⟩
  else if lowIn then some ⟨c, s⟩
  else if highIn then some ⟨c + 1, s⟩
  else none

/-- The shortest decimal that reads back as the positive float `m · 2^e` of format `f`,
nearest to it among the shortest, `tie` deciding between two equally near; without
trailing zero digits. -/
def shortest (tie : Tie) (f : BinaryFormat) (m : Nat) (e : Int) : Decimal :=
  let closer := m = Nat.pow 2 (f.precision - 1) ∧ e > f.leastExponent
  let i : Interval := ⟨4 * m - (if closer then 1 else 2), 4 * m + 2, m % 2 = 0⟩
  let k := decimalExponent m e
  let found := (List.range 40).findSome? fun n => candidate tie m e i k (n + 1)
  (found.getD ⟨floorScaled m e (k - 39), k - 39⟩).normalize

example : shortest .even .double 1 (-1074) = ⟨5, -324⟩ := by decide +kernel
example : shortest .even .double (Nat.pow 2 52) (-52) = ⟨1, 0⟩ := by decide +kernel
example : shortest .even .single 13421773 (-27) = ⟨1, -1⟩ := by decide +kernel
example : shortest .even .single 11061248 (-18) = ⟨42195312, -6⟩ ∧
    shortest .up .single 11061248 (-18) = ⟨42195313, -6⟩ := by decide +kernel

end SparseMatrix.Text
