/-!
# Decimal integers

The integer grammar of element and key text: an optional sign, then one or more ASCII
digits, and nothing else. Unsigned readers take only `+` as a sign. A value outside the
reader's range is refused, as are blanks, underscores and an empty digit list.
-/

namespace SparseMatrix.Text

/-- The value of a nonempty list of ASCII digits. -/
def digitsValue? (cs : List Char) : Option Nat :=
  if cs.isEmpty then none
  else cs.foldlM (fun acc c => if c.isDigit then some (acc * 10 + (c.toNat - '0'.toNat)) else none) 0

/-- Reads an unsigned decimal of at most `max`: an optional `+`, then digits. -/
def readNat? (max : Nat) (cs : List Char) : Option Nat :=
  let digits := match cs with
    | '+' :: rest => rest
    | _ => cs
  (digitsValue? digits).bind fun n => if n ≤ max then some n else none

/-- Reads a decimal in `[lo, hi]`: an optional `+`, or `-` when the range has negative
values, then digits. -/
def readInt? (lo hi : Int) (cs : List Char) : Option Int :=
  let (negative, digits) := match cs with
    | '-' :: rest => if lo < 0 then (true, rest) else (false, cs)
    | '+' :: rest => (false, rest)
    | _ => (false, cs)
  (digitsValue? digits).bind fun n =>
    let v : Int := if negative then -(n : Int) else n
    if lo ≤ v ∧ v ≤ hi then some v else none

/-- The largest machine-word size, `2^64 - 1`: sizes and indices never exceed it. -/
def wordMax : Nat := Nat.pow 2 64 - 1

/-- Reads a size or an index. -/
def readSize? (cs : List Char) : Option Nat :=
  readNat? wordMax cs

example : readSize? "+12".toList = some 12 ∧ readSize? "-0".toList = none ∧
    readInt? (-128) 127 "-128".toList = some (-128) ∧ readInt? (-128) 127 "+".toList = none ∧
    readInt? 0 255 "-0".toList = none := by
  decide

end SparseMatrix.Text
