import SparseMatrix.Fault
import SparseMatrix.Text.Integer

/-!
# Sizes and buffers

A buffer holds values side by side and spans at most `bufferLimit` bytes, the largest
signed machine word. A value of type `α` takes `Width.bytes α` of them, so a buffer of
`count` values that would span more cannot be laid out: asking for it faults with
`capacityOverflow` (`fitsBuffer`). The check is on the size asked for, before any value
is computed.

Values that take no bytes fit any number of times (`fitsBuffer_zero`): a loop that keeps
no results, and the exact numbers that proofs run the algorithms on, never meet the limit.
The answers of a loop's chunks are kept too, `partialBytes` each, whatever the results.

Sizes and indices are machine words, with checked operations (`Size`).
-/

namespace SparseMatrix

/-!
## Sizes

Sizes and indices are machine words: natural numbers up to `2^64 - 1`. Their checked
operations fault when the exact result leaves that range, as element words do.
-/

namespace Size

/-- The size `n`, or the fault `f` when it exceeds the largest word. -/
def fit (f : Fault) (n : Nat) : Except Fault Nat :=
  if n ≤ Text.wordMax then pure n else .error f

/-- Checked sum of sizes. -/
def add (a b : Nat) : Except Fault Nat :=
  fit .addOverflow (a + b)

/-- Checked product of sizes. -/
def mul (a b : Nat) : Except Fault Nat :=
  fit .mulOverflow (a * b)

/-- Checked difference of sizes: it faults below zero. -/
def sub (a b : Nat) : Except Fault Nat :=
  if b ≤ a then pure (a - b) else .error .subOverflow

/-- Checked quotient of sizes: it faults on a zero divisor. -/
def div (a b : Nat) : Except Fault Nat :=
  if b = 0 then .error .divByZero else pure (a / b)

/-- Checked remainder of sizes: it faults on a zero divisor. -/
def rem (a b : Nat) : Except Fault Nat :=
  if b = 0 then .error .remByZero else pure (a % b)

end Size

/-! ## Buffers -/

/-- The bytes one value of a type takes in a buffer. -/
class Width (α : Type) where
  bytes : Nat

/-- The most bytes a buffer can span: the largest signed machine word, `2^63 - 1`. -/
def bufferLimit : Nat := Nat.pow 2 63 - 1

/-- Checks that `count` values of `width` bytes each fit in one buffer. -/
def fitsBuffer (width count : Nat) : Except Fault Unit :=
  if count * width ≤ bufferLimit then pure () else .error .capacityOverflow

theorem fitsBuffer_zero (count : Nat) : fitsBuffer 0 count = pure () := by
  simp [fitsBuffer]

theorem fitsBuffer_of_le {width count : Nat} (h : count * width ≤ bufferLimit) :
    fitsBuffer width count = pure () := by
  simp [fitsBuffer, h]

/-- The bytes a vector takes as an entry of another buffer: its address, capacity and
length, one machine word each. -/
def vectorBytes : Nat := 24

/-- The bytes one chunk's answer takes in the buffer of partial answers of a loop: a vector
of results or an error, whichever is larger. The largest error carries a cell's row and
column and a text, five machine words, and the answer's tag fits in the spare values of
the text's capacity. -/
def partialBytes : Nat := 40

/-- Exact integers are a model, not a machine layout: they take no buffer space. -/
instance : Width Int := ⟨0⟩

/-- Exact rationals are a model, not a machine layout: they take no buffer space. -/
instance : Width Rat := ⟨0⟩

end SparseMatrix
