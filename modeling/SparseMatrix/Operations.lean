import SparseMatrix.Basic

/-!
# Operations

The operations on whole matrices: the element-wise sums, differences and maps, the
transpose, the product, and the conversions between a diagonal and a column. Every
operation returns a new matrix that keeps the operand's configuration and token, and runs
its loop over rows or columns through the operand's range (`Range.tryMap`, `Range.guard`),
so the token and the degree of the operand decide whether it is cancelled or faults.
-/

namespace SparseMatrix

/-!
## Element-wise operations

`zipWith` and `mapAll` compute every cell of the result, written or not, in row-major
order, and write the values that are not zero. So `add` and `subtract` need operands of
one size, and `addScalar` fills every cell of the matrix. `conjugate` is the identity on
real values, but like the others it drops written zeros.
-/

section Elementwise

variable {α : Type} [Arith α]

/-- The nonzero cells of row `r` computed by `f` for each column below `cols`. -/
def rowOf (r cols : Nat) (f : Nat → Except Fault α) : Except Failure (List (Key × α)) :=
  (List.range cols).filterMapM fun c => do
    let v ← f c
    return if Arith.isZero v then none else some (⟨r, c⟩, v)

/-- Combines two matrices of one size cell by cell. -/
def zipWith (a b : SparseMatrix α) (op : String) (f : α → α → Except Fault α) :
    Except Failure (SparseMatrix α) := do
  if a.dims != b.dims then
    throw (.error (.sizesDiffer op a.rowCount a.colCount b.rowCount b.colCount))
  let rows ← a.range.tryMap 0 0 a.rowCount fun r =>
    rowOf r a.colCount fun c => f (a.get r c) (b.get r c)
  return (a.derived a.rowCount a.colCount).withCells rows.flatten

/-- Maps every cell of a matrix, written or not. -/
def mapAll (a : SparseMatrix α) (f : α → Except Fault α) : Except Failure (SparseMatrix α) := do
  let rows ← a.range.tryMap 0 0 a.rowCount fun r =>
    rowOf r a.colCount fun c => f (a.get r c)
  return (a.derived a.rowCount a.colCount).withCells rows.flatten

/-- The cell-wise sum. -/
def add (a b : SparseMatrix α) : Except Failure (SparseMatrix α) :=
  zipWith a b "add" Arith.add

/-- The cell-wise difference. -/
def subtract (a b : SparseMatrix α) : Except Failure (SparseMatrix α) :=
  zipWith a b "subtract" Arith.sub

/-- Every cell times `s`. -/
def multiplyScalar (a : SparseMatrix α) (s : α) : Except Failure (SparseMatrix α) :=
  mapAll a fun v => Arith.mul v s

/-- Every cell plus `s`, absent cells included. -/
def addScalar (a : SparseMatrix α) (s : α) : Except Failure (SparseMatrix α) :=
  mapAll a fun v => Arith.add v s

/-- The conjugate: values are real, so each cell keeps its value. -/
def conjugate (a : SparseMatrix α) : Except Failure (SparseMatrix α) :=
  mapAll a pure

end Elementwise

/-!
## Transpose

The transpose of an `r × c` matrix is `c × r` and holds the cell `(j, i) ↦ v` for each
written cell `(i, j) ↦ v` inside the bounds, written zeros included. The loop runs over
the columns of the operand, so a cancelled token stops it when there is a column.
-/

section Transposition

variable {α : Type}

/-- Whether a key lies inside the bounds of a matrix. -/
def inBounds (m : SparseMatrix α) (k : Key) : Bool :=
  k.row < m.rowCount && k.col < m.colCount

/-- Sorts cells into row-major key order. -/
def sortCells (cells : List (Key × α)) : List (Key × α) :=
  cells.mergeSort fun a b => !b.1.before a.1

/-- Swaps rows and columns. -/
def transpose (m : SparseMatrix α) : Except Failure (SparseMatrix α) := do
  m.range.guard 0 m.colCount
  let cells := (m.entries.filter fun kv => m.inBounds kv.1).map fun (k, v) => (⟨k.col, k.row⟩, v)
  return (m.derived m.colCount m.rowCount).withCells (sortCells cells)

end Transposition

/-!
## Matrix product

`dotProduct a b` needs as many columns in `a` as rows in `b`. Each cell `(i, j)` of the
`m × n` result is a sum that starts at zero and adds `a(i,p) * b(p,j)` for `p` in
ascending order, skipping the `p` where `a(i,p)` is zero, so a zero of `a` never meets an
infinity of `b`. Zero sums are not written. The loop runs over the rows of `a`, and each
row of `a` is first read into a buffer of elements (`Width`), which faults with
`capacityOverflow` when `a` has too many columns for one.
-/

section Products

variable {α : Type} [Arith α]

/-- The entries of row `i` of `a` in the columns below `k` that are not zero, with their
columns, in column order: the terms a cell of the product sums. -/
def rowTerms (a : SparseMatrix α) (i k : Nat) : List (Nat × α) :=
  ((List.range k).map fun p => (p, a.get i p)).filter fun t => !Arith.isZero t.2

/-- `Σ x * b(p, j)` over the terms `(p, x)`, from zero and in order. -/
def rowTimesColumn (terms : List (Nat × α)) (b : SparseMatrix α) (j : Nat) : Except Fault α :=
  let step (sum : α) (t : Nat × α) : Except Fault α := do
    let prod ← Arith.mul t.2 (b.get t.1 j)
    Arith.add sum prod
  terms.foldlM step Arith.zero

/-- The matrix product `a · b`. -/
def dotProduct [Width α] (a b : SparseMatrix α) : Except Failure (SparseMatrix α) := do
  if a.colCount ≠ b.rowCount then
    throw (.error (.innerSizesDiffer a.colCount b.rowCount))
  let rows ← a.range.tryMap 0 0 a.rowCount fun i => do
    fitsBuffer (Width.bytes α) a.colCount
    let terms := rowTerms a i a.colCount
    rowOf i b.colCount fun j => rowTimesColumn terms b j
  return (a.derived a.rowCount b.colCount).withCells rows.flatten

end Products

/-!
## Diagonals

`diag v` turns a column vector into the square matrix with `v` on its diagonal;
`diagVector a` reads the diagonal of a square matrix into a column vector. Both copy
written cells, zeros included. `trace` sums the diagonal from zero, in index order; the
diagonal is first read into a buffer of elements (`Width`).
-/

section Diagonals

variable {α : Type}

/-- The size of a square matrix, or `notSquare`. -/
def ensureSquare (m : SparseMatrix α) : Except Error Nat :=
  if m.isSquare then pure m.rowCount else .error (.notSquare m.rowCount m.colCount)

/-- The `n × n` matrix with column 0 of `v` on its diagonal; `v` has at most one column. -/
def diag (v : SparseMatrix α) : Except Failure (SparseMatrix α) := do
  if v.colCount > 1 then throw (.error (.notColumnVector v.rowCount v.colCount))
  let n := v.rowCount
  v.range.guard 0 n
  let cells := v.entries.filterMap fun (k, x) =>
    if k.col = 0 ∧ k.row < n then some (⟨k.row, k.row⟩, x) else none
  return (v.derived n n).withCells cells

/-- The diagonal of a square matrix as an `n × min n 1` column vector. -/
def diagVector (a : SparseMatrix α) : Except Failure (SparseMatrix α) := do
  let n ← ensureSquare a
  a.range.guard 0 n
  let cells := a.entries.filterMap fun (k, x) =>
    if k.row = k.col ∧ k.row < n then some (⟨k.row, 0⟩, x) else none
  return (a.derived n (min n 1)).withCells cells

/-- The sum of the diagonal of a square matrix, from zero and in index order. -/
def trace [Arith α] [Width α] (a : SparseMatrix α) : Except Failure α := do
  let n ← ensureSquare a
  let diagonal ← a.range.tryMap (Width.bytes α) 0 n fun i => pure (a.get i i)
  Arith.sum diagonal

end Diagonals

end SparseMatrix
