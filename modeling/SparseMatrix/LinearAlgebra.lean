import SparseMatrix.Operations

/-!
# Linear algebra

Minors, determinants, inverses and powers of square matrices, and the tests for
orthogonal and unitary matrices, built on the operations of `SparseMatrix.Operations`.
-/

namespace SparseMatrix

/-!
## Minors

`minor m i j` removes row `i` and column `j`: it is `(rows - 1) × (cols - 1)` and holds
each written cell of `m` outside row `i` and column `j`, moved up past the removed row
and left past the removed column, written zeros included. A row index out of range is
reported before a column index out of range.

`minorFn a i j` is the same operation on a matrix given by its entries.
-/

section Minors

variable {α : Type}

/-- The index in the operand of index `r` of a minor that removed index `i`. -/
def skipIndex (i r : Nat) : Nat :=
  if r < i then r else r + 1

/-- The entries of the minor of an entry function. -/
def minorFn (a : Nat → Nat → α) (i j : Nat) : Nat → Nat → α :=
  fun r c => a (skipIndex i r) (skipIndex j c)

/-- The index in a minor that removed index `i` of index `r ≠ i` of the operand. -/
def closeIndex (i r : Nat) : Nat :=
  if r > i then r - 1 else r

/-- Removes row `i` and column `j`. -/
def minor (m : SparseMatrix α) (i j : Nat) : Except Failure (SparseMatrix α) := do
  if m.rowCount ≤ i then throw (.error (.indexOutOfRange .row i m.rowCount))
  if m.colCount ≤ j then throw (.error (.indexOutOfRange .column j m.colCount))
  m.range.guard 0 (m.rowCount - 1)
  let cells := m.entries.filterMap fun (k, v) =>
    if k.row = i ∨ k.col = j ∨ m.rowCount ≤ k.row ∨ m.colCount ≤ k.col then none
    else some (⟨closeIndex i k.row, closeIndex j k.col⟩, v)
  return (m.derived (m.rowCount - 1) (m.colCount - 1)).withCells cells

end Minors

/-!
## Determinants

`det range n a` is the determinant of the `n × n` matrix with entries `a r c`. Sizes
zero to four use closed forms: one, the entry, `ad - bc`, the expansion along the first
row, and for size four the Laplace expansion over the 2 × 2 minors of the top and the
bottom pairs of rows. Larger sizes expand along the first row: the term of column `j` is
`(-1)^j · a(0,j) · det (minor 0 j)`, zero when the pivot is zero, and the terms are
summed from zero in column order. Every product and sum is a checked element operation,
evaluated in the order written.

`determinant` checks that the matrix is square and takes `det` of its entries, through
`cofactorExpansion` from size five on (`expandFirstRow` with the minors' `det`). Each
matrix handed to `det` is first tabulated (`Tabulated.of`): the same entries
(`Tabulated.read_of`), read from a table built once, so a deep expansion does not walk
the chain of minors for every entry. A block of more than `tableLimit` entries is not
tabulated: the expansion can only finish on it when its first row has no pivot, and then
it reads that row once.

The expansion terms of a size above four are kept in a buffer of elements (`Width`), so
an expansion too wide for one faults with `capacityOverflow` before any term is
computed.
-/

section Determinants

variable {α : Type} [Arith α]

/-- A function on pairs of indices whose `size × size` block is kept in a table, row by
row: reading a block entry costs one array access instead of a walk down a chain of
minors. -/
structure Tabulated (α : Type) where
  size : Nat
  table : Array α
  rest : Nat → Nat → α

/-- The function `a` with its whole `n × n` block in the table. -/
def Tabulated.block (n : Nat) (a : Nat → Nat → α) : Tabulated α :=
  ⟨n, Array.ofFn fun (k : Fin (n * n)) => a (k / n) (k % n), a⟩

/-- Reads a tabulated function: from the table inside the block, where the index
`r * size + c` is in range so the fallback zero is never read, and from `rest` outside. -/
def Tabulated.read (t : Tabulated α) (r c : Nat) : α :=
  if r < t.size ∧ c < t.size then t.table.getD (r * t.size + c) Arith.zero else t.rest r c

theorem Tabulated.read_block (n : Nat) (a : Nat → Nat → α) :
    (Tabulated.block n a).read = a := by
  funext r c
  show (if r < n ∧ c < n then
      (Array.ofFn fun (k : Fin (n * n)) => a (k / n) (k % n)).getD (r * n + c) Arith.zero
    else a r c) = a r c
  by_cases h : r < n ∧ c < n
  · rw [if_pos h]
    have hn : 0 < n := by omega
    have hk : r * n + c < n * n := by
      have : (r + 1) * n ≤ n * n := Nat.mul_le_mul_right n h.1
      rw [Nat.add_mul, Nat.one_mul] at this
      omega
    have hdiv : (r * n + c) / n = r := by
      rw [Nat.mul_comm, Nat.mul_add_div hn, Nat.div_eq_of_lt h.2, Nat.add_zero]
    have hmod : (r * n + c) % n = c := by
      rw [Nat.mul_comm, Nat.mul_add_mod, Nat.mod_eq_of_lt h.2]
    simp [Array.getD, Array.size_ofFn, hk, hdiv, hmod]
  · rw [if_neg h]

/-- The most entries a table holds. -/
def tableLimit : Nat := Nat.pow 2 22

/-- The function `a` with its `n × n` block tabulated when the block has at most
`tableLimit` entries, and with an empty table otherwise. -/
def Tabulated.of (n : Nat) (a : Nat → Nat → α) : Tabulated α :=
  if n * n ≤ tableLimit then Tabulated.block n a else ⟨0, #[], a⟩

theorem Tabulated.read_of (n : Nat) (a : Nat → Nat → α) : (Tabulated.of n a).read = a := by
  unfold Tabulated.of
  split
  · exact Tabulated.read_block n a
  · funext r c
    simp [Tabulated.read]

/-- `w * x - y * z`, the products first. -/
def cross (w x y z : α) : Except Fault α := do
  let p ← Arith.mul w x
  let q ← Arith.mul y z
  Arith.sub p q

/-- The determinant of a 3 × 3 matrix, expanded along the first row. -/
def det3 (a : Nat → Nat → α) : Except Fault α := do
  let d0 ← cross (a 1 1) (a 2 2) (a 1 2) (a 2 1)
  let t0 ← Arith.mul (a 0 0) d0
  let d1 ← cross (a 1 0) (a 2 2) (a 1 2) (a 2 0)
  let t1 ← Arith.mul (a 0 1) d1
  let s ← Arith.sub t0 t1
  let d2 ← cross (a 1 0) (a 2 1) (a 1 1) (a 2 0)
  let t2 ← Arith.mul (a 0 2) d2
  Arith.add s t2

/-- The determinant of a 4 × 4 matrix: `Σ ± s_k c_(5-k)` over the 2 × 2 minors `s_k` of
rows 0 and 1 and the complementary minors `c_(5-k)` of rows 2 and 3. -/
def det4 (a : Nat → Nat → α) : Except Fault α := do
  let s0 ← cross (a 0 0) (a 1 1) (a 1 0) (a 0 1)
  let s1 ← cross (a 0 0) (a 1 2) (a 1 0) (a 0 2)
  let s2 ← cross (a 0 0) (a 1 3) (a 1 0) (a 0 3)
  let s3 ← cross (a 0 1) (a 1 2) (a 1 1) (a 0 2)
  let s4 ← cross (a 0 1) (a 1 3) (a 1 1) (a 0 3)
  let s5 ← cross (a 0 2) (a 1 3) (a 1 2) (a 0 3)
  let c5 ← cross (a 2 2) (a 3 3) (a 3 2) (a 2 3)
  let c4 ← cross (a 2 1) (a 3 3) (a 3 1) (a 2 3)
  let c3 ← cross (a 2 1) (a 3 2) (a 3 1) (a 2 2)
  let c2 ← cross (a 2 0) (a 3 3) (a 3 0) (a 2 3)
  let c1 ← cross (a 2 0) (a 3 2) (a 3 0) (a 2 2)
  let c0 ← cross (a 2 0) (a 3 1) (a 3 0) (a 2 1)
  let r ← cross s0 c5 s1 c4
  let t ← Arith.mul s2 c3
  let r ← Arith.add r t
  let t ← Arith.mul s3 c2
  let r ← Arith.add r t
  let t ← Arith.mul s4 c1
  let r ← Arith.sub r t
  let t ← Arith.mul s5 c0
  Arith.add r t

/-- The expansion along the first row of the `n × n` matrix with entries `a r c`, given
the determinant of the minor of each column. The term of column `j` is
`(-1)^j · a(0,j) · minorDet j`, and zero, with no minor computed, when the pivot `a(0,j)` is
zero; the terms run as a loop of `range` and are summed from zero in column order. -/
def expandFirstRow [Width α] (range : Range) (n : Nat) (a : Nat → Nat → α)
    (minorDet : Nat → Except Failure α) : Except Failure α := do
  let terms ← range.tryMap (Width.bytes α) 0 n fun j => do
    let pivot := a 0 j
    if Arith.isZero pivot then return Arith.zero
    let d ← minorDet j
    let t ← Arith.mul pivot d
    Arith.signed t j
  Arith.sum terms

/-- The determinant of the `n × n` matrix with entries `a r c`; the expansion terms of
sizes above four run as a loop of `range`. -/
def det [Width α] (range : Range) : Nat → (Nat → Nat → α) → Except Failure α
  | 0, _ => pure Arith.one
  | 1, a => pure (a 0 0)
  | 2, a => cross (a 0 0) (a 1 1) (a 0 1) (a 1 0)
  | 3, a => det3 a
  | 4, a => det4 a
  | n + 5, a => expandFirstRow range (n + 5) a fun j =>
    det range (n + 4) (Tabulated.of (n + 4) (minorFn a 0 j)).read

/-- The cofactor expansion of a matrix of size `n` along its first row, the determinant of
each minor taken by `det`. It is how `determinant` proceeds from size five on; at smaller
sizes it is a second way to the value of the closed forms. -/
def cofactorExpansion [Width α] (m : SparseMatrix α) (n : Nat) : Except Failure α :=
  let a := (Tabulated.of n m.get).read
  expandFirstRow m.range n a fun j =>
    det m.range (n - 1) (Tabulated.of (n - 1) (minorFn a 0 j)).read

/-- The determinant of a square matrix: a closed form up to size four, the cofactor
expansion beyond. -/
def determinant [Width α] (m : SparseMatrix α) : Except Failure α := do
  let n ← ensureSquare m
  if n < 5 then det m.range n (Tabulated.of n m.get).read else cofactorExpansion m n

end Determinants

/-!
## Inverses

`inverse` needs a square matrix with a determinant other than zero. The empty matrix is
its own inverse; a 1 × 1 matrix gets `1 / det`, written even when the quotient is zero.
A diagonal matrix gets `1 / a(i,i)` on its diagonal, again written even when zero.
Otherwise the inverse is the adjugate over the determinant: for every `(i, j)`, taken in
the order of `k = i · n + j`, the cell `(j, i)` is `(-1)^(i+j) · det (minor i j) / det`,
written when it is not zero.
-/

section Inverses

variable {α : Type} [Arith α]

/-- The inverse of a square matrix whose determinant is not zero. -/
def inverse [Width α] (m : SparseMatrix α) : Except Failure (SparseMatrix α) := do
  let n ← ensureSquare m
  let d ← m.determinant
  if Arith.isZero d then throw (.error .singular)
  let result : SparseMatrix α := m.derived n n
  if n = 0 then return result
  if n = 1 then
    let v ← Arith.div Arith.one d
    return result.set 0 0 v
  if m.isDiagonal then
    let cells ← m.range.tryMap 0 0 n fun i => do
      let v ← Arith.div Arith.one (m.get i i)
      return ((⟨i, i⟩ : Key), v)
    return result.withCells cells
  let entries := (Tabulated.of n m.get).read
  let count ← Size.mul n n
  let cells ← m.range.tryMap 0 0 count fun k => do
    let i := k / n
    let j := k % n
    let minorDet ← det m.range (n - 1) (Tabulated.of (n - 1) (minorFn entries i j)).read
    let c ← Arith.signed minorDet (i + j)
    let v ← Arith.div c d
    return if Arith.isZero v then none else some ((⟨j, i⟩ : Key), v)
  return result.withCells (sortCells (cells.filterMap id))

end Inverses

/-!
## Powers

`power m e` multiplies a square matrix by itself: the zeroth power is the identity of
the matrix's size, the first a copy (written zeros kept), and each further power the
previous one times `m`.
-/

section Powers

variable {α : Type} [Arith α]

/-- `acc · m · m ⋯` with `k` more factors `m`. -/
def timesPower [Width α] (m : SparseMatrix α) : Nat → SparseMatrix α → Except Failure (SparseMatrix α)
  | 0, acc => pure acc
  | k + 1, acc => do
    let next ← acc.dotProduct m
    timesPower m k next

/-- The `e`-th power of a square matrix. -/
def power [Width α] (m : SparseMatrix α) (e : Nat) : Except Failure (SparseMatrix α) := do
  let n ← ensureSquare m
  if e = 0 then
    return (m.derived n n : SparseMatrix α).withCells ((List.range n).map fun i => (⟨i, i⟩, Arith.one))
  timesPower m (e - 1) m.clone

end Powers

/-!
## Orthogonal and unitary matrices

A square matrix is orthogonal when `A · Aᵀ` equals the identity, and unitary when
`conj(A)ᵀ · A` does. Both comparisons are exact, against an identity built with the host's
default configuration, which equality does not read. A matrix that is not square is
neither, without error.
-/

section Orthogonality

variable {α : Type} [Arith α]

/-- Whether `A · Aᵀ` is the identity. -/
def isOrthogonal [Host] [Width α] (m : SparseMatrix α) : Except Failure Bool := do
  if !m.isSquare then return false
  let t ← m.transpose
  let p ← m.dotProduct t
  return p.beq (identity m.rowCount)

/-- Whether `conj(A)ᵀ · A` is the identity. -/
def isUnitary [Host] [Width α] (m : SparseMatrix α) : Except Failure Bool := do
  if !m.isSquare then return false
  let c ← m.conjugate
  let ct ← c.transpose
  let p ← ct.dotProduct m
  return p.beq (identity m.rowCount)

end Orthogonality

end SparseMatrix
