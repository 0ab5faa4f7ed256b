import SparseMatrix.Arith
import SparseMatrix.Store
import SparseMatrix.Parallel
import SparseMatrix.Dense

/-!
# Sparse matrices

A `SparseMatrix α` is a `Store` of written cells with its bounds, a `Config`, an optional
cancellation `Token` and an optional bound `Device`. Every cell is addressable: a cell
that was never written reads as zero (`get`), and writing any cell grows the bounds to
cover it (`set`).

Operations never change their operands; they return a new matrix, which keeps the
operand's configuration and token (`derived`). Equality (`beq`) compares sizes and then
values cell by cell, an absent cell counting as zero, so stored zeros never make two
matrices differ.
-/

namespace SparseMatrix

/-- A cancellation flag shared by a matrix and the matrices computed from it. -/
structure Token where
  cancelled : Bool
  deriving DecidableEq, Repr

/-- A device that multiplies dense row-major arrays; it may refuse with an error. -/
structure Device (α : Type) where
  matmul : Dense α → Dense α → Except Failure (Dense α)

end SparseMatrix

/-- A sparse, lazily growing matrix. -/
structure SparseMatrix (α : Type) where
  store : SparseMatrix.Store α
  config : SparseMatrix.Config
  token : Option SparseMatrix.Token
  device : Option (SparseMatrix.Device α)

namespace SparseMatrix

variable {α β : Type}

/-- The empty `0 × 0` matrix with a configuration. -/
def withConfig (config : Config) : SparseMatrix α :=
  ⟨Store.empty, config, none, none⟩

/-- The empty `0 × 0` matrix with the default configuration of the host. -/
def new [Host] : SparseMatrix α :=
  withConfig Config.default

/-- The `rows × cols` matrix with no written cell. -/
def zeros [Host] (rows cols : Nat) : SparseMatrix α :=
  { (new : SparseMatrix α) with store := Store.withBounds rows cols }

/-- The number of rows. -/
def rowCount (m : SparseMatrix α) : Nat :=
  m.store.rows

/-- The number of columns. -/
def colCount (m : SparseMatrix α) : Nat :=
  m.store.cols

/-- The size `(rows, cols)`. -/
def dims (m : SparseMatrix α) : Nat × Nat :=
  (m.rowCount, m.colCount)

/-- The written cells, in row-major order. -/
def entries (m : SparseMatrix α) : List (Key × α) :=
  m.store.cells

/-- The number of written cells. -/
def nnz (m : SparseMatrix α) : Nat :=
  m.store.nnz

/-- Whether the cell `(r, c)` was written. -/
def contains (m : SparseMatrix α) (r c : Nat) : Bool :=
  m.store.contains ⟨r, c⟩

/-- Writes a cell, growing the bounds to cover it. -/
def set (m : SparseMatrix α) (r c : Nat) (v : α) : SparseMatrix α :=
  { m with store := m.store.set ⟨r, c⟩ v }

/-- Drops every cell; the matrix becomes `0 × 0`. -/
def clear (m : SparseMatrix α) : SparseMatrix α :=
  { m with store := m.store.clear }

/-- A new matrix of size `rows × cols` with no cell, keeping the configuration and the
token of `m` and no device. -/
def derived (m : SparseMatrix α) (rows cols : Nat) : SparseMatrix β :=
  ⟨Store.withBounds rows cols, m.config, m.token, none⟩

/-- The same matrix with the cells `cells` (key-ordered, distinct) in place of its own,
its bounds grown to cover them as writing them one by one would. -/
def withCells (m : SparseMatrix β) (cells : List (Key × β)) : SparseMatrix β :=
  let rows := cells.foldl (fun r kv => max r (Store.succSat kv.1.row)) m.store.rows
  let cols := cells.foldl (fun c kv => max c (Store.succSat kv.1.col)) m.store.cols
  { m with store := ⟨rows, cols, cells⟩ }

/-- The loops of operations on `m`: its degree, and its token's flag. -/
def range (m : SparseMatrix α) : Range :=
  Range.new m.config.degree (m.token.any (·.cancelled))

/-- The matrix with a new degree of parallelism, which must be positive. -/
def setDegree (m : SparseMatrix α) (degree : Nat) : Except Error (SparseMatrix α) := do
  let config ← Config.new degree
  return { m with config }

/-- Gives the matrix a fresh token. -/
def attachToken (m : SparseMatrix α) : SparseMatrix α :=
  { m with token := some ⟨false⟩ }

/-- Cancels the matrix's token, if it has one. -/
def cancel (m : SparseMatrix α) : SparseMatrix α :=
  { m with token := m.token.map fun _ => ⟨true⟩ }

/-- Binds a device to the matrix. -/
def bind (m : SparseMatrix α) (d : Device α) : SparseMatrix α :=
  { m with device := some d }

/-- Releases the matrix's device. -/
def unbind (m : SparseMatrix α) : SparseMatrix α :=
  { m with device := none }

/-- A copy of the matrix: its cells, its bounds, its configuration, its token and its
device. The cells are copied in chunks of the list of cells, as many as the degree allows
(`copyChunks`); a list of more cells than the largest word, which no machine holds, is taken
as it is. -/
def clone (m : SparseMatrix α) : SparseMatrix α :=
  let chunks := (Range.new m.config.degree false).chunkCount m.entries.length
  let cells := match copyChunks m.entries chunks with
    | .ok cells => cells
    | .error _ => m.entries
  { (m.derived m.rowCount m.colCount : SparseMatrix α) with device := m.device }.withCells cells

/-- Inserts an empty row at `index`; see `Store.insertRow`. -/
def insertRow (m : SparseMatrix α) (index : Nat) : Except Failure (SparseMatrix α) := do
  let store ← m.store.insertRow index
  return { m with store }

/-- Inserts an empty column at `index`; see `Store.insertColumn`. -/
def insertColumn (m : SparseMatrix α) (index : Nat) : Except Failure (SparseMatrix α) := do
  let store ← m.store.insertColumn index
  return { m with store }

/-- Removes row `index`; see `Store.deleteRow`. -/
def deleteRow (m : SparseMatrix α) (index : Nat) : Except Error (SparseMatrix α) := do
  let store ← m.store.deleteRow index
  return { m with store }

/-- Removes column `index`; see `Store.deleteColumn`. -/
def deleteColumn (m : SparseMatrix α) (index : Nat) : Except Error (SparseMatrix α) := do
  let store ← m.store.deleteColumn index
  return { m with store }

/-- Whether the matrix has as many rows as columns. -/
def isSquare (m : SparseMatrix α) : Bool :=
  m.rowCount == m.colCount

section Values

variable [Arith α]

/-- The value at `(r, c)`: the written value, or zero. -/
def get (m : SparseMatrix α) (r c : Nat) : α :=
  (m.store.find? ⟨r, c⟩).getD Arith.zero

/-- The `n × n` identity matrix. -/
def identity [Host] (n : Nat) : SparseMatrix α :=
  (zeros n n : SparseMatrix α).withCells ((List.range n).map fun i => (⟨i, i⟩, Arith.one))

/-- The matrix of a dense array; zero values are not written, the size is kept. -/
def ofDense [Host] (d : Dense α) : SparseMatrix α :=
  let cells := (List.range d.rows).flatMap fun r => (List.range d.cols).filterMap fun c =>
    match d.get? r c with
    | some v => if Arith.isZero v then none else some (⟨r, c⟩, v)
    | none => none
  (zeros d.rows d.cols : SparseMatrix α).withCells cells

/-- The matrix of a list of equally long rows; zero values are not written. -/
def ofRows [Host] [Width α] (rows : List (List α)) : Except Failure (SparseMatrix α) := do
  let d ← Dense.ofRows rows
  return ofDense d

/-- Whether the matrix is square and every written cell off the diagonal is zero. -/
def isDiagonal (m : SparseMatrix α) : Bool :=
  m.isSquare && m.entries.all fun (k, v) => k.row == k.col || Arith.isZero v

/-- Whether every written cell is zero. -/
def isZero (m : SparseMatrix α) : Bool :=
  m.entries.all fun (_, v) => Arith.isZero v

/-- The dense row-major copy; absent cells become zero. The size `rows * cols` is a
checked product, and the buffer must fit. -/
def toDense [Width α] (m : SparseMatrix α) : Except Fault (Dense α) := do
  let d ← Dense.filled m.rowCount m.colCount Arith.zero
  return m.entries.foldl (fun d (k, v) => (d.set k.row k.col v).1) d

/-- The column-major copy: entry `[c][r]` is the value at `(r, c)`. A column of `rows`
values must fit in a buffer, and then the list of `cols` columns (`vectorBytes` each). -/
def toColumns [Width α] (m : SparseMatrix α) : Except Fault (List (List α)) := do
  fitsBuffer (Width.bytes α) m.rowCount
  fitsBuffer vectorBytes m.colCount
  return (List.range m.colCount).map fun c => (List.range m.rowCount).map fun r => m.get r c

/-- Equality over the size: the sizes agree, and every written cell of each matrix equals
the other's value there. -/
def beq (a b : SparseMatrix α) : Bool :=
  a.dims == b.dims &&
    a.entries.all (fun (k, v) => Arith.eq v (b.get k.row k.col)) &&
    b.entries.all (fun (k, v) => Arith.eq v (a.get k.row k.col))

/-- Maps every written cell, zeros included, through `f`, in row-major order, into a
matrix of the same size; the results are written even when zero. -/
def select (m : SparseMatrix α) (f : α → Except Fault β) : Except Fault (SparseMatrix β) := do
  let cells ← m.entries.mapM fun (k, v) => do
    let w ← f v
    return (k, w)
  return (m.derived m.rowCount m.colCount : SparseMatrix β).withCells cells

end Values

end SparseMatrix
