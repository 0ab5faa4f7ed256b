import SparseMatrix.Key

/-!
# Cell stores

A `Store` holds the written cells of a matrix and its bounds. Cells are listed in
row-major key order, each key once; a cell that was never written is absent, which the
matrix reads as zero. The bounds are one past the largest row and column ever written,
saturating at `2^64 - 1`, and they shrink only by deleting a row or a column, or by
`clear`.

Deleting row `i` drops its cells and moves every later row up by one; inserting an empty
row at `i` moves rows `i` and later down by one. Both re-key the cells in one pass, which
keeps their order. Columns behave alike.
-/

namespace SparseMatrix

/-- Written cells, in row-major key order, with the bounds of the matrix. -/
structure Store (α : Type) where
  rows : Nat
  cols : Nat
  cells : List (Key × α)
  deriving Repr

namespace Store

variable {α : Type}

/-- No cells, with the given bounds. -/
def withBounds (rows cols : Nat) : Store α :=
  ⟨rows, cols, []⟩

/-- No cells and bounds `0 × 0`. -/
def empty : Store α :=
  withBounds 0 0

/-- One past `n`, saturating at the largest word. -/
def succSat (n : Nat) : Nat :=
  min (n + 1) Text.wordMax

/-- The stored value at a key, if the cell was written. -/
def find? (s : Store α) (k : Key) : Option α :=
  (s.cells.find? (·.1 == k)).map (·.2)

/-- Whether the cell at a key was written. -/
def contains (s : Store α) (k : Key) : Bool :=
  s.cells.any (·.1 == k)

/-- The number of written cells. -/
def nnz (s : Store α) : Nat :=
  s.cells.length

/-- Writes `v` at `k` into a key-ordered cell list, replacing an earlier value there. -/
def insertCell (k : Key) (v : α) : List (Key × α) → List (Key × α)
  | [] => [(k, v)]
  | (k', v') :: rest =>
    if k.before k' then (k, v) :: (k', v') :: rest
    else if k = k' then (k, v) :: rest
    else (k', v') :: insertCell k v rest

/-- Writes a cell, growing the bounds to cover it. -/
def set (s : Store α) (k : Key) (v : α) : Store α :=
  { rows := max s.rows (succSat k.row)
    cols := max s.cols (succSat k.col)
    cells := insertCell k v s.cells }

/-- Grows the bounds to at least `rows × cols`, writing no cell. -/
def ensureBounds (s : Store α) (rows cols : Nat) : Store α :=
  { s with rows := max s.rows rows, cols := max s.cols cols }

/-- Drops every cell and resets the bounds to `0 × 0`. -/
def clear (_ : Store α) : Store α :=
  empty

/-- Re-keys every cell through `f`, dropping those mapped to `none`. -/
def rekey (s : Store α) (f : Key → Option Key) : List (Key × α) :=
  s.cells.filterMap fun (k, v) => (f k).map (·, v)

/-- Removes row `index`, moving every later row up by one. -/
def deleteRow (s : Store α) (index : Nat) : Except Error (Store α) :=
  if s.rows ≤ index then .error (.indexOutOfRange .row index s.rows)
  else
    let cells := s.rekey fun k =>
      if k.row = index then none
      else if k.row > index then some ⟨k.row - 1, k.col⟩
      else some k
    pure ⟨s.rows - 1, s.cols, cells⟩

/-- Removes column `index`, moving every later column left by one. -/
def deleteColumn (s : Store α) (index : Nat) : Except Error (Store α) :=
  if s.cols ≤ index then .error (.indexOutOfRange .column index s.cols)
  else
    let cells := s.rekey fun k =>
      if k.col = index then none
      else if k.col > index then some ⟨k.row, k.col - 1⟩
      else some k
    pure ⟨s.rows, s.cols - 1, cells⟩

/-- Inserts an empty row at `index` (at most the row count), moving rows `index` and
later down by one. A cell in the last possible row cannot move, and a row count at the
largest word cannot grow: both fault. -/
def insertRow (s : Store α) (index : Nat) : Except Failure (Store α) :=
  if s.rows < index then .error (.error (.indexOutOfRange .row index s.rows))
  else if s.cells.any (fun (k, _) => index ≤ k.row ∧ k.row = Text.wordMax) ∨ s.rows = Text.wordMax then
    .error (.fault .addOverflow)
  else
    let cells := s.rekey fun k => if index ≤ k.row then some ⟨k.row + 1, k.col⟩ else some k
    pure ⟨s.rows + 1, s.cols, cells⟩

/-- Inserts an empty column at `index` (at most the column count), moving columns
`index` and later right by one; faults as `insertRow` does. -/
def insertColumn (s : Store α) (index : Nat) : Except Failure (Store α) :=
  if s.cols < index then .error (.error (.indexOutOfRange .column index s.cols))
  else if s.cells.any (fun (k, _) => index ≤ k.col ∧ k.col = Text.wordMax) ∨ s.cols = Text.wordMax then
    .error (.fault .addOverflow)
  else
    let cells := s.rekey fun k => if index ≤ k.col then some ⟨k.row, k.col + 1⟩ else some k
    pure ⟨s.rows, s.cols + 1, cells⟩

end Store

end SparseMatrix
