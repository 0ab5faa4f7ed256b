import SparseMatrix.Buffer
import SparseMatrix.Error

/-!
# Dense arrays

A `Dense` array holds `rows × cols` values in row-major order: the value at `(r, c)` is
`data[r * cols + c]`. Reading or writing outside the bounds gives nothing and changes
nothing.

The data is one buffer, so an array too large for it faults with `capacityOverflow`
(`fitsBuffer`).
-/

namespace SparseMatrix

/-- Values in row-major order, with the bounds. -/
structure Dense (α : Type) where
  rows : Nat
  cols : Nat
  data : Array α
  deriving Repr

namespace Dense

variable {α : Type}

/-- `rows × cols` copies of `fill`. The size `rows * cols` is a checked product, and the
buffer must fit (`fitsBuffer`). -/
def filled [Width α] (rows cols : Nat) (fill : α) : Except Fault (Dense α) := do
  let size ← Size.mul rows cols
  fitsBuffer (Width.bytes α) size
  return ⟨rows, cols, Array.replicate size fill⟩

/-- The array over a row-major data list, which must hold `rows * cols` values. -/
def ofList (rows cols : Nat) (data : List α) : Except Failure (Dense α) := do
  let size ← Size.mul rows cols
  if data.length ≠ size then throw (.error (.dataLength data.length rows cols))
  return ⟨rows, cols, data.toArray⟩

/-- The array over a list of rows, each as long as the first. The buffer of
`rows.length * cols` values, `cols` the length of the first row, is laid out before any row
is checked: the size is a checked product, and the buffer must fit (`fitsBuffer`). -/
def ofRows [Width α] (rows : List (List α)) : Except Failure (Dense α) := do
  let cols := (rows.head?.map List.length).getD 0
  let size ← Size.mul rows.length cols
  fitsBuffer (Width.bytes α) size
  match (rows.zipIdx.find? fun (row, _) => row.length ≠ cols) with
  | some (row, r) => throw (.error (.raggedRow r row.length cols))
  | none => return ⟨rows.length, cols, rows.flatten.toArray⟩

/-- The size `(rows, cols)`. -/
def dims (d : Dense α) : Nat × Nat :=
  (d.rows, d.cols)

/-- Whether the array holds no value. -/
def isEmpty (d : Dense α) : Bool :=
  d.data.isEmpty

/-- The value at `(r, c)`, inside the bounds. -/
def get? (d : Dense α) (r c : Nat) : Option α :=
  if r < d.rows ∧ c < d.cols then d.data[r * d.cols + c]? else none

/-- Writes the value at `(r, c)` when it is inside the bounds, and says whether it was. -/
def set (d : Dense α) (r c : Nat) (v : α) : Dense α × Bool :=
  if r < d.rows ∧ c < d.cols then ({ d with data := d.data.set! (r * d.cols + c) v }, true)
  else (d, false)

/-- The rows, each a list of `cols` values; `rows` empty rows when there are no columns.
The list of rows is a buffer of `rows` vectors (`vectorBytes` each), which must fit even
when every row is empty. -/
def toRows (d : Dense α) : Except Fault (List (List α)) := do
  fitsBuffer vectorBytes d.rows
  return if d.cols = 0 then List.replicate d.rows []
    else (List.range d.rows).map fun r => (d.data.toList.drop (r * d.cols)).take d.cols

end Dense

end SparseMatrix
