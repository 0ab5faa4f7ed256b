import SparseMatrix.Basic
import SparseMatrix.Element

/-!
# Products on a device

`dotProductWith a b d` multiplies on the device `d`. Only the float types run on devices;
any other element type is refused first, then operands of mismatched sizes. Both
operands are then made dense (absent cells zero), multiplied by the device, and the
device's answer must be `m × n`; its nonzero values become the written cells of the
result, which keeps the full size. The answer comes with the number of device calls.

`dotProductBound` uses the device bound to the matrix, and refuses when there is none.

`Dense.product` is the plain dense product: every cell is the sum over all `p`, from
zero and in order, of `a[i][p] * b[p][j]`, with no value skipped.
-/

namespace SparseMatrix

variable {α : Type}

/-- The cell `(i, j)` of the plain dense product: the sum over every `p` below the columns
of `a`, from zero and in order, of `a[i][p] * b[p][j]`. -/
def Dense.productCell [Arith α] (a b : Dense α) (i j : Nat) : Except Fault α :=
  (List.range a.cols).foldlM (fun sum p => do
    let t ← Arith.mul (a.data.getD (i * a.cols + p) Arith.zero)
      (b.data.getD (p * b.cols + j) Arith.zero)
    Arith.add sum t) Arith.zero

/-- The plain dense product of an `m × k` and a `k × n` array. -/
def Dense.product [Arith α] [Width α] (a b : Dense α) : Except Fault (Dense α) := do
  let out ← Dense.filled a.rows b.cols (Arith.zero : α)
  let values ← (List.range a.rows).flatMap (fun i => (List.range b.cols).map fun j => (i, j))
    |>.mapM fun (i, j) => Dense.productCell a b i j
  return { out with data := values.toArray }

variable [Element α]

/-- The matrix of a device's `m × n` answer: its nonzero values, size kept. -/
def ofDeviceAnswer (a : SparseMatrix α) (d : Dense α) : SparseMatrix α :=
  let n := d.cols
  let cells := d.data.toList.zipIdx.filterMap fun (v, idx) =>
    if Arith.isZero v then none else some ((⟨idx / n, idx % n⟩ : Key), v)
  (a.derived d.rows n : SparseMatrix α).withCells cells

/-- The product `a · b` on device `d`, with the number of device calls. -/
def dotProductWith (a b : SparseMatrix α) (d : Device α) : Nat × Except Failure (SparseMatrix α) :=
  if !Element.onDevice α then (0, .error (.error (.unsupportedType (Element.typeName α))))
  else if a.colCount ≠ b.rowCount then (0, .error (.error (.innerSizesDiffer a.colCount b.rowCount)))
  else
    match a.toDense, b.toDense with
    | .error f, _ => (0, .error (.fault f))
    | _, .error f => (0, .error (.fault f))
    | .ok x, .ok y =>
      let answer : Except Failure (SparseMatrix α) := do
        let p ← d.matmul x y
        if p.dims ≠ (a.rowCount, b.colCount) then
          throw (.error (.deviceShape p.rows p.cols a.rowCount b.colCount))
        return ofDeviceAnswer a p
      (1, answer)

/-- The product `a · b` on the device bound to `a`. -/
def dotProductBound (a b : SparseMatrix α) : Nat × Except Failure (SparseMatrix α) :=
  match a.device with
  | none => (0, .error (.error .noAccelerator))
  | some d => dotProductWith a b d

end SparseMatrix
