import SparseMatrix.Accelerator
import SparseMatrix.Arith
import SparseMatrix.Basic
import SparseMatrix.Buffer
import SparseMatrix.Parallel
import SparseMatrix.Csv
import SparseMatrix.Dense
import SparseMatrix.LinearAlgebra
import SparseMatrix.Operations
import SparseMatrix.Document
import SparseMatrix.Element
import SparseMatrix.Error
import SparseMatrix.Fault
import SparseMatrix.Fraction
import SparseMatrix.Gpu.Device
import SparseMatrix.Gpu.Error
import SparseMatrix.Gpu.Kernel
import SparseMatrix.Gpu.Precision
import SparseMatrix.Json.Read
import SparseMatrix.Json.Value
import SparseMatrix.Key
import SparseMatrix.Proofs.Bounds
import SparseMatrix.Proofs.Cells
import SparseMatrix.Proofs.Degree
import SparseMatrix.Proofs.Determinant
import SparseMatrix.Proofs.DeviceProduct
import SparseMatrix.Proofs.Document
import SparseMatrix.Proofs.Exact
import SparseMatrix.Proofs.Inverse
import SparseMatrix.Proofs.JsonReadBack
import SparseMatrix.Proofs.KeyOrder
import SparseMatrix.Proofs.Numerals
import SparseMatrix.Proofs.Records
import SparseMatrix.Proofs.Loop
import SparseMatrix.Proofs.Orthogonal
import SparseMatrix.Proofs.Product
import SparseMatrix.Sheet
import SparseMatrix.Store
import SparseMatrix.Text.Binary
import SparseMatrix.Text.Blank
import SparseMatrix.Text.FloatText
import SparseMatrix.Text.Integer
import SparseMatrix.Text.Shortest
import SparseMatrix.Word
import SparseMatrix.Proofs.Deletion
import SparseMatrix.Proofs.ProductLaws
import SparseMatrix.Proofs.Insertion
import SparseMatrix.Proofs.EarliestError
import SparseMatrix.Proofs.Equality
import SparseMatrix.Proofs.DiagonalInverse
import SparseMatrix.Proofs.Elementwise
import SparseMatrix.Proofs.Diagonals
import SparseMatrix.Proofs.DenseLayout
import SparseMatrix.Proofs.Transpose
import SparseMatrix.Proofs.DenseCopy
import SparseMatrix.Proofs.SheetRoundTrip
import SparseMatrix.Proofs.Minor
import SparseMatrix.Proofs.Tiling
