/-!
# Kernel precisions

A `Precision` is the float width of a kernel set. It fixes the WGSL scalar type and the
WGSL zero literal of the kernels. The tiled product uses square tiles of `tileSize`
cells a side, which is also its workgroup size in each direction, and the
matrix-vector product runs `matvecWorkgroupSize` invocations per workgroup.
-/

namespace SparseMatrix.Gpu

/-- The float width of a kernel set. -/
inductive Precision where
  | f32
  | f64
  deriving DecidableEq, Repr

namespace Precision

/-- The WGSL scalar type. -/
def wgslType : Precision → String
  | .f32 => "f32"
  | .f64 => "f64"

/-- The WGSL zero literal. -/
def wgslZero : Precision → String
  | .f32 => "0.0"
  | .f64 => "0.0lf"

end Precision

/-- The edge length of the tiles of the tiled product. -/
def tileSize : Nat := 2

/-- The workgroup size of the matrix-vector product. -/
def matvecWorkgroupSize : Nat := 64

/-- The entry point of the tiled matrix product. -/
def matmulEntry : String := "matmul_tiled"

/-- The entry point of the vector dot product. -/
def vectorDotEntry : String := "vector_dot"

/-- The entry point of the matrix-vector product. -/
def matvecEntry : String := "matvec"

end SparseMatrix.Gpu
