import SparseMatrix.Error

/-!
# Device errors

A `Gpu.Error` says why a device could not be opened or used. Seen from a matrix, every
device error is an accelerator error carrying the device error's text.
-/

namespace SparseMatrix.Gpu

/-- Why a device could not be opened or used. -/
inductive Error where
  | initFailed (text : String)
  | api (text : String)
  | invalidDimensions (text : String)
  | unsupportedPrecision (text : String)
  | disposed
  | internal (text : String)
  deriving DecidableEq, Repr

namespace Error

/-- The name of the kind of a device error. -/
def kind : Error → String
  | .initFailed _ => "WgpuInitError"
  | .api _ => "WgpuError"
  | .invalidDimensions _ => "InvalidDimensions"
  | .unsupportedPrecision _ => "UnsupportedPrecision"
  | .disposed => "DeviceDisposed"
  | .internal _ => "Internal"

/-- The text of a device error. -/
def message : Error → String
  | .initFailed t => "WGPU initialization failed: " ++ t
  | .api t => "WGPU error: " ++ t
  | .invalidDimensions t => "Invalid matrix dimensions: " ++ t
  | .unsupportedPrecision t => "Unsupported precision: " ++ t
  | .disposed => "GPU device has been disposed"
  | .internal t => "Internal error: " ++ t

/-- The device error as a matrix error. -/
def toMatrixError (e : Error) : SparseMatrix.Error :=
  .accelerator e.message

end Error

end SparseMatrix.Gpu
