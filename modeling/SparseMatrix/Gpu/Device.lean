import SparseMatrix.Gpu.Error

/-!
# Opening a device

A device is opened on the first adapter the machine offers. With none, opening fails with
`initFailed "No suitable adapter found"`, and the machine reports no device as
available. An opened device runs 64-bit kernels when they were requested and the
adapter offers them; its transfer counters start at zero.
-/

namespace SparseMatrix.Gpu

/-- Which adapter to prefer. -/
inductive PowerPreference where
  | none
  | lowPower
  | highPerformance
  deriving DecidableEq, Repr

/-- Adapter selection settings. -/
structure Options where
  powerPreference : PowerPreference
  requestF64 : Bool
  deriving DecidableEq, Repr

/-- The default settings: high performance, 64-bit kernels requested. -/
def Options.default : Options := ⟨.highPerformance, true⟩

/-- An adapter of the machine. -/
structure Adapter where
  offersF64 : Bool
  deriving DecidableEq, Repr

/-- An opened device. -/
structure DeviceState where
  supportsF64 : Bool
  bytesToGpu : Nat
  bytesFromGpu : Nat
  deriving DecidableEq, Repr

/-- Whether the machine offers an adapter. -/
def isAvailable (adapters : List Adapter) : Bool :=
  !adapters.isEmpty

/-- Opens a device on the first adapter of the machine. -/
def openDevice (adapters : List Adapter) (o : Options) : Except Error DeviceState :=
  match adapters with
  | [] => .error (.initFailed "No suitable adapter found")
  | a :: _ => pure ⟨o.requestF64 && a.offersF64, 0, 0⟩

end SparseMatrix.Gpu
