import SparseMatrix.Fault

/-!
# Library errors

`Error` lists why a call refuses to produce its result, one constructor per cause.
`Error.kind` groups the causes into the families that callers match on, and
`Error.message` is the one place where the wording lives.

`Failure` joins the two ways a computation stops: a library `Error`, or an arithmetic
`Fault`.
-/

namespace SparseMatrix

/-- The two directions of a matrix. -/
inductive Axis where
  | row
  | column
  deriving DecidableEq, Repr

/-- The capitalised name of an axis, as messages use it. -/
def Axis.name : Axis → String
  | .row => "Row"
  | .column => "Column"

/-- The largest number of rows a sheet holds. -/
def sheetRowLimit : Nat := 1048576

/-- The largest number of columns a sheet holds. -/
def sheetColumnLimit : Nat := 16384

/-- Why a library call refused to produce its result. -/
inductive Error where
  /-- An element-wise operation got operands of different sizes. -/
  | sizesDiffer (op : String) (rows cols otherRows otherCols : Nat)
  /-- A product got a left operand whose column count is not the right one's row count. -/
  | innerSizesDiffer (cols otherRows : Nat)
  /-- A dense array got a data list whose length is not `rows * cols`. -/
  | dataLength (length rows cols : Nat)
  /-- A device returned a product of the wrong size. -/
  | deviceShape (rows cols expectedRows expectedCols : Nat)
  | notSquare (rows cols : Nat)
  /-- Row `row` of a list of rows has `length` elements where the first had `expected`. -/
  | raggedRow (row length expected : Nat)
  /-- A diagonal matrix was requested from a matrix with more than one column. -/
  | notColumnVector (rows cols : Nat)
  | singular
  /-- The operation is not available for the element type with this name. -/
  | unsupportedType (name : String)
  | indexOutOfRange (axis : Axis) (index count : Nat)
  | tooManyRows (rows : Nat)
  | tooManyColumns (cols : Nat)
  /-- A degree of parallelism of zero. -/
  | degreeNotPositive
  /-- The environment's degree of parallelism is not a number. -/
  | degreeText (raw : String)
  | cancelled
  | noAccelerator
  /-- A cell key that is not of the form `row,column`. -/
  | invalidKey (text : String)
  /-- A sheet field that is not an element. -/
  | parse (row col : Nat) (value : String)
  /-- A document that is not a matrix document. -/
  | json (reason : String)
  /-- A sheet that cannot be read. -/
  | csv (reason : String)
  /-- A sheet name that is empty or holds a path separator. -/
  | invalidSheetName (name : String)
  /-- A failure reported by a device. -/
  | accelerator (text : String)
  deriving DecidableEq, Repr

namespace Error

/-- The family of an error: callers tell errors apart by this name. -/
def kind : Error → String
  | .sizesDiffer .. | .innerSizesDiffer .. | .dataLength .. | .deviceShape .. =>
    "DimensionMismatch"
  | .notSquare .. => "NotSquare"
  | .raggedRow .. | .notColumnVector .. => "InvalidShape"
  | .singular => "SingularMatrix"
  | .unsupportedType .. => "UnsupportedType"
  | .indexOutOfRange .. => "IndexOutOfRange"
  | .tooManyRows .. | .tooManyColumns .. => "CapacityExceeded"
  | .degreeNotPositive | .degreeText .. => "InvalidConfiguration"
  | .cancelled => "Cancelled"
  | .noAccelerator => "NoAccelerator"
  | .invalidKey .. => "InvalidKey"
  | .parse .. => "Parse"
  | .json .. => "Json"
  | .csv .. => "Csv"
  | .invalidSheetName .. => "Io"
  | .accelerator .. => "Accelerator"

/-- The size `rows x cols` as messages write it. -/
def sizeText (rows cols : Nat) : String :=
  toString rows ++ "x" ++ toString cols

/-- The text that reports an error. -/
def message : Error → String
  | .sizesDiffer op r c r' c' =>
    "Dimension mismatch: " ++ op ++ " requires equal sizes (" ++ sizeText r c ++ " vs " ++
      sizeText r' c' ++ ")"
  | .innerSizesDiffer k k' =>
    "Dimension mismatch: Dot product needs columns of A (" ++ toString k ++
      ") to match rows of B (" ++ toString k' ++ ")"
  | .dataLength n r c =>
    "Dimension mismatch: Data length (" ++ toString n ++ ") does not match dimensions (" ++
      sizeText r c ++ ")"
  | .deviceShape r c r' c' =>
    "Dimension mismatch: Accelerator returned " ++ sizeText r c ++ ", expected " ++ sizeText r' c'
  | .notSquare r c => "Matrix must be square (dims: " ++ sizeText r c ++ ")"
  | .raggedRow r n k =>
    "Invalid matrix shape: Row " ++ toString r ++ " has " ++ toString n ++
      " elements, expected " ++ toString k
  | .notColumnVector r c =>
    "Invalid matrix shape: diag expects a column vector, got " ++ sizeText r c
  | .singular => "Matrix is singular"
  | .unsupportedType name => "Unsupported element type for this operation: " ++ name
  | .indexOutOfRange axis i n =>
    axis.name ++ " index " ++ toString i ++ " is out of range (count: " ++ toString n ++ ")"
  | .tooManyRows r =>
    "Sheet capacity exceeded: " ++ toString r ++ " rows exceed the sheet limit of " ++
      toString sheetRowLimit
  | .tooManyColumns c =>
    "Sheet capacity exceeded: " ++ toString c ++ " columns exceed the sheet limit of " ++
      toString sheetColumnLimit
  | .degreeNotPositive => "Invalid configuration: max_degree_of_parallelism must be positive"
  | .degreeText raw =>
    "Invalid configuration: EXPMAT_MAX_PARALLELISM must be a positive integer, got '" ++ raw ++
      "'"
  | .cancelled => "Operation was cancelled"
  | .noAccelerator => "No accelerator is bound to this matrix"
  | .invalidKey s => "Invalid cell key '" ++ s ++ "', expected \"row,column\""
  | .parse r c v =>
    "Cannot parse cell (" ++ toString r ++ ", " ++ toString c ++ ") value '" ++ v ++ "'"
  | .json reason => "JSON error: " ++ reason
  | .csv reason => "CSV error: " ++ reason
  | .invalidSheetName name => "IO error: invalid sheet name '" ++ name ++ "'"
  | .accelerator text => "Accelerator error: " ++ text

end Error

/-- How a computation stopped: with a library error, or with an arithmetic fault. -/
inductive Failure where
  | error (e : Error)
  | fault (f : Fault)
  deriving DecidableEq, Repr

/-- A checked element operation runs inside a computation that may also fail with errors. -/
instance : MonadLift (Except Fault) (Except Failure) where
  monadLift x := x.mapError Failure.fault

/-- A call that can only fail with an error runs inside any computation. -/
instance : MonadLift (Except Error) (Except Failure) where
  monadLift x := x.mapError Failure.error

/-- Stops a computation with a library error. -/
def refuse {β : Type} (e : Error) : Except Failure β :=
  .error (.error e)

end SparseMatrix
