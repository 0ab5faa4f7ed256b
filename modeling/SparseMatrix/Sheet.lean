import SparseMatrix.Basic
import SparseMatrix.Element
import SparseMatrix.Csv

/-!
# Sheets

A sheet is the text of a file `<name>.csv`: one record per row, each cell written with
its element text and an absent cell left empty (`sheetRecords`). A sheet holds at most
`sheetRowLimit` rows and `sheetColumnLimit` columns, and a matrix without columns is an
empty sheet. Records are written and read by a CSV library (`Csv.Library`), and the files
are kept in a file system that says which file names can exist (`FileSystem`); both are
parameters.

`saveSheet` checks the limits (rows first), then the name, which must be nonempty and
hold no `/` or `\`, then that the file system can hold a file of that name (else a CSV
error, as creating the file fails), and gives the file name and the text. `loadSheet`
checks the name and the file in the same way and reads a sheet back: every field is
trimmed, empty fields are skipped, the others are read as elements and the nonzero ones
written; after each record the bounds grow to cover it. A field that is not an element is
refused with its position and trimmed text.
-/

namespace SparseMatrix

variable {α : Type} [Element α]

/-- Refuses an empty name, or one that holds a path separator. -/
def checkSheetName (name : String) : Except Error Unit :=
  if name.isEmpty ∨ name.toList.any (fun c => c == '/' || c == '\\') then
    .error (.invalidSheetName name)
  else pure ()

/-- The file name of a sheet. -/
def sheetFile (name : String) : String :=
  name ++ ".csv"

/-- A file system, as far as sheets see it: whether a file of a name can exist in it. -/
structure FileSystem where
  holds : String → Bool

/-- The longest file name a file system takes, in bytes. -/
def fileNameLimit : Nat := 255

/-- Whether a file of this name can exist: no NUL character, and at most
`fileNameLimit` bytes of UTF-8. -/
def fileNameFits (file : String) : Bool :=
  !file.toList.contains (Char.ofNat 0) && decide (file.utf8ByteSize ≤ fileNameLimit)

/-- The file systems the executable runs on, whose names follow `fileNameFits`. -/
def FileSystem.standard : FileSystem := ⟨fileNameFits⟩

/-- Refuses a sheet whose file the file system cannot hold, as opening or creating it
fails. -/
def checkSheetFile (fs : FileSystem) (name : String) : Except Error Unit :=
  if fs.holds (sheetFile name) then pure ()
  else .error (.csv "cannot open the file")

/-- The records of a matrix's sheet: one per row, each field the text of a written cell or
empty; none when the matrix has no columns. -/
def sheetRecords (m : SparseMatrix α) : List (List String) :=
  if m.colCount = 0 then []
  else (List.range m.rowCount).map fun r => (List.range m.colCount).map fun c =>
    if m.contains r c then Element.text (m.get r c) else ""

/-- The text of a matrix as a sheet, its records written by a CSV library. -/
def sheetText (csv : Csv.Library) (m : SparseMatrix α) : String :=
  String.join ((sheetRecords m).map csv.writeRecord)

/-- Writes a matrix as the sheet `name`: the file name and the text. -/
def saveSheet (m : SparseMatrix α) (csv : Csv.Library) (fs : FileSystem) (name : String) :
    Except Error (String × String) := do
  if m.rowCount > sheetRowLimit then throw (.tooManyRows m.rowCount)
  if m.colCount > sheetColumnLimit then throw (.tooManyColumns m.colCount)
  checkSheetName name
  checkSheetFile fs name
  return (sheetFile name, sheetText csv m)

/-- Reads the matrix of a sheet's text. -/
def ofSheetText [Host] (csv : Csv.Library) (text : String) : Except Failure (SparseMatrix α) := do
  let records := csv.records text
  let readRecord (m : SparseMatrix α) (rec : List String × Nat) : Except Failure (SparseMatrix α) := do
    let (fields, r) := rec
    let readField (m : SparseMatrix α) (field : String × Nat) : Except Failure (SparseMatrix α) := do
      let (raw, c) := field
      let f := Text.trim raw
      if f.isEmpty then return m
      match ← Element.read? f with
      | none => throw (.error (.parse r c f))
      | some v => return if Arith.isZero v then m else m.set r c v
    let m ← fields.zipIdx.foldlM readField m
    return { m with store := m.store.ensureBounds (r + 1) fields.length }
  records.zipIdx.foldlM readRecord new

/-- Reads the sheet `name`, whose text is `contents`, or `none` when there is no such
file. -/
def loadSheet [Host] (csv : Csv.Library) (fs : FileSystem) (name : String)
    (contents : Option String) : Except Failure (SparseMatrix α) := do
  checkSheetName name
  checkSheetFile fs name
  match contents with
  | none => throw (.error (.csv "No such file or directory"))
  | some text => ofSheetText csv text

end SparseMatrix
