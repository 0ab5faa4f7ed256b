import SparseMatrix.Basic
import SparseMatrix.Element
import SparseMatrix.Json.Read

/-!
# Matrix documents

A matrix document is the JSON object `{"rows":R,"columns":C,"cells":{...}}`, whose
`cells` map the key text `row,column` of each written cell to its value, in row-major
order (`toDocument`). Documents are written and read by a JSON library (`Json.Library`),
which is a parameter of both directions.

`ofDocument` reads a document back. The library reads the document as a whole first (with
`Json.standard`: it must be an object with the fields `rows`, `columns` (sizes) and `cells`
(an object), each exactly once, other fields being only checked for grammar; or an array of
those three values in that order). Any fault there is a JSON error. A repeated name in
`cells` keeps its first place and takes its last value. The cells are then taken in
document order: the key is parsed
(`invalidKey`), checked against the rows and then the columns (`indexOutOfRange`), and
its value read (a JSON error); the first failure wins. The size is the declared one.

A configuration document is `{"max_degree_of_parallelism":n}`, read back without
checking the degree (`Config.ofDocument`).
-/

namespace SparseMatrix

variable {α : Type} [Element α]

/-- The fields of a matrix's document: its size, and its cells under their key texts in
row-major order, each value in its JSON form. -/
def documentFields (m : SparseMatrix α) : List (String × Json.Value) :=
  [("rows", .number (.nat m.rowCount)), ("columns", .number (.nat m.colCount)),
    ("cells", .object (m.entries.map fun (k, v) => (k.text, Element.toJson v)))]

/-- The document of a matrix, written by a JSON library. -/
def toDocument (lib : Json.Library) (m : SparseMatrix α) : String :=
  lib.render (.object (documentFields m))

namespace Document

/-- A map from names to values in insertion order: writing a name again replaces its value
in place. -/
def merge (fields : List (String × Json.Value)) : List (String × Json.Value) :=
  fields.foldl (fun acc (k, v) =>
    if acc.any (·.1 == k) then acc.map fun (k', v') => if k' == k then (k, v) else (k', v')
    else acc ++ [(k, v)]) []

/-- A size field. -/
def size? : Json.Value → Option Nat
  | .number (.nat n) => some n
  | _ => none

/-- The cells field. -/
def cells? : Json.Value → Option (List (String × Json.Value))
  | .object fields => some (merge fields)
  | _ => none

/-- The names of a document's fields. -/
def fieldNames : List String := ["rows", "columns", "cells"]

/-- The three fields of a document read as an object: each at most once, and all there. -/
def fieldsOf (fields : List (String × Json.Value)) :
    Except String (Nat × Nat × List (String × Json.Value)) := do
  let step (acc : Option Nat × Option Nat × Option (List (String × Json.Value)))
      (field : String × Json.Value) :
      Except String (Option Nat × Option Nat × Option (List (String × Json.Value))) :=
    let (rows, cols, cells) := acc
    match field with
    | ("rows", v) =>
      if rows.isSome then .error "duplicate field rows"
      else (size? v).elim (.error "invalid type for rows") fun n => pure (some n, cols, cells)
    | ("columns", v) =>
      if cols.isSome then .error "duplicate field columns"
      else (size? v).elim (.error "invalid type for columns") fun n => pure (rows, some n, cells)
    | ("cells", v) =>
      if cells.isSome then .error "duplicate field cells"
      else (cells? v).elim (.error "invalid type for cells") fun c => pure (rows, cols, some c)
    | _ => pure acc
  let (rows, cols, cells) ← fields.foldlM step (none, none, none)
  match rows, cols, cells with
  | some r, some c, some m => pure (r, c, m)
  | none, _, _ => .error "missing field rows"
  | _, none, _ => .error "missing field columns"
  | _, _, none => .error "missing field cells"

/-- The size, the size and the cells of a document. -/
def parts : Json.Record → Except String (Nat × Nat × List (String × Json.Value))
  | .fields fields => fieldsOf fields
  | .items [r, c, m] =>
    match size? r, size? c, cells? m with
    | some r, some c, some m => pure (r, c, m)
    | _, _, _ => .error "invalid type"
  | .items _ => .error "invalid length"

end Document

/-- Reads a matrix from its document, through a JSON library. -/
def ofDocument [Host] (lib : Json.Library) (text : String) : Except Error (SparseMatrix α) := do
  let v ← (lib.readRecord Document.fieldNames text).mapError Error.json
  let (rows, cols, cells) ← (Document.parts v).mapError Error.json
  let start : SparseMatrix α := { (new : SparseMatrix α) with store := Store.withBounds rows cols }
  let step (m : SparseMatrix α) (cell : String × Json.Value) : Except Error (SparseMatrix α) := do
    let k ← Key.parse cell.1
    if rows ≤ k.row then throw (.indexOutOfRange .row k.row rows)
    if cols ≤ k.col then throw (.indexOutOfRange .column k.col cols)
    match Element.ofJson? cell.2 with
    | some x => pure (m.set k.row k.col x)
    | none => throw (.json "invalid value")
  cells.foldlM step start

/-- The document of a configuration. -/
def Config.toDocument (lib : Json.Library) (c : Config) : String :=
  lib.render (.object [("max_degree_of_parallelism", .number (.nat c.degree))])

/-- Reads a configuration from its document: an object with the size field
`max_degree_of_parallelism` exactly once, or a one-element array. -/
def Config.ofDocument (lib : Json.Library) (text : String) : Except Error Config := do
  let v ← (lib.readRecord ["max_degree_of_parallelism"] text).mapError Error.json
  let degree? : Except String Nat := match v with
    | .fields [(_, x)] => (Document.size? x).elim (.error "invalid type") pure
    | .fields [] => .error "missing field max_degree_of_parallelism"
    | .fields _ => .error "duplicate field max_degree_of_parallelism"
    | .items [x] => (Document.size? x).elim (.error "invalid type") pure
    | .items _ => .error "invalid length"
  let degree ← degree?.mapError Error.json
  return ⟨degree⟩

end SparseMatrix
