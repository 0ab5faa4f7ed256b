import SparseMatrix.Error
import SparseMatrix.Text.Blank
import SparseMatrix.Text.Integer

/-!
# Cell keys

A `Key` is the `(row, column)` coordinate of a cell. Keys are ordered by row, then by
column; this is the order in which cells are listed.

A key is written `row,column` (`Key.text`). `Key.parse` reads that form back: it splits at
the first comma, trims blanks on both sides, and reads each side as an index. The largest
word, `2^64 - 1`, is refused on both axes, since the size one past it does not exist.
-/

namespace SparseMatrix

/-- The coordinate of a cell. -/
structure Key where
  row : Nat
  col : Nat
  deriving DecidableEq, Repr

namespace Key

/-- Row-major order: by row, then by column. -/
def before (a b : Key) : Bool :=
  a.row < b.row || (a.row == b.row && a.col < b.col)

/-- The text `row,column`. -/
def text (k : Key) : String :=
  toString k.row ++ "," ++ toString k.col

/-- Reads a key from its text, or refuses it with `invalidKey`. -/
def parse (s : String) : Except Error Key :=
  let cs := s.toList
  let invalid : Except Error Key := .error (.invalidKey s)
  match cs.idxOf? ',' with
  | none => invalid
  | some i =>
    match Text.readSize? (Text.trimChars (cs.take i)), Text.readSize? (Text.trimChars (cs.drop (i + 1))) with
    | some r, some c =>
      if r = Text.wordMax ∨ c = Text.wordMax then invalid else pure ⟨r, c⟩
    | _, _ => invalid

example : parse " 0 , 7" = .ok ⟨0, 7⟩ := by rfl
example : parse "1,2,3" = .error (.invalidKey "1,2,3") := by rfl
example : parse "+3,4" = .ok ⟨3, 4⟩ := by rfl

end Key

end SparseMatrix
