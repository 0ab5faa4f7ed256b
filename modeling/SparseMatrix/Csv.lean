/-!
# Comma-separated records

Writing: fields are separated by commas and a record ends with a line feed. A field that
holds a comma, a quote or a line break is quoted, its quotes doubled; a record made of
one empty field is written `""`, so that it is not a blank line.

Reading: a record ends at a line feed or a carriage return, and blank lines are skipped.
A field that starts with a quote runs to the next quote that is not doubled; what follows
that quote up to the next comma or line break belongs to the field as written. A quote
inside an unquoted field is an ordinary character. At the end of the text the open
record ends, with an empty last field after a trailing comma.

A `Library` is a writer and reader of records as sheets use one; `standard` is the one of
this module, whose reader first drops a leading byte order mark, and `Library.ReadsBack`
names the round trip sheets assume of a library.
-/

namespace SparseMatrix.Csv

/-- The written form of one field. -/
def writeField (f : String) : String :=
  if f.toList.any fun c => c == ',' || c == '"' || c == '\n' || c == '\r' then
    "\"" ++ String.ofList (f.toList.flatMap fun c => if c == '"' then ['"', '"'] else [c]) ++ "\""
  else f

/-- The written form of a record, its line feed included. -/
def writeRecord (fields : List String) : String :=
  match fields with
  | [""] => "\"\"\n"
  | _ => ",".intercalate (fields.map writeField) ++ "\n"

/-- Where the reader is. -/
inductive Mode where
  | recordStart
  | fieldStart
  | inField
  | inQuotes
  /-- Just after a quote inside a quoted field. -/
  | afterQuote
  deriving DecidableEq, Repr

/-- What the reader holds: finished records (last first), the fields of the open record
(last first), the open field's characters (last first), and its mode. -/
structure Reader where
  records : List (List String)
  fields : List String
  field : List Char
  mode : Mode

namespace Reader

/-- Ends the open field. -/
def endField (r : Reader) : Reader :=
  { r with fields := String.ofList r.field.reverse :: r.fields, field := [] }

/-- Ends the open field and the open record. -/
def endRecord (r : Reader) : Reader :=
  let r := r.endField
  { r with records := r.fields.reverse :: r.records, fields := [], mode := .recordStart }

/-- Whether a character ends a record. -/
def isBreak (c : Char) : Bool :=
  c == '\n' || c == '\r'

/-- Takes one character. -/
def step (r : Reader) (c : Char) : Reader :=
  match r.mode with
  | .recordStart =>
    if isBreak c then r
    else if c == '"' then { r with mode := .inQuotes }
    else if c == ',' then { r.endField with mode := .fieldStart }
    else { r with field := [c], mode := .inField }
  | .fieldStart =>
    if c == '"' then { r with mode := .inQuotes }
    else if c == ',' then { r.endField with mode := .fieldStart }
    else if isBreak c then r.endRecord
    else { r with field := c :: r.field, mode := .inField }
  | .inField =>
    if c == ',' then { r.endField with mode := .fieldStart }
    else if isBreak c then r.endRecord
    else { r with field := c :: r.field }
  | .inQuotes =>
    if c == '"' then { r with mode := .afterQuote }
    else { r with field := c :: r.field }
  | .afterQuote =>
    if c == '"' then { r with field := c :: r.field, mode := .inQuotes }
    else if c == ',' then { r.endField with mode := .fieldStart }
    else if isBreak c then r.endRecord
    else { r with field := c :: r.field, mode := .inField }

/-- Ends the text. -/
def finish (r : Reader) : List (List String) :=
  match r.mode with
  | .recordStart => r.records.reverse
  | _ => r.endRecord.records.reverse

end Reader

/-- The records of a text. -/
def records (text : String) : List (List String) :=
  (text.toList.foldl Reader.step ⟨[], [], [], .recordStart⟩).finish

/-- The text without a leading byte order mark. -/
def dropByteOrderMark (text : String) : String :=
  match text.toList with
  | '\uFEFF' :: rest => String.ofList rest
  | _ => text

/-- A CSV library, as sheets use one: it writes a record as text, and reads a text as
records. -/
structure Library where
  writeRecord : List String → String
  records : String → List (List String)

/-- The writer and reader of this module, the reader dropping a leading byte order mark. -/
def standard : Library := ⟨writeRecord, fun text => records (dropByteOrderMark text)⟩

/-- The round trip assumed of a library at some records: written one after another, they are
read back as the same lists of fields. -/
def Library.ReadsBack (csv : Library) (recs : List (List String)) : Prop :=
  csv.records (String.join (recs.map csv.writeRecord)) = recs

example : records "1,,\n\n,2\r\n\"a\"\"b\",x" = [["1", "", ""], ["", "2"], ["a\"b", "x"]] := by decide
example : writeRecord ["1", ""] = "1,\n" ∧ writeRecord [""] = "\"\"\n" := by decide

end SparseMatrix.Csv
