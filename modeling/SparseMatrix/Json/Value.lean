import SparseMatrix.Text.FloatText

/-!
# JSON values

A `Json.Value` is a JSON document as written or read. Numbers keep their kind: a
nonnegative integer, a negative integer, or a binary float of a given format, so that a
float is written with the shortest digits of its own precision. Object fields are kept
in document order, duplicates included; readers of a particular document decide what a
repeated name means.

`render` writes a value compactly: no blanks, `"` and `\` escaped, control characters as
`\n`-style or `\u00xx` escapes, every other character as itself. Floats use the document
layout (`FloatLayout.document`); a NaN or an infinity is written `null`.
-/

namespace SparseMatrix.Json

/-- A JSON number, by kind. -/
inductive Number where
  /-- A nonnegative integer. -/
  | nat (n : Nat)
  /-- The negative integer `-n`. -/
  | negative (n : Nat)
  /-- The float of `format` with bit pattern `bits`. -/
  | float (format : Text.BinaryFormat) (bits : Nat)
  deriving DecidableEq, Repr

/-- A JSON value. -/
inductive Value where
  | null
  | bool (b : Bool)
  | number (n : Number)
  | string (s : String)
  | array (items : List Value)
  | object (fields : List (String × Value))
  deriving Repr

/-- The integer `i` as a number. -/
def Number.ofInt (i : Int) : Number :=
  if i < 0 then .negative i.natAbs else .nat i.toNat

/-- The text of a number. -/
def Number.render : Number → String
  | .nat n => toString n
  | .negative n => "-" ++ toString n
  | .float f bits =>
    match f.decode bits with
    | .finite .. => f.text Text.FloatLayout.document bits
    | _ => "null"

/-- The hexadecimal digit of a value below sixteen. -/
def hexDigit (n : Nat) : Char :=
  if n < 10 then Char.ofNat (48 + n) else Char.ofNat (87 + n)

/-- The escaped form of one character inside a string. -/
def escapeChar (c : Char) : List Char :=
  if c = '"' then ['\\', '"']
  else if c = '\\' then ['\\', '\\']
  else if c = '\n' then ['\\', 'n']
  else if c = '\r' then ['\\', 'r']
  else if c = '\t' then ['\\', 't']
  else if c.toNat = 8 then ['\\', 'b']
  else if c.toNat = 12 then ['\\', 'f']
  else if c.toNat < 0x20 then ['\\', 'u', '0', '0', hexDigit (c.toNat / 16), hexDigit (c.toNat % 16)]
  else [c]

/-- A string in quotes, escaped. -/
def quote (s : String) : String :=
  "\"" ++ String.ofList (s.toList.flatMap escapeChar) ++ "\""

mutual

/-- The compact text of a value. -/
def Value.render : Value → String
  | .null => "null"
  | .bool b => if b then "true" else "false"
  | .number n => n.render
  | .string s => quote s
  | .array items => "[" ++ renderItems items ++ "]"
  | .object fields => "\x7b" ++ renderFields fields ++ "\x7d"

/-- The items of an array, separated by commas. -/
def renderItems : List Value → String
  | [] => ""
  | [v] => v.render
  | v :: rest => v.render ++ "," ++ renderItems rest

/-- The fields of an object, separated by commas. -/
def renderFields : List (String × Value) → String
  | [] => ""
  | [(k, v)] => quote k ++ ":" ++ v.render
  | (k, v) :: rest => quote k ++ ":" ++ v.render ++ "," ++ renderFields rest

end

/-- The value of a field of an object: the last one of that name. -/
def Value.field? (v : Value) (name : String) : Option Value :=
  match v with
  | .object fields => (fields.reverse.find? (·.1 == name)).map (·.2)
  | _ => none

end SparseMatrix.Json
