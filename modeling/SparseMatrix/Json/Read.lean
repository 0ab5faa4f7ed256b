import SparseMatrix.Json.Value

/-!
# Reading JSON

`Json.parse` reads a whole document: one value between optional blanks (space, tab, line
feed, carriage return). The grammar is strict JSON:

* numbers have no leading zeros, a point needs digits on both sides, an exponent needs
  digits; an integer is kept as an integer when it fits 64 bits (`-0` is the float
  `-0.0`); any other number becomes a double by scaling a 64-bit significand with one
  rounded step (`readNumber`), and one that overflows is refused;
* strings refuse raw control characters, unknown escapes and unpaired surrogates;
* arrays and objects nest at most 127 deep and refuse trailing commas.

Every failure is a reason in words; documents are refused as a whole.

A `Library` is a reader and writer of documents as the persistence of matrices uses one;
`standard` is the one this module gives, and `Library.ReadsBack` names the round trip the
persistence assumes of a library.
-/

namespace SparseMatrix.Json

/-- The blanks allowed between tokens. -/
def isSpace (c : Char) : Bool :=
  c == ' ' || c == '\t' || c == '\n' || c == '\r'

/-- Drops leading blanks. -/
def skipSpace (cs : List Char) : List Char :=
  cs.dropWhile isSpace

/-- The deepest nesting of arrays and objects a document may have. -/
def depthLimit : Nat := 127

/-- The value of a hexadecimal digit. -/
def hexValue? (c : Char) : Option Nat :=
  if c.isDigit then some (c.toNat - 48)
  else if 'a' ≤ c ∧ c ≤ 'f' then some (c.toNat - 87)
  else if 'A' ≤ c ∧ c ≤ 'F' then some (c.toNat - 55)
  else none

/-- Four hexadecimal digits at the front, and the rest. -/
def readHex4 (cs : List Char) : Except String (Nat × List Char) :=
  match cs with
  | a :: b :: c :: d :: rest =>
    match hexValue? a, hexValue? b, hexValue? c, hexValue? d with
    | some w, some x, some y, some z => pure (((w * 16 + x) * 16 + y) * 16 + z, rest)
    | _, _, _, _ => .error "invalid escape"
  | _ => .error "EOF while parsing a string"

/-- The character of a `\u` escape whose four digits are at the front, a surrogate pair
taking a second escape. -/
def readUnicodeEscape (cs : List Char) : Except String (Char × List Char) := do
  let (n, rest) ← readHex4 cs
  if 0xD800 ≤ n ∧ n < 0xDC00 then
    match rest with
    | '\\' :: 'u' :: more =>
      let (m, rest) ← readHex4 more
      if 0xDC00 ≤ m ∧ m < 0xE000 then
        pure (Char.ofNat (0x10000 + (n - 0xD800) * 0x400 + (m - 0xDC00)), rest)
      else .error "lone leading surrogate in hex escape"
    | _ => .error "lone leading surrogate in hex escape"
  else if 0xDC00 ≤ n ∧ n < 0xE000 then .error "lone trailing surrogate in hex escape"
  else pure (Char.ofNat n, rest)

/-- Reads the rest of a string after its opening quote. -/
def readString (fuel : Nat) (acc : List Char) (cs : List Char) : Except String (String × List Char) :=
  match fuel with
  | 0 => .error "EOF while parsing a string"
  | fuel + 1 =>
    match cs with
    | [] => .error "EOF while parsing a string"
    | '"' :: rest => pure (String.ofList acc.reverse, rest)
    | '\\' :: e :: rest =>
      let simple := match e with
        | '"' => some '"'
        | '\\' => some '\\'
        | '/' => some '/'
        | 'b' => some (Char.ofNat 8)
        | 'f' => some (Char.ofNat 12)
        | 'n' => some '\n'
        | 'r' => some '\r'
        | 't' => some '\t'
        | _ => none
      match simple with
      | some c => readString fuel (c :: acc) rest
      | none =>
        if e = 'u' then do
          let (c, rest) ← readUnicodeEscape rest
          readString fuel (c :: acc) rest
        else .error "invalid escape"
    | ['\\'] => .error "EOF while parsing a string"
    | c :: rest =>
      if c.toNat < 0x20 then .error "control character while parsing a string"
      else readString fuel (c :: acc) rest

/-- The value of a list of ASCII digits. -/
def digitsNat (cs : List Char) : Nat :=
  cs.foldl (fun acc c => acc * 10 + (c.toNat - 48)) 0

/-- Appends digits to a significand of at most 64 bits, stopping before the first digit
that would make it overflow: the new significand and the number of digits taken. -/
def accumulate (sig : Nat) : List Char → Nat × Nat
  | [] => (sig, 0)
  | c :: rest =>
    let next := sig * 10 + (c.toNat - 48)
    if next > Text.wordMax then (sig, 0)
    else
      let (s, n) := accumulate next rest
      (s, n + 1)

/-- The largest exponent the reader counts in. -/
def exponentMax : Nat := Nat.pow 2 31 - 1

/-- The double nearest to `10^e`, from the table of powers the reader scales by. -/
def powerOfTen (e : Nat) : Nat :=
  Text.BinaryFormat.double.round false (Nat.pow 10 e) 1

/-- The magnitude of a finite double as a numerator and a denominator. -/
def magnitude (bits : Nat) : Nat × Nat :=
  match Text.BinaryFormat.double.decode bits with
  | .finite _ m e => (m * Nat.pow 2 e.toNat, Nat.pow 2 (-e).toNat)
  | _ => (0, 1)

/-- The rounded product of two nonnegative finite doubles. -/
def timesDouble (x y : Nat) : Nat :=
  let (a, b) := magnitude x
  let (c, d) := magnitude y
  Text.BinaryFormat.double.round false (a * c) (b * d)

/-- The rounded quotient of two nonnegative finite doubles. -/
def overDouble (x y : Nat) : Nat :=
  let (a, b) := magnitude x
  let (c, d) := magnitude y
  Text.BinaryFormat.double.round false (a * d) (b * c)

/-- Scales a nonnegative double by `10^exponent` as the reader does: one rounded product
or quotient with the tabled power when `|exponent| ≤ 308`. Beyond the table a zero stays
zero, a positive exponent is out of range, and a negative one divides by `1e308` and
scales again. A product that rounds to infinity is out of range. This is not always the
double nearest to the decimal value: the significand and the power are each rounded
first. -/
def scaleByTen (f : Nat) (exponent : Int) : Except String Nat :=
  if h : 0 ≤ exponent then
    if exponent ≤ 308 then
      let g := timesDouble f (powerOfTen exponent.toNat)
      if g = Text.BinaryFormat.double.infinityBits false then .error "number out of range"
      else pure g
    else if f = 0 then pure 0 else .error "number out of range"
  else if h' : -308 ≤ exponent then pure (overDouble f (powerOfTen (-exponent).toNat))
  else if f = 0 then pure 0
  else scaleByTen (overDouble f (powerOfTen 308)) (exponent + 308)
termination_by (-exponent).toNat
decreasing_by omega

/-- The double of a significand and a decimal exponent, with a sign. -/
def fromParts (negative : Bool) (sig : Nat) (exponent : Int) : Except String Number := do
  let f ← scaleByTen (Text.BinaryFormat.double.round false sig 1) exponent
  pure (.float .double (if negative then f + Text.BinaryFormat.double.zeroBits true else f))

/-- A leading minus sign, and the rest. -/
def readSign (cs : List Char) : Bool × List Char :=
  match cs with
  | '-' :: rest => (true, rest)
  | _ => (false, cs)

/-- An integer without point or exponent: a nonnegative one as itself, a negative one
down to `-2^63`, and `-0` or a lower one as a double. -/
def integerNumber (negative : Bool) (sig : Nat) : Except String Number :=
  if !negative then pure (.nat sig)
  else if sig = 0 ∨ sig > Nat.pow 2 63 then fromParts true sig 0
  else pure (.negative sig)

/-- The number of a significand and a decimal exponent: a double when the text had a point
or dropped digits, an integer otherwise. -/
def numberOf (negative : Bool) (sig : Nat) (exponent : Int) (isFloat : Bool) :
    Except String Number :=
  if isFloat then fromParts negative sig exponent else integerNumber negative sig

/-- The fraction after the integer part, if a point follows it: its digits go into the
significand as far as it holds them, and the exponent counts down for each one taken. -/
def readFraction (sig dropped : Nat) (cs : List Char) :
    Except String (Nat × Int × Bool × List Char) :=
  match cs with
  | '.' :: r =>
    let ds := r.takeWhile Char.isDigit
    if ds.isEmpty then .error "invalid number"
    else
      let (sig', taken') := accumulate sig ds
      pure (sig', (dropped : Int) - taken', true, r.dropWhile Char.isDigit)
  | _ => pure (sig, (dropped : Int), false, cs)

/-- The sign of an exponent, a minus or a plus, and the rest. -/
def readExponentSign (cs : List Char) : Bool × List Char :=
  match cs with
  | '-' :: t => (true, t)
  | '+' :: t => (false, t)
  | _ => (false, cs)

/-- The number of a significand with the exponent digits `ds`: no digits is no number; an
exponent past `2^31 - 1` makes a zero, or is out of range when positive and the
significand is not zero; any other exponent is added to the one the digits left, clamped
to 32 bits. -/
def exponentNumber (negative : Bool) (sig : Nat) (exponent : Int) (expNegative : Bool)
    (ds : List Char) : Except String Number :=
  if ds.isEmpty then .error "invalid number"
  else
    let x := digitsNat ds
    if x > exponentMax then
      if sig ≠ 0 ∧ !expNegative then .error "number out of range"
      else pure (.float .double (Text.BinaryFormat.double.zeroBits negative))
    else
      let total := if expNegative then exponent - x else exponent + x
      fromParts negative sig (max (-(exponentMax : Int) - 1) (min exponentMax total))

/-- The exponent after the digits, if an `e` follows them, and then the number. -/
def readExponent (negative : Bool) (sig : Nat) (exponent : Int) (isFloat : Bool)
    (cs : List Char) : Except String (Number × List Char) :=
  match cs with
  | e :: r =>
    if e = 'e' ∨ e = 'E' then
      let (expNegative, r) := readExponentSign r
      (·, r.dropWhile Char.isDigit) <$>
        exponentNumber negative sig exponent expNegative (r.takeWhile Char.isDigit)
    else (·, cs) <$> numberOf negative sig exponent isFloat
  | [] => (·, []) <$> numberOf negative sig exponent isFloat

/-- Reads a number. Its digits go into a significand of at most 64 bits: digits of the
integer part past that are dropped and counted in the exponent, later digits of the
fraction are dropped (`readFraction`). An integer that fits is kept as an integer;
otherwise the significand is scaled by its exponent (`readExponent`, `scaleByTen`). -/
def readNumber (cs : List Char) : Except String (Number × List Char) := do
  let (negative, cs) := readSign cs
  let whole := cs.takeWhile Char.isDigit
  if whole.isEmpty then throw "invalid number"
  if whole.length > 1 ∧ whole.head? = some '0' then throw "invalid number"
  let (sig, taken) := accumulate 0 whole
  let dropped := whole.length - taken
  let (sig, exponent, hasPoint, rest) ← readFraction sig dropped (cs.dropWhile Char.isDigit)
  readExponent negative sig exponent (hasPoint || decide (dropped > 0)) rest

mutual

/-- Reads a value at nesting depth `depth`. -/
def readValue (fuel depth : Nat) (cs : List Char) : Except String (Value × List Char) :=
  match fuel with
  | 0 => .error "recursion limit exceeded"
  | fuel + 1 =>
    match skipSpace cs with
    | 'n' :: 'u' :: 'l' :: 'l' :: rest => pure (.null, rest)
    | 't' :: 'r' :: 'u' :: 'e' :: rest => pure (.bool true, rest)
    | 'f' :: 'a' :: 'l' :: 's' :: 'e' :: rest => pure (.bool false, rest)
    | '"' :: rest => do
      let (s, rest) ← readString rest.length [] rest
      pure (.string s, rest)
    | '[' :: rest =>
      if depth + 1 > depthLimit then .error "recursion limit exceeded"
      else do
        let (items, rest) ← readItems fuel (depth + 1) [] rest
        pure (.array items, rest)
    | '\x7b' :: rest =>
      if depth + 1 > depthLimit then .error "recursion limit exceeded"
      else do
        let (fields, rest) ← readFields fuel (depth + 1) [] rest
        pure (.object fields, rest)
    | [] => .error "EOF while parsing a value"
    | c :: rest =>
      if c = '-' ∨ c.isDigit then do
        let (n, rest) ← readNumber (c :: rest)
        pure (.number n, rest)
      else .error "expected value"

/-- Reads the items of an array after `[` or after a comma; `acc` holds the items so
far, last first. -/
def readItems (fuel depth : Nat) (acc : List Value) (cs : List Char) :
    Except String (List Value × List Char) :=
  match fuel with
  | 0 => .error "recursion limit exceeded"
  | fuel + 1 =>
    let cs := skipSpace cs
    match acc, cs with
    | [], ']' :: rest => pure ([], rest)
    | _, _ => do
      let (v, rest) ← readValue fuel depth cs
      match skipSpace rest with
      | ',' :: rest => readItems fuel depth (v :: acc) rest
      | ']' :: rest => pure ((v :: acc).reverse, rest)
      | _ => .error "expected , or ]"

/-- Reads the fields of an object after its opening brace or after a comma; `acc` holds
the fields so far, last first. -/
def readFields (fuel depth : Nat) (acc : List (String × Value)) (cs : List Char) :
    Except String (List (String × Value) × List Char) :=
  match fuel with
  | 0 => .error "recursion limit exceeded"
  | fuel + 1 =>
    let cs := skipSpace cs
    match acc, cs with
    | [], c :: rest =>
      if c = '\x7d' then pure ([], rest) else readField fuel depth acc (c :: rest)
    | _, _ => readField fuel depth acc cs

/-- Reads one field `"name": value` and what follows it. -/
def readField (fuel depth : Nat) (acc : List (String × Value)) (cs : List Char) :
    Except String (List (String × Value) × List Char) :=
  match fuel with
  | 0 => .error "recursion limit exceeded"
  | fuel + 1 =>
    match cs with
    | '"' :: rest => do
      let (name, rest) ← readString rest.length [] rest
      match skipSpace rest with
      | ':' :: rest => do
        let (v, rest) ← readValue fuel depth rest
        match skipSpace rest with
        | ',' :: rest => readFields fuel depth ((name, v) :: acc) rest
        | c :: rest =>
          if c = '\x7d' then pure (((name, v) :: acc).reverse, rest)
          else .error "expected , or end of object"
        | [] => .error "EOF while parsing an object"
      | _ => .error "expected :"
    | _ => .error "key must be a string"

end

/-- Reads a whole document. -/
def parse (s : String) : Except String Value := do
  let cs := s.toList
  let (v, rest) ← readValue (4 * cs.length + 4) 0 cs
  if (skipSpace rest).isEmpty then pure v else throw "trailing characters"

/-! ## Skipping values

A record reader does not read the values of fields it does not know: it only checks
their grammar. Numbers are not converted, so `1e400` passes; escapes are checked for
form but not decoded, so a lone surrogate passes; and nesting has no limit. -/

/-- Skips the rest of a string after its opening quote: raw control characters and
malformed escapes are refused, `\u` needs four hexadecimal digits. -/
def skipString : List Char → Except String (List Char)
  | [] => .error "EOF while parsing a string"
  | '"' :: rest => pure rest
  | '\\' :: e :: rest =>
    if e = '"' ∨ e = '\\' ∨ e = '/' ∨ e = 'b' ∨ e = 'f' ∨ e = 'n' ∨ e = 'r' ∨ e = 't' then
      skipString rest
    else if e = 'u' then
      match rest with
      | a :: b :: c :: d :: more =>
        if (hexValue? a).isSome ∧ (hexValue? b).isSome ∧ (hexValue? c).isSome ∧
            (hexValue? d).isSome then skipString more
        else .error "invalid escape"
      | _ => .error "EOF while parsing a string"
    else .error "invalid escape"
  | ['\\'] => .error "EOF while parsing a string"
  | c :: rest =>
    if c.toNat < 0x20 then .error "control character while parsing a string"
    else skipString rest

/-- Skips a number after its optional minus sign: one `0` or digits without a leading
zero, then an optional fraction and an optional exponent, each with digits. -/
def skipNumber (cs : List Char) : Except String (List Char) := do
  let rest ← match cs with
    | '0' :: rest =>
      match rest with
      | c :: _ => if c.isDigit then Except.error "invalid number" else pure rest
      | [] => pure rest
    | c :: rest => if c.isDigit then pure (rest.dropWhile Char.isDigit) else .error "invalid number"
    | [] => .error "invalid number"
  let rest ← match rest with
    | '.' :: r =>
      if (r.takeWhile Char.isDigit).isEmpty then Except.error "invalid number"
      else pure (r.dropWhile Char.isDigit)
    | _ => pure rest
  match rest with
  | e :: r =>
    if e = 'e' ∨ e = 'E' then
      let r := match r with
        | '+' :: t => t
        | '-' :: t => t
        | _ => r
      if (r.takeWhile Char.isDigit).isEmpty then throw "invalid number"
      else pure (r.dropWhile Char.isDigit)
    else pure rest
  | [] => pure rest

/-- Skips a scalar at the front: a literal, a number or a string. -/
def skipScalar (cs : List Char) : Except String (List Char) :=
  match cs with
  | 'n' :: 'u' :: 'l' :: 'l' :: rest => pure rest
  | 't' :: 'r' :: 'u' :: 'e' :: rest => pure rest
  | 'f' :: 'a' :: 'l' :: 's' :: 'e' :: rest => pure rest
  | '"' :: rest => skipString rest
  | '-' :: rest => skipNumber rest
  | c :: rest => if c.isDigit then skipNumber (c :: rest) else .error "expected value"
  | [] => .error "EOF while parsing a value"

/-- Skips an object key and its colon. -/
def skipKey (cs : List Char) : Except String (List Char) := do
  match skipSpace cs with
  | '"' :: rest =>
    match skipSpace (← skipString rest) with
    | ':' :: rest => pure rest
    | _ => throw "expected :"
  | _ => throw "key must be a string"

/-- Where the skipping loop stands. -/
inductive SkipState where
  /-- A value is due. -/
  | value
  /-- A bracket was just opened: a value, or the closing bracket, is due. -/
  | opened
  /-- A value just ended: a comma or a closing bracket is due, unless nothing is pending. -/
  | ended

/-- Skips one value. `pending` holds the brackets opened and not yet closed, innermost
first; the loop ends when a value ends with nothing pending. Each round consumes input. -/
def skipLoop (fuel : Nat) (state : SkipState) (pending : List Char) (cs : List Char) :
    Except String (List Char) :=
  match fuel with
  | 0 => .error "EOF while parsing a value"
  | fuel + 1 =>
    match state with
    | .value =>
      match skipSpace cs with
      | '[' :: rest => skipLoop fuel .opened ('[' :: pending) rest
      | '\x7b' :: rest => skipLoop fuel .opened ('\x7b' :: pending) rest
      | cs => do skipLoop fuel .ended pending (← skipScalar cs)
    | .opened =>
      match pending, skipSpace cs with
      | '[' :: outer, ']' :: rest => skipLoop fuel .ended outer rest
      | '\x7b' :: outer, '\x7d' :: rest => skipLoop fuel .ended outer rest
      | '\x7b' :: _, cs => do skipLoop fuel .value pending (← skipKey cs)
      | _, cs => skipLoop fuel .value pending cs
    | .ended =>
      match pending, skipSpace cs with
      | [], cs => pure cs
      | '[' :: outer, ']' :: rest => skipLoop fuel .ended outer rest
      | '\x7b' :: outer, '\x7d' :: rest => skipLoop fuel .ended outer rest
      | '\x7b' :: _, ',' :: rest => do skipLoop fuel .value pending (← skipKey rest)
      | _, ',' :: rest => skipLoop fuel .value pending rest
      | '[' :: _, _ => .error "expected , or ]"
      | _, _ => .error "expected , or end of object"

/-- Skips one value at the front. -/
def skipValue (cs : List Char) : Except String (List Char) :=
  skipLoop (2 * cs.length + 2) .value [] cs

/-! ## Records -/

/-- A document read as a record: the known fields of an object with their values, in
document order, or the items of an array. -/
inductive Record where
  | fields (fields : List (String × Value))
  | items (items : List Value)

/-- Reads the members of a record object after its opening brace or a comma: known
fields are read in full (nested inside the object), the others skipped. `acc` holds the
known fields so far, last first. -/
def readMembers (known : List String) (fuel : Nat) (first : Bool)
    (acc : List (String × Value)) (cs : List Char) :
    Except String (List (String × Value) × List Char) :=
  match fuel with
  | 0 => .error "EOF while parsing an object"
  | fuel + 1 =>
    match first, skipSpace cs with
    | true, '\x7d' :: rest => pure ([], rest)
    | _, '"' :: rest => do
      let (name, rest) ← readString rest.length [] rest
      let rest ← match skipSpace rest with
        | ':' :: rest => pure rest
        | _ => Except.error "expected :"
      let (acc, rest) ← if known.contains name then do
          let (v, rest) ← readValue (4 * rest.length + 4) 1 rest
          pure ((name, v) :: acc, rest)
        else do pure (acc, ← skipValue rest)
      match skipSpace rest with
      | ',' :: rest => readMembers known fuel false acc rest
      | '\x7d' :: rest => pure (acc.reverse, rest)
      | _ => .error "expected , or end of object"
    | _, _ => .error "key must be a string"

/-- Reads a whole document as a record with the fields `known`: an object, whose other
fields are only checked for grammar, or an array, read in full. -/
def readRecord (known : List String) (s : String) : Except String Record := do
  let cs := s.toList
  match skipSpace cs with
  | '\x7b' :: rest =>
    let (fields, rest) ← readMembers known cs.length true [] rest
    if (skipSpace rest).isEmpty then pure (.fields fields) else throw "trailing characters"
  | '[' :: _ =>
    match ← parse s with
    | .array items => pure (.items items)
    | _ => throw "expected an array"
  | _ => throw "invalid type"

/-! ## Libraries -/

/-- A JSON library, as the persistence of matrices uses one: it writes a value as text, and
reads a text as a record with the given known fields. -/
structure Library where
  render : Value → String
  readRecord : List String → String → Except String Record

/-- The reader and writer of this module. -/
def standard : Library := ⟨Value.render, readRecord⟩

/-- The round trip assumed of a library at one object: the object it writes is read back as the
record of its fields. -/
def Library.ReadsBack (lib : Library) (known : List String) (fields : List (String × Value)) :
    Prop :=
  lib.readRecord known (lib.render (.object fields)) = .ok (.fields fields)

end SparseMatrix.Json
