import SparseMatrix.Text.Shortest
import SparseMatrix.Text.Integer

/-!
# Float text

Writing: a finite float is written with its shortest digits (`shortest`), chosen and
placed by a `FloatLayout`. Two layouts are in use: `FloatLayout.document`, the layout of
numbers in JSON documents, and `FloatLayout.plain`, the text of a value on its own and
in sheets. They also break a tie between two equally near shortest decimals differently:
documents take the even last digit, plain text the larger magnitude. NaN and the
infinities are written `NaN`, `inf` and `-inf`.

Reading: an optional sign, then `inf`, `infinity` or `nan` in any case, or a decimal with
an optional point and an optional exponent (`e` or `E`, an optional sign, digits), with
at least one digit before the exponent. Nothing may precede or follow. The value is the
nearest float of the format, ties to even (`BinaryFormat.round`).
-/

namespace SparseMatrix.Text

/-- Where a float's digits go. A value `d.ddd × 10^x` is written positionally when `x` is
in `positional` (always, for `none`), else as `d.ddde<x>`. -/
structure FloatLayout where
  /-- The decimal exponents `[low, high)` written positionally. -/
  positional : Option (Int × Int)
  /-- What follows an integral value written positionally. -/
  integralSuffix : String
  /-- The sign written before a nonnegative exponent. -/
  exponentSign : String
  /-- Which of two equally near shortest decimals is written. -/
  tie : Tie

namespace FloatLayout

/-- Numbers in JSON documents: positional from `1e-5` up to below `1e16`, integral values
keep `.0`, otherwise `1e+16`, `1.5e-7`; ties to the even digit. -/
def document : FloatLayout := ⟨some (-5, 16), ".0", "+", .even⟩

/-- A value on its own and in sheets: always positional, integral values without a
point; ties to the larger magnitude. -/
def plain : FloatLayout := ⟨none, "", "", .up⟩

/-- `n` zero digits. -/
def zeros (n : Nat) : String :=
  String.ofList (List.replicate n '0')

/-- The text of the decimal `d`, with a minus sign when `negative`. -/
def render (l : FloatLayout) (negative : Bool) (d : Decimal) : String :=
  let sign := if negative then "-" else ""
  let ds := toString d.digits
  let len := ds.length
  let point : Int := len + d.exponent
  let x := point - 1
  let positional := match l.positional with
    | none => true
    | some (lo, hi) => lo ≤ x ∧ x < hi
  if positional then
    if 0 ≤ d.exponent then sign ++ ds ++ zeros d.exponent.toNat ++ l.integralSuffix
    else if 0 < point then
      sign ++ String.ofList (ds.toList.take point.toNat) ++ "." ++
        String.ofList (ds.toList.drop point.toNat)
    else sign ++ "0." ++ zeros (-point).toNat ++ ds
  else
    let rest := ds.toList.drop 1
    sign ++ String.ofList (ds.toList.take 1) ++ (if rest.isEmpty then "" else "." ++ String.ofList rest) ++
      "e" ++ (if 0 ≤ x then l.exponentSign else "") ++ toString x

example : document.render false ⟨1, 16⟩ = "1e+16" ∧ document.render false ⟨1, 15⟩ = "1000000000000000.0" ∧
    document.render true ⟨0, 0⟩ = "-0.0" ∧ document.render false ⟨1, -5⟩ = "0.00001" ∧
    document.render false ⟨15, -8⟩ = "1.5e-7" ∧ plain.render false ⟨1, 3⟩ = "1000" ∧
    plain.render true ⟨0, 0⟩ = "-0" ∧ plain.render false ⟨25, -1⟩ = "2.5" := by
  decide

end FloatLayout

namespace BinaryFormat

/-- The text of the float with bit pattern `bits`. -/
def text (f : BinaryFormat) (l : FloatLayout) (bits : Nat) : String :=
  match f.decode bits with
  | .nan => "NaN"
  | .infinite negative => if negative then "-inf" else "inf"
  | .finite negative 0 _ => l.render negative ⟨0, 0⟩
  | .finite negative m e => l.render negative (shortest l.tie f m e)

/-- The bit pattern of NaN. -/
def nanBits (f : BinaryFormat) : Nat :=
  f.topExponent * Nat.pow 2 (f.precision - 1) + Nat.pow 2 (f.precision - 2)

/-- The float nearest to `mantissa · 10^exponent`. Values of at least `10^310` are
infinite and values below `10^-330` are zero in both formats, so those are decided
without building their powers of ten. -/
def ofDecimal (f : BinaryFormat) (negative : Bool) (mantissa : Nat) (exponent : Int) : Nat :=
  let digits : Int := (toString mantissa).length
  if mantissa = 0 then f.zeroBits negative
  else if 310 ≤ exponent + digits - 1 then f.infinityBits negative
  else if exponent + digits ≤ -330 then f.zeroBits negative
  else if 0 ≤ exponent then f.round negative (mantissa * Nat.pow 10 exponent.toNat) 1
  else f.round negative mantissa (Nat.pow 10 (-exponent).toNat)

end BinaryFormat

/-- Splits off a leading run of ASCII digits. -/
def spanDigits (cs : List Char) : List Char × List Char :=
  (cs.takeWhile Char.isDigit, cs.dropWhile Char.isDigit)

/-- The lower-case form of ASCII letters. -/
def lowerAscii (cs : List Char) : List Char :=
  cs.map Char.toLower

/-- Reads a decimal float: the parts of `12.5e-3` are the digits `125` and the exponent `-4`. -/
def readDecimalParts? (cs : List Char) : Option (Nat × Int) :=
  let (whole, rest) := spanDigits cs
  let (fraction, rest) := match rest with
    | '.' :: r => spanDigits r
    | _ => ([], rest)
  if whole.isEmpty ∧ fraction.isEmpty then none
  else
    let mantissa := (whole ++ fraction).foldl (fun acc c => acc * 10 + (c.toNat - '0'.toNat)) 0
    let scale : Int := -(fraction.length : Int)
    match rest with
    | [] => some (mantissa, scale)
    | e :: r =>
      if e = 'e' ∨ e = 'E' then
        let (negative, ds) := match r with
          | '-' :: t => (true, t)
          | '+' :: t => (false, t)
          | _ => (false, r)
        (digitsValue? ds).map fun n => (mantissa, scale + (if negative then -(n : Int) else n))
      else none

namespace BinaryFormat

/-- Reads a float of the format: the bit pattern, or `none` when the text is not a float. -/
def read? (f : BinaryFormat) (cs : List Char) : Option Nat :=
  let (negative, body) := match cs with
    | '-' :: r => (true, r)
    | '+' :: r => (false, r)
    | _ => (false, cs)
  let word := lowerAscii body
  if word = "inf".toList ∨ word = "infinity".toList then some (f.infinityBits negative)
  else if word = "nan".toList then
    some (if negative then f.zeroBits true + f.nanBits else f.nanBits)
  else (readDecimalParts? body).map fun (m, x) => f.ofDecimal negative m x

example : double.read? "0.1".toList = some 0x3FB999999999999A ∧
    double.read? "-inf".toList = some 0xFFF0000000000000 ∧ double.read? "1e".toList = none ∧
    double.read? ".5".toList = some 0x3FE0000000000000 ∧ double.read? "5.".toList = some 0x4014000000000000 ∧
    double.read? ".".toList = none := by
  decide +kernel

end BinaryFormat

end SparseMatrix.Text
