import SparseMatrix.Word
import SparseMatrix.Fraction
import SparseMatrix.Json.Value
import SparseMatrix.Dense

/-!
# Element types

An `Element` is a value type a matrix can hold: checked arithmetic (`Arith`), the bytes a
value takes in a buffer (`Width`), and the forms the value takes outside a matrix.

* `typeName` names the type when an operation does not support it;
* `onDevice` says whether devices multiply the type (the two float types);
* `toJson` and `ofJson?` are the value in a JSON document: integers as integers, floats
  as numbers (a single-precision value widened to double), a fraction as the pair
  `[numerator, denominator]` with its terms as written;
* `text` and `read?` are the value in a sheet: integers in decimal, floats positionally
  with their shortest digits, a fraction as `n` or `n/d`. Reading a fraction reduces
  it, which may fault.
-/

namespace SparseMatrix

/-- A value type of matrices. -/
class Element (α : Type) extends Arith α, Width α where
  typeName : String
  onDevice : Bool
  toJson : α → Json.Value
  ofJson? : Json.Value → Option α
  text : α → String
  read? : String → Except Fault (Option α)

namespace Element

/-- The integer of a JSON number that is an integer. -/
def jsonInt? : Json.Value → Option Int
  | .number (.nat n) => some n
  | .number (.negative n) => some (-(n : Int))
  | _ => none

/-- The element form of a word type. -/
@[reducible] def ofWord (α : Type) [Word α] (name : String) (width : Nat) : Element α :=
  { Word.arith α with
    bytes := width
    typeName := name
    onDevice := false
    toJson := fun v => .number (Json.Number.ofInt (Word.toInt v))
    ofJson? := fun v => (jsonInt? v).bind fun i => if Word.fits α i then some (Word.ofInt i) else none
    text := fun v => toString (Word.toInt v)
    read? := fun s => pure ((Text.readInt? (Word.lo α) (Word.hi α) s.toList).map Word.ofInt) }

/-- The float of format `f` nearest to a JSON number, as a bit pattern: an integer is
rounded to the format, a double is rounded to it. -/
def floatOfJson? (f : Text.BinaryFormat) : Json.Value → Option Nat
  | .number (.nat n) => some (f.ofDecimal false n 0)
  | .number (.negative n) => some (f.ofDecimal true n 0)
  | .number (.float g bits) =>
    match g.decode bits with
    | .nan => some f.nanBits
    | .infinite negative => some (f.infinityBits negative)
    | .finite negative m e => some (f.round negative (m * Nat.pow 2 e.toNat) (Nat.pow 2 (-e).toNat))
  | _ => none

end Element

instance : Element Int64 := Element.ofWord Int64 "i64" 8
instance : Element Int32 := Element.ofWord Int32 "i32" 4
instance : Element UInt64 := Element.ofWord UInt64 "u64" 8
instance : Element UInt8 := Element.ofWord UInt8 "u8" 1

/-- The double with a bit pattern. -/
def Float.ofBitsNat (bits : Nat) : Float :=
  Float.ofBits (UInt64.ofNat bits)

/-- The single with a bit pattern. -/
def Float32.ofBitsNat (bits : Nat) : Float32 :=
  Float32.ofBits (UInt32.ofNat bits)

instance : Element Float :=
  { (inferInstance : Arith Float) with
    bytes := 8
    typeName := "f64"
    onDevice := true
    toJson := fun x => .number (.float .double x.toBits.toNat)
    ofJson? := fun v => (Element.floatOfJson? .double v).map Float.ofBitsNat
    text := fun x => Text.BinaryFormat.double.text .plain x.toBits.toNat
    read? := fun s => pure ((Text.BinaryFormat.double.read? s.toList).map Float.ofBitsNat) }

/-- The double of a single-precision value, exactly. -/
def Float32.widen (x : Float32) : Nat :=
  match Text.BinaryFormat.single.decode x.toBits.toNat with
  | .nan => Text.BinaryFormat.double.nanBits
  | .infinite negative => Text.BinaryFormat.double.infinityBits negative
  | .finite negative m e => Text.BinaryFormat.double.round negative (m * Nat.pow 2 e.toNat) (Nat.pow 2 (-e).toNat)

instance : Element Float32 :=
  { (inferInstance : Arith Float32) with
    bytes := 4
    typeName := "f32"
    onDevice := true
    toJson := fun x => .number (.float .double (Float32.widen x))
    ofJson? := fun v => (Element.floatOfJson? .single v).map Float32.ofBitsNat
    text := fun x => Text.BinaryFormat.single.text .plain x.toBits.toNat
    read? := fun s => pure ((Text.BinaryFormat.single.read? s.toList).map Float32.ofBitsNat) }

namespace Fraction

/-- The text `n`, or `n/d` when the denominator is not one. -/
def text (x : Fraction) : String :=
  if x.den.toInt = 1 then toString x.num.toInt
  else toString x.num.toInt ++ "/" ++ toString x.den.toInt

/-- Reads `n` or `n/d` (split at the first slash), each term a 64-bit integer and the
denominator not zero, and reduces the fraction. -/
def read? (s : String) : Except Fault (Option Fraction) :=
  let cs := s.toList
  let (numText, denText) := match cs.idxOf? '/' with
    | some i => (cs.take i, cs.drop (i + 1))
    | none => (cs, ['1'])
  let term := Text.readInt? (Word.lo Int64) (Word.hi Int64)
  match term numText, term denText with
  | some n, some d =>
    if d = 0 then pure none
    else (Fraction.new (Word.ofInt n) (Word.ofInt d)).map some
  | _, _ => pure none

/-- The fraction of a pair `[n, d]` of 64-bit integers with `d ≠ 0`, kept as written. -/
def ofJson? : Json.Value → Option Fraction
  | .array [n, d] =>
    match Element.jsonInt? n, Element.jsonInt? d with
    | some n, some d =>
      if Word.fits Int64 n ∧ Word.fits Int64 d ∧ d ≠ 0 then some ⟨Word.ofInt n, Word.ofInt d⟩
      else none
    | _, _ => none
  | _ => none

end Fraction

instance : Element Fraction :=
  { (inferInstance : Arith Fraction) with
    bytes := 16
    typeName := "num_rational::Ratio<i64>"
    onDevice := false
    toJson := fun x => .array [.number (Json.Number.ofInt x.num.toInt), .number (Json.Number.ofInt x.den.toInt)]
    ofJson? := Fraction.ofJson?
    text := Fraction.text
    read? := Fraction.read? }

end SparseMatrix
