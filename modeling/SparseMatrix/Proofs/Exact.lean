import SparseMatrix.Arith
import SparseMatrix.Buffer
import SparseMatrix.Word
import Mathlib.Algebra.BigOperators.Group.List.Basic
import Mathlib.Algebra.Field.Rat
import Mathlib.Algebra.Group.Nat.Even
import Mathlib.Algebra.Ring.Parity
import Mathlib.Algebra.Ring.Int.Defs

/-!
# Exact element arithmetic

On integers and rationals the checked operations of `Arith` are the operations of a
commutative ring: they never fault, division aside, and values take no buffer space.
`ExactArith α` states this of an element type (`ExactDiv α` adds the division of a
field), and the algorithms' checked folds then compute ring expressions: `Arith.sum` is
the list sum (`sum_eq`) and `Arith.signed v k` is `(-1)^k * v` (`signed_eq`).

A word type computes the integers only while its results stay in range. An
`ExactReading α R` reads the values of `α` in a commutative ring `R` and says which
results fit: a sum or a product that fits is computed and reads the sum or product of the
readings. Exact arithmetic reads as itself with every result fitting
(`ExactArith.reading`); a word type reads as the integers, a result fitting when it lies in
the range (`Word.reading`).
-/

namespace SparseMatrix

/-- Checked element arithmetic that is the exact arithmetic of the commutative ring `α`,
with values that take no buffer space. -/
class ExactArith (α : Type) [CommRing α] [Arith α] [Width α] : Prop where
  zero_eq : (Arith.zero : α) = 0
  one_eq : (Arith.one : α) = 1
  add_eq : ∀ a b : α, Arith.add a b = pure (a + b)
  sub_eq : ∀ a b : α, Arith.sub a b = pure (a - b)
  mul_eq : ∀ a b : α, Arith.mul a b = pure (a * b)
  eq_iff : ∀ a b : α, Arith.eq a b = true ↔ a = b
  bytes_eq : Width.bytes α = 0

instance : ExactArith Int where
  zero_eq := rfl
  one_eq := rfl
  add_eq _ _ := rfl
  sub_eq _ _ := rfl
  mul_eq _ _ := rfl
  eq_iff a b := by simp [Arith.eq]
  bytes_eq := rfl

instance : ExactArith Rat where
  zero_eq := rfl
  one_eq := rfl
  add_eq _ _ := rfl
  sub_eq _ _ := rfl
  mul_eq _ _ := rfl
  eq_iff a b := by simp [Arith.eq]
  bytes_eq := rfl

/-- Checked division that is the exact division of the field `α` by a divisor other than
zero. -/
class ExactDiv (α : Type) [Field α] [Arith α] : Prop where
  div_eq : ∀ a b : α, b ≠ 0 → Arith.div a b = pure (a / b)

instance : ExactDiv Rat where
  div_eq _ _ hb := if_neg hb

namespace ExactArith

variable {α : Type} [CommRing α] [Arith α] [Width α] [ExactArith α]

theorem isZero_iff (a : α) : Arith.isZero a = true ↔ a = 0 := by
  rw [Arith.isZero, eq_iff, zero_eq]

theorem isZero_eq_false_iff (a : α) : Arith.isZero a = false ↔ a ≠ 0 := by
  rw [← Bool.not_eq_true, isZero_iff]

theorem foldlM_add (xs : List α) (acc : α) :
    xs.foldlM Arith.add acc = pure (acc + xs.sum) := by
  induction xs generalizing acc with
  | nil => simp
  | cons x xs ih =>
    rw [List.foldlM_cons, add_eq, List.sum_cons, ← add_assoc]
    exact ih (acc + x)

/-- A checked sum from zero is the list sum. -/
theorem sum_eq (xs : List α) : Arith.sum xs = pure xs.sum := by
  rw [Arith.sum, foldlM_add, zero_eq, zero_add]

/-- `signed v k` is `(-1)^k * v`. -/
theorem signed_eq (v : α) (k : Nat) : Arith.signed v k = pure ((-1) ^ k * v) := by
  unfold Arith.signed
  split
  · rename_i h
    rw [(Nat.even_iff.mpr h).neg_one_pow, one_mul]
  · rename_i h
    rw [sub_eq, zero_eq, (Nat.odd_iff.mpr (by omega)).neg_one_pow]
    simp

/-- Any number of values fits a buffer. -/
theorem fitsBuffer_eq (count : Nat) : fitsBuffer (Width.bytes α) count = pure () := by
  rw [bytes_eq]
  exact fitsBuffer_zero count

end ExactArith

/-! ## Readings of checked arithmetic -/

/-- A reading of the checked arithmetic of `α` in the commutative ring `R`: distinct values
read distinctly, zero reads zero, the element's own equality is equality of readings, and a
sum or a product whose reading `Fits` is computed without a fault. -/
structure ExactReading (α R : Type) [Arith α] [CommRing R] where
  val : α → R
  Fits : R → Prop
  val_injective : Function.Injective val
  val_zero : val Arith.zero = 0
  eq_iff : ∀ a b, Arith.eq a b = true ↔ val a = val b
  add_eq : ∀ a b, Fits (val a + val b) → ∃ c, Arith.add a b = pure c ∧ val c = val a + val b
  mul_eq : ∀ a b, Fits (val a * val b) → ∃ c, Arith.mul a b = pure c ∧ val c = val a * val b

namespace ExactReading

variable {α R : Type} [Arith α] [CommRing R] (V : ExactReading α R)

theorem isZero_iff (a : α) : Arith.isZero a = true ↔ V.val a = 0 := by
  rw [Arith.isZero, V.eq_iff, V.val_zero]

theorem isZero_eq_false_iff (a : α) : Arith.isZero a = false ↔ V.val a ≠ 0 := by
  rw [← Bool.not_eq_true, V.isZero_iff]

include V in
/-- The zero test holds of zero alone. -/
theorem eq_zero_of_isZero {a : α} (h : Arith.isZero a = true) : a = Arith.zero :=
  V.val_injective (((V.isZero_iff a).mp h).trans V.val_zero.symm)

end ExactReading

/-- Exact arithmetic reads as itself, and every result fits. -/
def ExactArith.reading (α : Type) [CommRing α] [Arith α] [Width α] [ExactArith α] :
    ExactReading α α where
  val := id
  Fits _ := True
  val_injective := Function.injective_id
  val_zero := ExactArith.zero_eq
  eq_iff := ExactArith.eq_iff
  add_eq a b _ := ⟨a + b, ExactArith.add_eq a b, rfl⟩
  mul_eq a b _ := ⟨a * b, ExactArith.mul_eq a b, rfl⟩

/-- A word type read faithfully as integers: distinct words read distinct integers, and the
word holding an integer of the range reads that integer. -/
class LawfulWord (α : Type) [Word α] : Prop where
  toInt_injective : Function.Injective (Word.toInt : α → Int)
  toInt_ofInt : ∀ x, Word.fits α x = true → Word.toInt (Word.ofInt x : α) = x
  fits_zero : Word.fits α 0 = true

theorem Word.fit_of_fits {α : Type} [Word α] {x : Int} (h : Word.fits α x = true) (f : Fault) :
    (Word.fit f x : Except Fault α) = pure (Word.ofInt x) :=
  if_pos h

/-- A word type reads as the integers; a result fits when it lies in the range. -/
def Word.reading (α : Type) [Word α] [LawfulWord α] : @ExactReading α Int (Word.arith α) _ :=
  letI := Word.arith α
  { val := Word.toInt
    Fits := fun x => Word.fits α x = true
    val_injective := LawfulWord.toInt_injective
    val_zero := LawfulWord.toInt_ofInt 0 LawfulWord.fits_zero
    eq_iff := fun _ _ => beq_iff_eq
    add_eq := fun a b h =>
      ⟨Word.ofInt (Word.toInt a + Word.toInt b), Word.fit_of_fits h _, LawfulWord.toInt_ofInt _ h⟩
    mul_eq := fun a b h =>
      ⟨Word.ofInt (Word.toInt a * Word.toInt b), Word.fit_of_fits h _, LawfulWord.toInt_ofInt _ h⟩ }

instance : LawfulWord Int64 where
  toInt_injective _ _ h := Int64.toInt_inj.mp h
  toInt_ofInt x h := by
    have hx : -(Nat.pow 2 63 : Int) ≤ x ∧ x ≤ (Nat.pow 2 63 : Int) - 1 := of_decide_eq_true h
    simp only [Nat.pow_eq, Nat.cast_pow, Nat.cast_ofNat] at hx
    exact Int64.toInt_ofInt_of_le hx.1 (by omega)
  fits_zero := by decide

instance : LawfulWord Int32 where
  toInt_injective _ _ h := Int32.toInt_inj.mp h
  toInt_ofInt x h := by
    have hx : -(Nat.pow 2 31 : Int) ≤ x ∧ x ≤ (Nat.pow 2 31 : Int) - 1 := of_decide_eq_true h
    simp only [Nat.pow_eq, Nat.cast_pow, Nat.cast_ofNat] at hx
    exact Int32.toInt_ofInt_of_le hx.1 (by omega)
  fits_zero := by decide

instance : LawfulWord UInt64 where
  toInt_injective _ _ h := UInt64.toNat_inj.mp (Int.ofNat.inj h)
  toInt_ofInt x h := by
    have hx : (0 : Int) ≤ x ∧ x ≤ (Nat.pow 2 64 : Int) - 1 := of_decide_eq_true h
    simp only [Nat.pow_eq, Nat.cast_pow, Nat.cast_ofNat] at hx
    show ((UInt64.ofNat x.toNat).toNat : Int) = x
    rw [UInt64.toNat_ofNat', Nat.mod_eq_of_lt (by omega)]
    omega
  fits_zero := by decide

instance : LawfulWord UInt8 where
  toInt_injective _ _ h := UInt8.toNat_inj.mp (Int.ofNat.inj h)
  toInt_ofInt x h := by
    have hx : (0 : Int) ≤ x ∧ x ≤ (Nat.pow 2 8 : Int) - 1 := of_decide_eq_true h
    simp only [Nat.pow_eq, Nat.cast_pow, Nat.cast_ofNat] at hx
    show ((UInt8.ofNat x.toNat).toNat : Int) = x
    rw [UInt8.toNat_ofNat', Nat.mod_eq_of_lt (by omega)]
    omega
  fits_zero := by decide

end SparseMatrix
