import SparseMatrix.LinearAlgebra
import SparseMatrix.Proofs.Exact
import SparseMatrix.Proofs.Loop
import Mathlib.LinearAlgebra.Matrix.Determinant.Basic

/-!
# Determinants over exact arithmetic

On an element type whose arithmetic is exact (`ExactArith`: the integers, the
rationals), every path of `det` computes the determinant of the matrix of its entries:

* the closed forms of sizes zero to four (`det3_eq`, and `det4_eq` for the Laplace
  expansion over the pairs of rows);
* the expansion along the first row, whatever the degree of its loop, once each minor's
  determinant is right and the answers of the loop's chunks fit their buffer
  (`expandFirstRow_eq`), and so by induction on the size every larger size (`det_eq`).

For a square matrix, `determinant` and `cofactorExpansion` are then both the Leibniz sum
over the permutations of its columns (`determinant_leibniz`). Sizes are machine words,
and the matrix's token is not cancelled. A degree so large that the chunks' answers of the
first row do not fit their buffer faults with `capacityOverflow` instead, whatever the
entries (`determinant_partials_overflow`).
-/

namespace SparseMatrix

variable {α : Type}

/-! ## Entry functions as matrices -/

/-- The `n × n` matrix with the entries `a r c`. -/
def entryMatrix (n : Nat) (a : Nat → Nat → α) : Matrix (Fin n) (Fin n) α :=
  Matrix.of fun i j => a i j

theorem skipIndex_succAbove {n : Nat} (p : Fin (n + 1)) (i : Fin n) :
    skipIndex p i = (p.succAbove i : Nat) := by
  unfold skipIndex Fin.succAbove
  split <;> split <;> simp_all [Fin.lt_def]; omega

@[simp] theorem entryMatrix_apply {n : Nat} (a : Nat → Nat → α) (i j : Fin n) :
    entryMatrix n a i j = a i j :=
  rfl

/-- The minor that removes row `i` and column `j` is the submatrix that skips them. -/
theorem minor_entryMatrix {n : Nat} (a : Nat → Nat → α) (i j : Fin (n + 1)) :
    entryMatrix n (minorFn a i j) = (entryMatrix (n + 1) a).submatrix i.succAbove j.succAbove := by
  ext r c
  simp only [entryMatrix, Matrix.of_apply, Matrix.submatrix_apply, minorFn, skipIndex_succAbove]

theorem minor_zero_entryMatrix {n : Nat} (a : Nat → Nat → α) (j : Fin (n + 1)) :
    entryMatrix n (minorFn a 0 j) = (entryMatrix (n + 1) a).submatrix Fin.succ j.succAbove := by
  have h := minor_entryMatrix a 0 j
  rwa [Fin.val_zero, Fin.succAbove_zero] at h

theorem sum_range'_map [AddCommMonoid α] (f : Nat → α) (n : Nat) :
    ((List.range' 0 n).map f).sum = ∑ j : Fin n, f j := by
  induction n with
  | zero => simp
  | succ n ih =>
    rw [List.range'_concat, List.map_append, List.sum_append, ih, Fin.sum_univ_castSucc]
    simp

variable [CommRing α] [Arith α] [Width α] [ExactArith α]

/-! ## Closed forms -/

theorem cross_eq (w x y z : α) : cross w x y z = pure (w * x - y * z) := by
  simp only [cross, ExactArith.mul_eq, ExactArith.sub_eq, pure_bind]

theorem det3_eq (a : Nat → Nat → α) : det3 a = pure (entryMatrix 3 a).det := by
  simp only [det3, cross_eq, ExactArith.mul_eq, ExactArith.sub_eq, ExactArith.add_eq, pure_bind]
  rw [Matrix.det_fin_three]
  congr 1
  simp only [entryMatrix, Matrix.of_apply, Fin.isValue, Fin.val_zero, Fin.val_one, Fin.val_two]
  ring

/-- The Laplace expansion over the 2 × 2 minors of rows 0, 1 and of rows 2, 3 is the
expansion along the first row. -/
theorem det4_eq (a : Nat → Nat → α) : det4 a = pure (entryMatrix 4 a).det := by
  simp only [det4, cross_eq, ExactArith.mul_eq, ExactArith.sub_eq, ExactArith.add_eq, pure_bind]
  rw [Matrix.det_succ_row_zero]
  congr 1
  simp [Fin.sum_univ_succ, Matrix.det_fin_three, entryMatrix, Fin.succAbove]
  ring

/-! ## Expansion along the first row -/

/-- Expanding along the first row, with each minor's determinant right, gives the
determinant, whatever the degree of the loop over the columns. -/
theorem expandFirstRow_eq {r : Range} {n : Nat} {a : Nat → Nat → α}
    {minorDet : Nat → Except Failure α} (hd : 1 ≤ r.degree) (hc : r.cancelled = false)
    (hn : n + 1 ≤ Text.wordMax) (hp : r.PartialsFit (n + 1))
    (hminor : ∀ j, minorDet j = pure (entryMatrix n (minorFn a 0 j)).det) :
    expandFirstRow r (n + 1) a minorDet = pure (entryMatrix (n + 1) a).det := by
  unfold expandFirstRow
  -- the term of column `j`, zero pivots included: their term is zero either way
  rw [Range.tryMap_of_ok (f := fun j => (-1) ^ j * (a 0 j * (entryMatrix n (minorFn a 0 j)).det))
    hd (by omega) hc hp (by rw [ExactArith.bytes_eq, Nat.mul_zero]; exact Nat.zero_le _)
    fun j _ _ => ?_]
  · rw [pure_bind, ExactArith.sum_eq, liftFault_pure, Nat.sub_zero, sum_range'_map,
      Matrix.det_succ_row_zero]
    congr 1
    refine Finset.sum_congr rfl fun j _ => ?_
    rw [minor_zero_entryMatrix, ← mul_assoc]
    rfl
  · dsimp only
    split
    · rename_i h
      rw [(ExactArith.isZero_iff _).mp h, ExactArith.zero_eq, zero_mul, mul_zero]
    · rw [hminor, pure_bind, ExactArith.mul_eq, liftFault_pure, pure_bind, ExactArith.signed_eq,
        liftFault_pure]

/-- `det` is the determinant at every size: the closed forms up to four, and beyond by
induction on the size through the first-row expansion. -/
theorem det_eq {r : Range} (hd : 1 ≤ r.degree) (hc : r.cancelled = false) :
    ∀ (n : Nat) (a : Nat → Nat → α), n ≤ Text.wordMax → r.PartialsFit n →
      det r n a = pure (entryMatrix n a).det
  | 0, a, _, _ => by rw [det, ExactArith.one_eq, Matrix.det_fin_zero]
  | 1, a, _, _ => by rw [det, Matrix.det_fin_one]; rfl
  | 2, a, _, _ => by
    rw [det, cross_eq, Matrix.det_fin_two]
    rfl
  | 3, a, _, _ => by rw [det, det3_eq, liftFault_pure]
  | 4, a, _, _ => by rw [det, det4_eq, liftFault_pure]
  | n + 5, a, hn, hp => by
    rw [det]
    refine expandFirstRow_eq hd hc hn hp fun j => ?_
    rw [Tabulated.read_of]
    exact det_eq hd hc (n + 4) _ (by omega) (hp.of_le (by omega))

/-! ## Matrices -/

omit [CommRing α] [Arith α] [Width α] [ExactArith α] in
theorem range_degree (m : SparseMatrix α) : 1 ≤ m.range.degree := by
  simp [range, Range.new]

theorem cofactorExpansion_eq (m : SparseMatrix α) {n : Nat} (hn : n ≤ Text.wordMax)
    (hc : m.range.cancelled = false) (hp : m.range.PartialsFit n) (h1 : 1 ≤ n) :
    m.cofactorExpansion n = pure (entryMatrix n m.get).det := by
  obtain ⟨k, rfl⟩ : ∃ k, n = k + 1 := ⟨n - 1, by omega⟩
  unfold cofactorExpansion
  rw [Tabulated.read_of]
  refine expandFirstRow_eq (range_degree m) hc hn hp fun j => ?_
  rw [Nat.add_sub_cancel, Tabulated.read_of]
  exact det_eq (range_degree m) hc k _ (by omega) (hp.of_le (by omega))

omit [CommRing α] [Arith α] [Width α] [ExactArith α] in
theorem ensureSquare_eq {m : SparseMatrix α} {n : Nat} (hrows : m.rowCount = n)
    (hcols : m.colCount = n) : ensureSquare m = pure n := by
  simp [ensureSquare, isSquare, hrows, hcols]

theorem determinant_eq (m : SparseMatrix α) {n : Nat} (hrows : m.rowCount = n)
    (hcols : m.colCount = n) (hn : n ≤ Text.wordMax) (hc : m.range.cancelled = false)
    (hp : m.range.PartialsFit n) :
    m.determinant = pure (entryMatrix n m.get).det := by
  unfold determinant
  rw [ensureSquare_eq hrows hcols, liftError_pure, pure_bind]
  split
  · rw [Tabulated.read_of]
    exact det_eq (range_degree m) hc n _ hn hp
  · exact cofactorExpansion_eq m hn hc hp (by omega)

omit [Arith α] [Width α] [ExactArith α] in
/-- The Leibniz sum over the permutations of the columns. -/
theorem det_entryMatrix (n : Nat) (a : Nat → Nat → α) :
    (entryMatrix n a).det =
      ∑ σ : Equiv.Perm (Fin n), ((Equiv.Perm.sign σ : ℤ) : α) * ∏ i : Fin n, a i (σ i) := by
  rw [← Matrix.det_transpose, Matrix.det_apply']
  rfl

omit [CommRing α] [ExactArith α] in
/-- The expansion along the first row of a loop whose chunks' answers do not fit their
buffer faults before any term is computed. -/
theorem expandFirstRow_partials_overflow {r : Range} {n : Nat} {a : Nat → Nat → α}
    {minorDet : Nat → Except Failure α} (hc : r.cancelled = false) (hp : ¬r.PartialsFit n) :
    expandFirstRow r n a minorDet = .error (.fault .capacityOverflow) := by
  unfold expandFirstRow
  rw [Range.tryMap_zero_partials_overflow hc hp]
  rfl

omit [CommRing α] [ExactArith α] in
/-- A square matrix whose first-row expansion's chunk answers do not fit their buffer has
no determinant: it is of size five or more, and its expansion faults. -/
theorem determinant_partials_overflow (m : SparseMatrix α) {n : Nat} (hrows : m.rowCount = n)
    (hcols : m.colCount = n) (hc : m.range.cancelled = false) (hp : ¬m.range.PartialsFit n) :
    m.determinant = .error (.fault .capacityOverflow) := by
  have h5 : ¬n < 5 := fun h => hp (Range.partialsFit_of_length
    (Nat.le_trans (Nat.mul_le_mul_right _ h.le) (by decide)))
  unfold determinant
  rw [ensureSquare_eq hrows hcols, liftError_pure, pure_bind, if_neg h5]
  exact expandFirstRow_partials_overflow hc hp

omit [CommRing α] [ExactArith α] in
/-- A determinant that is computed has laid out the answers of the loops over the rows. -/
theorem partialsFit_of_determinant_ok {m : SparseMatrix α} {n : Nat} {d : α}
    (hrows : m.rowCount = n) (hcols : m.colCount = n) (hc : m.range.cancelled = false)
    (h : m.determinant = .ok d) : m.range.PartialsFit n :=
  Classical.byContradiction fun hp => by
    rw [determinant_partials_overflow m hrows hcols hc hp] at h
    cases h

/-- Over exact arithmetic, the determinant of a square matrix whose token is not
cancelled is the Leibniz sum `Σ_σ sgn σ · Π_i a(i, σ i)` over the permutations of its
columns, one for the empty matrix, and the expansion along the first row agrees with it at
every size, as long as the answers of the chunks of a loop over its rows fit their buffer;
otherwise the determinant faults with `capacityOverflow`. -/
theorem determinant_leibniz (m : SparseMatrix α) {n : Nat} (hrows : m.rowCount = n)
    (hcols : m.colCount = n) (hn : n ≤ Text.wordMax) (hc : m.token.any (·.cancelled) = false) :
    (m.range.PartialsFit n →
      m.determinant =
          .ok (∑ σ : Equiv.Perm (Fin n), ((Equiv.Perm.sign σ : ℤ) : α) *
            ∏ i : Fin n, m.get i (σ i)) ∧
        (1 ≤ n → m.cofactorExpansion n = m.determinant)) ∧
    (¬m.range.PartialsFit n → m.determinant = .error (.fault .capacityOverflow)) := by
  refine ⟨fun hp => ?_, determinant_partials_overflow m hrows hcols hc⟩
  have hdet := determinant_eq m hrows hcols hn hc hp
  refine ⟨by rw [hdet, det_entryMatrix]; rfl, fun h1 => ?_⟩
  rw [hdet, cofactorExpansion_eq m hn hc hp h1]

open Host in
theorem determinant_leibniz_identity :
    (identity 5 : SparseMatrix ℤ).rowCount = 5 ∧ (identity 5 : SparseMatrix ℤ).colCount = 5 ∧
      5 ≤ Text.wordMax ∧ (identity 5 : SparseMatrix ℤ).token.any (·.cancelled) = false ∧
      (((identity 5 : SparseMatrix ℤ).range.PartialsFit 5 →
        (identity 5 : SparseMatrix ℤ).determinant =
          .ok (∑ σ : Equiv.Perm (Fin 5), ((Equiv.Perm.sign σ : ℤ) : ℤ) *
            ∏ i : Fin 5, (identity 5 : SparseMatrix ℤ).get i (σ i)) ∧
        (1 ≤ 5 → (identity 5 : SparseMatrix ℤ).cofactorExpansion 5 =
          (identity 5 : SparseMatrix ℤ).determinant)) ∧
      (¬(identity 5 : SparseMatrix ℤ).range.PartialsFit 5 →
        (identity 5 : SparseMatrix ℤ).determinant = .error (.fault .capacityOverflow))) :=
  ⟨by decide, by decide, by decide, rfl,
    determinant_leibniz (identity 5) (by decide) (by decide) (by decide) rfl⟩

open Host in
/-- The zero matrix of size `2^59` at degree `2^59`: its expansion would cut the first row
into `2^59` chunks, whose answers take more than the largest buffer, so it has no
determinant, not the zero the Leibniz sum gives. -/
theorem determinant_zeros_wide_degree :
    ∃ m : SparseMatrix ℤ, (zeros (2 ^ 59) (2 ^ 59) : SparseMatrix ℤ).setDegree (2 ^ 59) = .ok m ∧
      m.determinant = .error (.fault .capacityOverflow) :=
  ⟨_, rfl, determinant_partials_overflow _ rfl rfl rfl (by decide)⟩

end SparseMatrix
