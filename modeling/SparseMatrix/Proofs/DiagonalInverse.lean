import SparseMatrix.Proofs.Inverse
import SparseMatrix.Proofs.ProductLaws

/-!
# The inverse of a diagonal matrix

Past the empty and the `1 × 1` matrix, `inverse` with determinant `d` takes one of two
paths (`inverse_eq_paths`): a diagonal matrix gets the reciprocals of its diagonal
(`reciprocalsPath`), any other the adjugate over the determinant (`adjugatePath`).

The two paths agree on a diagonal matrix over every exact ring whose division cancels a
common factor (`ExactQuotient`: the integers with truncating division, the rationals).
The cofactor at `(i, i)` is the product of the other diagonal entries and the determinant
the product of all of them, so their quotient is that of one by the entry; every cofactor
off the diagonal is zero, since its minor keeps a row of zeros. The two matrices are
equal under `beq`, and the reciprocals path writes every diagonal cell where the adjugate
path writes only those that are not zero (`reciprocals_eq_adjugate`). Only the adjugate
path counts its `n · n` cofactors in a machine word: past that it faults.
-/

namespace SparseMatrix

variable {α : Type}

/-! ## The two paths -/

section Paths

variable [Arith α] [Width α]

/-- The diagonal path of `inverse`: `1 / a(i,i)` written at every `(i, i)`, zero quotients
included. -/
def reciprocalsPath (m : SparseMatrix α) (n : Nat) : Except Failure (SparseMatrix α) := do
  let cells ← m.range.tryMap 0 0 n fun i => do
    let v ← Arith.div Arith.one (m.get i i)
    return ((⟨i, i⟩ : Key), v)
  return (m.derived n n).withCells cells

/-- The adjugate path of `inverse` with determinant `d`: for every `k = i · n + j`, the
cofactor `(-1)^(i+j) · det (minor i j) / d` written at `(j, i)` when it is not zero. -/
def adjugatePath (m : SparseMatrix α) (n : Nat) (d : α) : Except Failure (SparseMatrix α) := do
  let entries := (Tabulated.of n m.get).read
  let count ← Size.mul n n
  let cells ← m.range.tryMap 0 0 count fun k => do
    let i := k / n
    let j := k % n
    let minorDet ← det m.range (n - 1) (Tabulated.of (n - 1) (minorFn entries i j)).read
    let c ← Arith.signed minorDet (i + j)
    let v ← Arith.div c d
    return if Arith.isZero v then none else some ((⟨j, i⟩ : Key), v)
  return (m.derived n n).withCells (sortCells (cells.filterMap id))

/-- Past the empty and the `1 × 1` matrix, `inverse` takes the reciprocals path on a
diagonal matrix and the adjugate path on any other. -/
theorem inverse_eq_paths (A : SparseMatrix α) {n : Nat} {d : α} (hrows : A.rowCount = n)
    (hcols : A.colCount = n) (h2 : 2 ≤ n) (hdet : A.determinant = pure d)
    (hd : Arith.isZero d = false) :
    A.inverse = if A.isDiagonal then A.reciprocalsPath n else A.adjugatePath n d := by
  unfold inverse
  rw [ensureSquare_eq hrows hcols, liftError_pure, pure_bind, hdet, pure_bind,
    if_neg (ne_true_of_eq_false hd)]
  dsimp only
  rw [if_neg (by omega), if_neg (by omega)]
  rfl

omit [Arith α] [Width α] in
/-- Cells inside the `n × n` bounds leave a matrix derived as `n × n` of that size. -/
theorem dims_derived_withCells (A : SparseMatrix α) {n : Nat} {cells : List (Key × α)}
    (h : ∀ kv ∈ cells, kv.1.row < n ∧ kv.1.col < n) :
    ((A.derived n n).withCells cells).dims = (n, n) := by
  rw [dims, rowCount_withCells (m := A.derived n n) fun kv hkv => (h kv hkv).1,
    colCount_withCells (m := A.derived n n) fun kv hkv => (h kv hkv).2]
  rfl

omit [Width α] in
/-- The identity is diagonal. -/
theorem isDiagonal_identity [Host] (n : Nat) : (identity n : SparseMatrix α).isDiagonal = true := by
  simp only [isDiagonal, isSquare, rowCount_identity, colCount_identity, beq_self_eq_true,
    Bool.true_and, List.all_eq_true]
  rintro ⟨⟨r, c⟩, v⟩ hkv
  rw [identity_eq, entries_withCells] at hkv
  obtain ⟨i, -, hi⟩ := List.mem_map.mp hkv
  simp only [Prod.mk.injEq, Key.mk.injEq] at hi
  obtain ⟨⟨rfl, rfl⟩, -⟩ := hi
  simp

omit [Width α] in
theorem reciprocalsPath_cancelled (A : SparseMatrix α) {n : Nat} (hn : 0 < n)
    (hc : A.range.cancelled = true) : A.reciprocalsPath n = .error (.error .cancelled) := by
  unfold reciprocalsPath
  rw [Range.tryMap_cancelled hn hc]
  rfl

theorem adjugatePath_cancelled (A : SparseMatrix α) {n : Nat} (d : α) (hn : 0 < n)
    (hnn : n * n ≤ Text.wordMax) (hc : A.range.cancelled = true) :
    A.adjugatePath n d = .error (.error .cancelled) := by
  unfold adjugatePath
  rw [Size.mul_eq hnn, liftFault_pure, pure_bind, Range.tryMap_cancelled (Nat.mul_pos hn hn) hc]
  rfl

/-- The adjugate path faults when the answers of the chunks of its loop over the `n · n`
cofactors do not fit their buffer. -/
theorem adjugatePath_partials_overflow (A : SparseMatrix α) {n : Nat} (d : α)
    (hnn : n * n ≤ Text.wordMax) (hc : A.range.cancelled = false)
    (hp : ¬A.range.PartialsFit (n * n)) : A.adjugatePath n d = .error (.fault .capacityOverflow) := by
  unfold adjugatePath
  rw [Size.mul_eq hnn, liftFault_pure, pure_bind,
    Range.tryMap_zero_partials_overflow hc hp]
  rfl

/-- The adjugate path cannot count `n · n` cofactors past the largest word. -/
theorem adjugatePath_mulOverflow (A : SparseMatrix α) {n : Nat} (d : α)
    (hbig : Text.wordMax < n * n) : A.adjugatePath n d = .error (.fault .mulOverflow) := by
  have hmul : Size.mul n n = .error .mulOverflow := by
    simp [Size.mul, Size.fit, Nat.not_le.mpr hbig]
  unfold adjugatePath
  rw [hmul]
  rfl

end Paths

/-! ## Exact quotients -/

/-- The division of an exact ring: by a divisor other than zero it returns the quotient
`quot`, which is zero for a zero dividend and does not change when dividend and divisor
are multiplied by the same factor other than zero. -/
class ExactQuotient (α : Type) [CommRing α] [Arith α] where
  quot : α → α → α
  div_eq : ∀ a b : α, b ≠ 0 → Arith.div a b = pure (quot a b)
  zero_quot : ∀ b : α, quot 0 b = 0
  mul_quot_mul : ∀ c a b : α, c ≠ 0 → quot (c * a) (c * b) = quot a b

/-- Truncating division cancels a common factor other than zero. -/
theorem tdiv_mul_mul_left (c a b : Int) (hc : c ≠ 0) : (c * a).tdiv (c * b) = a.tdiv b := by
  rcases Int.lt_or_gt_of_ne hc with hneg | hpos
  · -- a negative factor is the negation of a positive one
    calc (c * a).tdiv (c * b) = (-c * -a).tdiv (-c * -b) := by rw [neg_mul_neg, neg_mul_neg]
      _ = (-a).tdiv (-b) := Int.mul_tdiv_mul_of_pos _ _ (by omega)
      _ = a.tdiv b := Int.neg_tdiv_neg a b
  · exact Int.mul_tdiv_mul_of_pos a b hpos

instance : ExactQuotient Int where
  quot a b := a.tdiv b
  div_eq _ _ hb := if_neg hb
  zero_quot := Int.zero_tdiv
  mul_quot_mul := tdiv_mul_mul_left

instance : ExactQuotient Rat where
  quot a b := a / b
  div_eq _ _ hb := if_neg hb
  zero_quot := zero_div
  mul_quot_mul _ a b hc := mul_div_mul_left a b hc

/-! ## Agreement on a diagonal matrix -/

section Diagonal

variable [CommRing α] [Arith α] [Width α] [ExactArith α] [ExactQuotient α]

/-- What both paths compute for an `n × n` diagonal matrix: `1 / a(r,r)` on the
diagonal, zero elsewhere. -/
def reciprocalFn (A : SparseMatrix α) (n r c : Nat) : α :=
  if r = c ∧ r < n then ExactQuotient.quot 1 (A.get r r) else Arith.zero

omit [ExactQuotient α] in
theorem entryMatrix_of_isDiagonal {A : SparseMatrix α} (hdiag : A.isDiagonal = true) (n : Nat) :
    entryMatrix n A.get = Matrix.diagonal fun i : Fin n => A.get i i :=
  entryMatrix_eq_diagonal fun _ _ hij => get_eq_zero_of_isDiagonal hdiag fun h => hij (Fin.ext h)

omit [ExactQuotient α] in
/-- The cofactor of a diagonal matrix at `(i, j)`, the signed determinant of the minor
without row `i` and column `j`, is the product of the other diagonal entries when
`i = j`, and zero otherwise. -/
theorem cofactor_of_isDiagonal {A : SparseMatrix α} (hdiag : A.isDiagonal = true) {k i j : Nat}
    (hi : i < k + 1) (hj : j < k + 1) :
    (-1) ^ (i + j) * (entryMatrix k (minorFn A.get i j)).det =
      if i = j then ∏ l ∈ Finset.univ.erase (⟨i, hi⟩ : Fin (k + 1)), A.get l l else 0 := by
  have hadj :=
    Matrix.adjugate_fin_succ_eq_det_submatrix (entryMatrix (k + 1) A.get) ⟨j, hj⟩ ⟨i, hi⟩
  rw [minor_entryMatrix A.get ⟨i, hi⟩ ⟨j, hj⟩, ← hadj, entryMatrix_of_isDiagonal hdiag,
    Matrix.adjugate_diagonal]
  by_cases hij : i = j
  · subst hij
    rw [Matrix.diagonal_apply_eq, if_pos rfl]
  · rw [Matrix.diagonal_apply_ne _ fun h => hij (congrArg Fin.val h).symm, if_neg hij]

omit [Width α] [ExactArith α] in
/-- The product of all entries but one, over the product of all of them, is one over
that entry. -/
theorem quot_prod_erase {n : Nat} (v : Fin n → α) (i : Fin n) (h : ∏ l, v l ≠ 0) :
    ExactQuotient.quot (∏ l ∈ Finset.univ.erase i, v l) (∏ l, v l) =
      ExactQuotient.quot 1 (v i) := by
  have hsplit : ∏ l, v l = (∏ l ∈ Finset.univ.erase i, v l) * v i := by
    rw [mul_comm, Finset.mul_prod_erase _ _ (Finset.mem_univ i)]
  have hrest : ∏ l ∈ Finset.univ.erase i, v l ≠ 0 :=
    fun h0 => h (by rw [hsplit, h0, zero_mul])
  calc ExactQuotient.quot (∏ l ∈ Finset.univ.erase i, v l) (∏ l, v l)
      = ExactQuotient.quot ((∏ l ∈ Finset.univ.erase i, v l) * 1)
          ((∏ l ∈ Finset.univ.erase i, v l) * v i) := by rw [mul_one, ← hsplit]
    _ = ExactQuotient.quot 1 (v i) := ExactQuotient.mul_quot_mul _ _ _ hrest

/-- Each cofactor of a diagonal matrix over its determinant is the reciprocal at the
transposed key. -/
theorem cofactor_quot_of_isDiagonal {A : SparseMatrix α} (hdiag : A.isDiagonal = true)
    {n i j : Nat} (hi : i < n) (hj : j < n) (hdet : (entryMatrix n A.get).det ≠ 0) :
    ExactQuotient.quot ((-1) ^ (i + j) * (entryMatrix (n - 1) (minorFn A.get i j)).det)
      (entryMatrix n A.get).det = reciprocalFn A n j i := by
  obtain ⟨k, rfl⟩ : ∃ k, n = k + 1 := ⟨n - 1, by omega⟩
  rw [entryMatrix_of_isDiagonal hdiag, Matrix.det_diagonal] at hdet
  rw [Nat.add_sub_cancel, cofactor_of_isDiagonal hdiag hi hj, reciprocalFn,
    entryMatrix_of_isDiagonal hdiag, Matrix.det_diagonal]
  by_cases hij : i = j
  · subst hij
    rw [if_pos rfl, if_pos ⟨rfl, hi⟩]
    exact quot_prod_erase (fun l : Fin (k + 1) => A.get l l) ⟨i, hi⟩ hdet
  · rw [if_neg hij, if_neg fun h => hij h.1.symm, ExactQuotient.zero_quot, ExactArith.zero_eq]

/-- On a diagonal matrix whose determinant is not zero, the reciprocals path writes
`1 / a(i,i)` at every `(i, i)`. -/
theorem reciprocalsPath_eq {A : SparseMatrix α} {n : Nat} (hn : n ≤ Text.wordMax)
    (hc : A.range.cancelled = false) (hp : A.range.PartialsFit n) (hdiag : A.isDiagonal = true)
    (hdet : (entryMatrix n A.get).det ≠ 0) :
    A.reciprocalsPath n = pure ((A.derived n n).withCells
      ((List.range n).map fun i => ((⟨i, i⟩ : Key), ExactQuotient.quot 1 (A.get i i)))) := by
  unfold reciprocalsPath
  rw [Range.tryMap_of_ok (f := fun i => ((⟨i, i⟩ : Key), ExactQuotient.quot 1 (A.get i i)))
    (range_degree A) (by omega) hc (by rwa [Nat.sub_zero]) (by simp) fun i _ hi => ?_]
  · rw [pure_bind, Nat.sub_zero, ← List.range_eq_range']
  · have hii : A.get i i ≠ 0 := get_diagonal_ne_zero
      (fun _ _ hij => get_eq_zero_of_isDiagonal hdiag fun h => hij (Fin.ext h)) hdet ⟨i, hi⟩
    rw [ExactArith.one_eq, ExactQuotient.div_eq _ _ hii, liftFault_pure, pure_bind]

/-- On a diagonal matrix whose determinant is not zero, the adjugate path writes the
reciprocals that are not zero, when its `n · n` cofactors can be counted and the answers of
the chunks of its loop over them fit their buffer. -/
theorem adjugatePath_eq {A : SparseMatrix α} {n : Nat} (h1 : 1 ≤ n)
    (hnn : n * n ≤ Text.wordMax) (hc : A.range.cancelled = false)
    (hp : A.range.PartialsFit (n * n)) (hdiag : A.isDiagonal = true)
    (hdet : (entryMatrix n A.get).det ≠ 0) :
    A.adjugatePath n (entryMatrix n A.get).det = pure ((A.derived n n).withCells
      (sortCells (nonzeroCells (transposedKeys n) (reciprocalFn A n)))) := by
  unfold adjugatePath
  dsimp only
  rw [Size.mul_eq hnn, liftFault_pure, pure_bind,
    Range.tryMap_of_ok (f := fun k =>
      if Arith.isZero (reciprocalFn A n (k % n) (k / n)) then none
      else some ((⟨k % n, k / n⟩ : Key), reciprocalFn A n (k % n) (k / n)))
    (range_degree A) (by omega) hc (by rwa [Nat.sub_zero]) (by simp) fun k _ hk => ?_]
  · rw [pure_bind, Nat.sub_zero, filterMap_transposedKeys]
  · -- one cofactor: the minor's determinant, its sign, and the quotient by the determinant
    have hkn : k / n < n := Nat.div_lt_of_lt_mul hk
    have hkm : k % n < n := Nat.mod_lt k (by omega)
    have hn : n ≤ Text.wordMax := Nat.le_trans (Nat.le_mul_of_pos_left n h1) hnn
    rw [Tabulated.read_of, Tabulated.read_of,
      det_eq (range_degree A) hc (n - 1) _ (by omega) (hp.of_le (Nat.le_trans (Nat.sub_le n 1)
        (Nat.le_mul_of_pos_left n h1))),
      pure_bind, ExactArith.signed_eq, liftFault_pure, pure_bind, ExactQuotient.div_eq _ _ hdet,
      liftFault_pure, pure_bind, cofactor_quot_of_isDiagonal hdiag hkn hkm hdet]

omit [Width α] [ExactArith α] in
theorem cellsOf_reciprocals (A : SparseMatrix α) (n : Nat) :
    CellsOf ((List.range n).map fun i => ((⟨i, i⟩ : Key), ExactQuotient.quot 1 (A.get i i)))
      (reciprocalFn A n) :=
  cellsOf_diagonal n _

theorem cellsOf_nonzeroReciprocals (A : SparseMatrix α) (n : Nat) :
    CellsOf (sortCells (nonzeroCells (transposedKeys n) (reciprocalFn A n)))
      (reciprocalFn A n) := by
  refine (cellsOf_nonzeroCells (transposedKeys_nodup n) fun r c hrc => ?_).perm
    (List.mergeSort_perm _ _).symm
  have hout : ¬(r = c ∧ r < n) := fun h => hrc (mem_transposedKeys.mpr ⟨h.2, h.1 ▸ h.2⟩)
  rw [reciprocalFn, if_neg hout, ExactArith.zero_eq]

/-- The cells the adjugate path writes are those of the reciprocals path that are not
zero. -/
theorem mem_nonzeroReciprocals (A : SparseMatrix α) (n : Nat) (kv : Key × α) :
    kv ∈ sortCells (nonzeroCells (transposedKeys n) (reciprocalFn A n)) ↔
      kv ∈ (List.range n).map (fun i => ((⟨i, i⟩ : Key), ExactQuotient.quot 1 (A.get i i))) ∧
        kv.2 ≠ 0 := by
  obtain ⟨⟨r, c⟩, v⟩ := kv
  rw [sortCells, List.mem_mergeSort, mem_nonzeroCells, mem_transposedKeys]
  constructor
  · rintro ⟨⟨hr, hc⟩, rfl, hz⟩
    have hv : reciprocalFn A n r c ≠ 0 := fun h => by
      rw [h, (ExactArith.isZero_iff _).mpr rfl] at hz
      cases hz
    have hrc : r = c := by
      by_contra hne
      rw [reciprocalFn, if_neg fun h => hne h.1, ExactArith.zero_eq] at hv
      exact hv rfl
    subst hrc
    refine ⟨List.mem_map.mpr ⟨r, List.mem_range.mpr hr, ?_⟩, hv⟩
    rw [reciprocalFn, if_pos ⟨rfl, hr⟩]
  · rintro ⟨hmem, hv⟩
    obtain ⟨i, hi, hkv⟩ := List.mem_map.mp hmem
    simp only [Prod.mk.injEq, Key.mk.injEq] at hkv
    obtain ⟨⟨rfl, rfl⟩, rfl⟩ := hkv
    have hi' := List.mem_range.mp hi
    refine ⟨⟨hi', hi'⟩, by rw [reciprocalFn, if_pos ⟨rfl, hi'⟩], ?_⟩
    exact Bool.eq_false_iff.mpr fun h => hv ((ExactArith.isZero_iff _).mp h)

/-- On an `n × n` diagonal matrix, `n ≥ 2`, with a determinant `d` other than zero, over an
exact ring whose division cancels a common factor: `inverse` takes the reciprocals path;
when the `n · n` cofactors can be counted in a machine word and the token is not cancelled,
both paths return `n × n` matrices equal under `beq`, the cells of the adjugate path being
those of the reciprocals path that are not zero, as long as the answers of the chunks of
the loop over the cofactors fit their buffer; when they do not, the reciprocals path still
returns and the adjugate path faults with `capacityOverflow`. When the token is cancelled,
both stop with `cancelled`; and past that count the adjugate path faults with
`mulOverflow`. -/
theorem reciprocals_eq_adjugate (A : SparseMatrix α) {n : Nat} {d : α} (hrows : A.rowCount = n)
    (hcols : A.colCount = n) (h2 : 2 ≤ n) (hdiag : A.isDiagonal = true)
    (hdet : A.determinant = .ok d) (hd : d ≠ 0) :
    A.inverse = A.reciprocalsPath n ∧
    (n * n ≤ Text.wordMax → A.range.cancelled = false → A.range.PartialsFit (n * n) →
      ∃ X Y, A.reciprocalsPath n = .ok X ∧ A.adjugatePath n d = .ok Y ∧ X.beq Y = true ∧
        X.dims = (n, n) ∧ Y.dims = (n, n) ∧
        ∀ kv, kv ∈ Y.entries ↔ kv ∈ X.entries ∧ kv.2 ≠ 0) ∧
    (n * n ≤ Text.wordMax → A.range.cancelled = false → ¬A.range.PartialsFit (n * n) →
      (∃ X, A.reciprocalsPath n = .ok X) ∧
        A.adjugatePath n d = .error (.fault .capacityOverflow)) ∧
    (n * n ≤ Text.wordMax → A.range.cancelled = true →
      A.reciprocalsPath n = .error (.error .cancelled) ∧
        A.adjugatePath n d = .error (.error .cancelled)) ∧
    (Text.wordMax < n * n → A.adjugatePath n d = .error (.fault .mulOverflow)) := by
  have hz : Arith.isZero d = false :=
    Bool.eq_false_iff.mpr fun h => hd ((ExactArith.isZero_iff d).mp h)
  have hvalue : A.range.cancelled = false → n * n ≤ Text.wordMax →
      n ≤ Text.wordMax ∧ A.range.PartialsFit n ∧ d = (entryMatrix n A.get).det := by
    intro hc hnn
    have hn : n ≤ Text.wordMax := Nat.le_trans (Nat.le_mul_of_pos_left n (by omega)) hnn
    have hp := partialsFit_of_determinant_ok hrows hcols hc hdet
    rw [determinant_eq A hrows hcols hn hc hp] at hdet
    injection hdet with h
    exact ⟨hn, hp, h.symm⟩
  refine ⟨by rw [inverse_eq_paths A hrows hcols h2 hdet hz, if_pos hdiag], fun hnn hc hpp => ?_,
    fun hnn hc hpp => ?_,
    fun hnn hc => ⟨reciprocalsPath_cancelled A (by omega) hc,
      adjugatePath_cancelled A d (by omega) hnn hc⟩,
    adjugatePath_mulOverflow A d⟩
  · obtain ⟨hn, hp, rfl⟩ := hvalue hc hnn
    have hX := cellsOf_reciprocals A n
    have hY := cellsOf_nonzeroReciprocals A n
    have hXdims := dims_derived_withCells A
      (diagonal_cells_lt (n := n) fun i => ExactQuotient.quot 1 (A.get i i))
    have hYdims := dims_derived_withCells A
      (transposedKeys_cells_lt (n := n) (f := reciprocalFn A n))
    refine ⟨_, _, reciprocalsPath_eq hn hc hp hdiag hd,
      adjugatePath_eq (by omega) hnn hc hpp hdiag hd,
      (beq_withCells_iff hX hY).mpr ⟨hXdims.trans hYdims.symm, rfl⟩, hXdims, hYdims,
      fun kv => ?_⟩
    rw [entries_withCells, entries_withCells]
    exact mem_nonzeroReciprocals A n kv
  · obtain ⟨hn, hp, rfl⟩ := hvalue hc hnn
    exact ⟨⟨_, reciprocalsPath_eq hn hc hp hdiag hd⟩,
      adjugatePath_partials_overflow A _ hnn hc hpp⟩

end Diagonal

open Host in
/-- The identity of size `2^32` over the rationals is diagonal with determinant one: the
reciprocals path returns its inverse, while the adjugate path cannot count its `2^64`
cofactors in a machine word. -/
theorem adjugatePath_identity_overflow :
    (identity 4294967296 : SparseMatrix ℚ).isDiagonal = true ∧
      (identity 4294967296 : SparseMatrix ℚ).determinant = .ok 1 ∧
      (∃ X, (identity 4294967296 : SparseMatrix ℚ).reciprocalsPath 4294967296 = .ok X) ∧
      (identity 4294967296 : SparseMatrix ℚ).adjugatePath 4294967296 1 =
        .error (.fault .mulOverflow) := by
  have hn : (4294967296 : Nat) ≤ Text.wordMax := by decide
  have hdet : (entryMatrix 4294967296 (identity 4294967296 : SparseMatrix ℚ).get).det = 1 := by
    rw [(squareCells_identity 4294967296).2, Matrix.det_one]
  -- four billion rows cut into one chunk each lay out their answers in a buffer that fits
  have hp : (identity 4294967296 : SparseMatrix ℚ).range.PartialsFit 4294967296 :=
    Range.partialsFit_of_length (by decide)
  refine ⟨isDiagonal_identity _, ?_, ⟨_, reciprocalsPath_eq hn rfl hp (isDiagonal_identity _)
    (by rw [hdet]; exact one_ne_zero)⟩, adjugatePath_mulOverflow _ 1 (by decide)⟩
  rw [determinant_eq _ (rowCount_identity _) (colCount_identity _) hn rfl hp, hdet]
  rfl

open Host in
/-- On `diag(2, 1, -1)` over the integers, the reciprocals path writes the truncated
quotient `1 / 2 = 0` at `(0, 0)`, which the adjugate path leaves out. -/
theorem reciprocals_eq_adjugate_truncated :
    (((identity 3 : SparseMatrix Int).set 0 0 2).set 2 2 (-1)).rowCount = 3 ∧ (((identity 3 : SparseMatrix Int).set 0 0 2).set 2 2 (-1)).colCount = 3 ∧ 2 ≤ 3 ∧ (((identity 3 : SparseMatrix Int).set 0 0 2).set 2 2 (-1)).isDiagonal = true ∧
      (((identity 3 : SparseMatrix Int).set 0 0 2).set 2 2 (-1)).determinant = .ok (-2) ∧ (-2 : Int) ≠ 0 ∧
      ((((identity 3 : SparseMatrix Int).set 0 0 2).set 2 2 (-1)).inverse = (((identity 3 : SparseMatrix Int).set 0 0 2).set 2 2 (-1)).reciprocalsPath 3 ∧
        (3 * 3 ≤ Text.wordMax → (((identity 3 : SparseMatrix Int).set 0 0 2).set 2 2 (-1)).range.cancelled = false → (((identity 3 : SparseMatrix Int).set 0 0 2).set 2 2 (-1)).range.PartialsFit (3 * 3) →
          ∃ X Y, (((identity 3 : SparseMatrix Int).set 0 0 2).set 2 2 (-1)).reciprocalsPath 3 = .ok X ∧ (((identity 3 : SparseMatrix Int).set 0 0 2).set 2 2 (-1)).adjugatePath 3 (-2) = .ok Y ∧
            X.beq Y = true ∧ X.dims = (3, 3) ∧ Y.dims = (3, 3) ∧
            ∀ kv, kv ∈ Y.entries ↔ kv ∈ X.entries ∧ kv.2 ≠ 0) ∧
        (3 * 3 ≤ Text.wordMax → (((identity 3 : SparseMatrix Int).set 0 0 2).set 2 2 (-1)).range.cancelled = false → ¬(((identity 3 : SparseMatrix Int).set 0 0 2).set 2 2 (-1)).range.PartialsFit (3 * 3) →
          (∃ X, (((identity 3 : SparseMatrix Int).set 0 0 2).set 2 2 (-1)).reciprocalsPath 3 = .ok X) ∧
            (((identity 3 : SparseMatrix Int).set 0 0 2).set 2 2 (-1)).adjugatePath 3 (-2) = .error (.fault .capacityOverflow)) ∧
        (3 * 3 ≤ Text.wordMax → (((identity 3 : SparseMatrix Int).set 0 0 2).set 2 2 (-1)).range.cancelled = true →
          (((identity 3 : SparseMatrix Int).set 0 0 2).set 2 2 (-1)).reciprocalsPath 3 = .error (.error .cancelled) ∧
            (((identity 3 : SparseMatrix Int).set 0 0 2).set 2 2 (-1)).adjugatePath 3 (-2) = .error (.error .cancelled)) ∧
        (Text.wordMax < 3 * 3 → (((identity 3 : SparseMatrix Int).set 0 0 2).set 2 2 (-1)).adjugatePath 3 (-2) = .error (.fault .mulOverflow))) :=
  ⟨rfl, rfl, by decide, rfl, rfl, by decide,
    reciprocals_eq_adjugate _ rfl rfl (by decide) rfl rfl (by decide)⟩

end SparseMatrix
