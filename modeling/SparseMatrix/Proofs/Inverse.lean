import SparseMatrix.LinearAlgebra
import SparseMatrix.Proofs.Product
import Mathlib.LinearAlgebra.Matrix.Adjugate
import Mathlib.LinearAlgebra.Matrix.Block

/-!
# Inverses over an exact field

Over an exact field (`ExactArith` and `ExactDiv`: the rationals), `inverse` of a square
`n × n` matrix whose token is not cancelled:

* fails with `singular` exactly when the determinant is zero (`inverse_singular`);
* otherwise returns a matrix `X` that inverts it (`IsInverse`) on each of its paths: the
  empty matrix, the `1 × 1` reciprocal and the diagonal of reciprocals
  (`isInverse_reciprocals`), and the adjugate over the determinant
  (`isInverse_adjugate`), this last one as long as the `n · n` cells it visits can be
  counted in a machine word (`inverse_of_det_ne_zero`);
* faults with `mulOverflow` on a matrix that is not diagonal when they cannot
  (`inverse_mulOverflow`).

The matrix returned multiplies with the operand to the identity on both sides
(`inverse_exact`).
-/

namespace SparseMatrix

variable {α : Type}

/-! ## The keys of the adjugate loop -/

/-- The keys `(k % n, k / n)` the adjugate loop writes for `k` below `n · n`: the
transposes of the keys of an `n × n` matrix in row-major order. -/
def transposedKeys (n : Nat) : List Key :=
  (List.range' 0 (n * n)).map fun k => ⟨k % n, k / n⟩

theorem transposedKeys_nodup (n : Nat) : (transposedKeys n).Nodup := by
  refine List.Nodup.map ?_ List.nodup_range'
  intro k k' h
  simp only [Key.mk.injEq] at h
  rw [← Nat.mod_add_div k n, ← Nat.mod_add_div k' n, h.1, h.2]

theorem mem_transposedKeys {n : Nat} {k : Key} :
    k ∈ transposedKeys n ↔ k.row < n ∧ k.col < n := by
  constructor
  · intro h
    obtain ⟨x, hx, rfl⟩ := List.mem_map.mp h
    rw [List.mem_range'_1, Nat.zero_add] at hx
    have hn : 0 < n := Nat.pos_of_ne_zero fun h0 => by simp [h0] at hx
    exact ⟨Nat.mod_lt x hn, Nat.div_lt_of_lt_mul hx.2⟩
  · rintro ⟨hr, hc⟩
    have hn : 0 < n := by omega
    have hlt : k.col * n + k.row < n * n :=
      calc k.col * n + k.row < (k.col + 1) * n := by rw [Nat.succ_mul]; omega
        _ ≤ n * n := Nat.mul_le_mul_right n hc
    refine List.mem_map.mpr ⟨k.col * n + k.row, List.mem_range'_1.mpr ⟨Nat.zero_le _, by omega⟩, ?_⟩
    have hmod : (k.col * n + k.row) % n = k.row := by
      rw [Nat.add_comm, Nat.add_mul_mod_self_right, Nat.mod_eq_of_lt hr]
    have hdiv : (k.col * n + k.row) / n = k.col := by
      rw [Nat.add_comm, Nat.add_mul_div_right _ _ hn, Nat.div_eq_of_lt hr, Nat.zero_add]
    rw [hmod, hdiv]

section Cells

variable [Arith α]

/-- The cells of `f` at the transposed keys, sorted, lie inside the `n × n` bounds. -/
theorem transposedKeys_cells_lt {n : Nat} {f : Nat → Nat → α} :
    ∀ kv ∈ sortCells (nonzeroCells (transposedKeys n) f), kv.1.row < n ∧ kv.1.col < n := by
  intro kv hkv
  have hmem := (List.mergeSort_perm _ _).mem_iff.mp hkv
  exact mem_transposedKeys.mp (key_mem_of_mem_nonzeroCells hmem)

/-- The cells the adjugate loop keeps, `f (k % n) (k / n)` at `(k % n, k / n)` for each `k`
below `n · n` where it is not zero, are the cells of `f` at the transposed keys. -/
theorem filterMap_transposedKeys (n : Nat) (f : Nat → Nat → α) :
    ((List.range' 0 (n * n)).map fun k =>
        if Arith.isZero (f (k % n) (k / n)) then none
        else some ((⟨k % n, k / n⟩ : Key), f (k % n) (k / n))).filterMap id =
      nonzeroCells (transposedKeys n) f := by
  rw [nonzeroCells, transposedKeys, List.filterMap_map, List.filterMap_map]
  rfl

end Cells

/-! ## Inverting matrices -/

section Square

variable [Arith α] [Width α]

/-- A matrix that is not square has no inverse. -/
theorem inverse_notSquare (A : SparseMatrix α) (h : A.rowCount ≠ A.colCount) :
    A.inverse = .error (.error (.notSquare A.rowCount A.colCount)) := by
  have hsq : ensureSquare A = .error (.notSquare A.rowCount A.colCount) := by
    simp [ensureSquare, isSquare, h]
  unfold inverse
  rw [hsq]
  rfl

end Square

section Ring

variable [CommRing α] [Arith α]

/-- `X` inverts the `n × n` matrix `A`: it is `n × n`, runs its loops as `A` does, and
its entries are a right inverse of `A`'s. -/
structure IsInverse (A X : SparseMatrix α) (n : Nat) : Prop where
  rowCount : X.rowCount = n
  colCount : X.colCount = n
  range : X.range = A.range
  mul_eq_one : entryMatrix n A.get * entryMatrix n X.get = 1

theorem isInverse_empty (A : SparseMatrix α) : IsInverse A (A.derived 0 0) 0 where
  rowCount := rfl
  colCount := rfl
  range := rfl
  mul_eq_one := by
    ext i
    exact i.elim0

/-- A matrix whose entries off the diagonal are zero has the diagonal matrix of its
diagonal as its entries. -/
theorem entryMatrix_eq_diagonal {m : SparseMatrix α} {n : Nat}
    (hdiag : ∀ i j : Fin n, i ≠ j → m.get i j = 0) :
    entryMatrix n m.get = Matrix.diagonal fun i : Fin n => m.get i i := by
  ext i j
  by_cases h : i = j
  · subst h
    rw [Matrix.diagonal_apply_eq]
    rfl
  · rw [Matrix.diagonal_apply_ne _ h]
    exact hdiag i j h

/-- A diagonal matrix with a determinant other than zero has no zero on its diagonal. -/
theorem get_diagonal_ne_zero {m : SparseMatrix α} {n : Nat}
    (hdiag : ∀ i j : Fin n, i ≠ j → m.get i j = 0) (hdet : (entryMatrix n m.get).det ≠ 0)
    (i : Fin n) : m.get i i ≠ 0 := by
  rw [entryMatrix_eq_diagonal hdiag, Matrix.det_diagonal] at hdet
  exact fun h0 => hdet (Finset.prod_eq_zero (Finset.mem_univ i) h0)

section Exact

variable [Width α] [ExactArith α]

/-- A diagonal matrix reads zero off its diagonal. -/
theorem get_eq_zero_of_isDiagonal {m : SparseMatrix α} (h : m.isDiagonal = true) {r c : Nat}
    (hrc : r ≠ c) : m.get r c = 0 := by
  simp only [isDiagonal, Bool.and_eq_true, List.all_eq_true] at h
  cases hf : m.store.find? ⟨r, c⟩ with
  | none => rw [get, hf, Option.getD_none, ExactArith.zero_eq]
  | some v =>
    have hcell := h.2 _ (Store.mem_of_find?_eq_some hf)
    simp only [beq_iff_eq, Bool.or_eq_true] at hcell
    rw [get, hf, Option.getD_some]
    exact (ExactArith.isZero_iff v).mp (hcell.resolve_left hrc)

end Exact

end Ring

section Field

variable [Field α] [Arith α]

/-- The entries the adjugate path computes, `(-1)^(r+c) · det (minor c r) / d` inside the
bounds. -/
def adjugateFn (A : SparseMatrix α) (n : Nat) (d : α) (r c : Nat) : α :=
  if r < n ∧ c < n then (-1) ^ (c + r) * (entryMatrix (n - 1) (minorFn A.get c r)).det / d else 0

section Exact

variable [Width α] [ExactArith α]

/-- The reciprocals of the diagonal, written on the diagonal, invert a diagonal matrix
whose determinant is not zero. -/
theorem isInverse_reciprocals {A : SparseMatrix α} {n : Nat}
    (hdiag : ∀ i j : Fin n, i ≠ j → A.get i j = 0) (hdet : (entryMatrix n A.get).det ≠ 0) :
    IsInverse A ((A.derived n n).withCells
      ((List.range n).map fun i => ((⟨i, i⟩ : Key), 1 / A.get i i))) n where
  rowCount := rowCount_withCells fun kv hkv => (diagonal_cells_lt _ kv hkv).1
  colCount := colCount_withCells fun kv hkv => (diagonal_cells_lt _ kv hkv).2
  range := rfl
  mul_eq_one := by
    have hX : entryMatrix n ((A.derived n n).withCells
        ((List.range n).map fun i => ((⟨i, i⟩ : Key), 1 / A.get i i))).get =
        Matrix.diagonal fun i : Fin n => 1 / A.get i i := by
      ext i j
      simp only [entryMatrix, Matrix.of_apply, (cellsOf_diagonal n _).get_withCells]
      by_cases h : i = j
      · subst h
        rw [if_pos ⟨rfl, i.isLt⟩, Matrix.diagonal_apply_eq]
      · rw [if_neg fun h' => h (Fin.ext h'.1), Matrix.diagonal_apply_ne _ h, ExactArith.zero_eq]
    rw [entryMatrix_eq_diagonal hdiag, hX, Matrix.diagonal_mul_diagonal, ← Matrix.diagonal_one]
    congr 1
    funext i
    exact mul_one_div_cancel (get_diagonal_ne_zero hdiag hdet i)

/-- The adjugate over the determinant inverts a matrix whose determinant is not zero. -/
theorem isInverse_adjugate {A : SparseMatrix α} {n : Nat} (h1 : 1 ≤ n)
    (hdet : (entryMatrix n A.get).det ≠ 0) :
    IsInverse A ((A.derived n n).withCells
      (sortCells (nonzeroCells (transposedKeys n) (adjugateFn A n (entryMatrix n A.get).det)))) n where
  rowCount := rowCount_withCells fun kv hkv => (transposedKeys_cells_lt kv hkv).1
  colCount := colCount_withCells fun kv hkv => (transposedKeys_cells_lt kv hkv).2
  range := rfl
  mul_eq_one := by
    obtain ⟨k, rfl⟩ : ∃ k, n = k + 1 := ⟨n - 1, by omega⟩
    set M := entryMatrix (k + 1) A.get
    have hcells : CellsOf (sortCells (nonzeroCells (transposedKeys (k + 1)) (adjugateFn A (k + 1) M.det)))
        (adjugateFn A (k + 1) M.det) := by
      refine (cellsOf_nonzeroCells (transposedKeys_nodup _) fun r c hrc => ?_).perm
        (List.mergeSort_perm _ _).symm
      rw [adjugateFn, if_neg fun h => hrc (mem_transposedKeys.mpr h)]
    have hX : entryMatrix (k + 1) ((A.derived (k + 1) (k + 1)).withCells
        (sortCells (nonzeroCells (transposedKeys (k + 1)) (adjugateFn A (k + 1) M.det)))).get =
        M.det⁻¹ • M.adjugate := by
      ext i j
      simp only [entryMatrix, Matrix.of_apply, hcells.get_withCells, Matrix.smul_apply,
        smul_eq_mul]
      rw [adjugateFn, if_pos ⟨i.isLt, j.isLt⟩, Nat.add_sub_cancel, minor_entryMatrix,
        Matrix.adjugate_fin_succ_eq_det_submatrix, div_eq_inv_mul]
    rw [hX, Matrix.mul_smul, Matrix.mul_adjugate, smul_smul, inv_mul_cancel₀ hdet, one_smul]

/-! ## The paths of `inverse` -/

/-- A square matrix whose determinant is zero is singular. -/
theorem inverse_singular (A : SparseMatrix α) {n : Nat} (hrows : A.rowCount = n)
    (hcols : A.colCount = n) (hn : n ≤ Text.wordMax) (hc : A.range.cancelled = false)
    (hp : A.range.PartialsFit n) (hdet : (entryMatrix n A.get).det = 0) :
    A.inverse = .error (.error .singular) := by
  unfold inverse
  rw [ensureSquare_eq hrows hcols, liftError_pure, pure_bind, determinant_eq A hrows hcols hn hc hp,
    pure_bind, if_pos ((ExactArith.isZero_iff _).mpr hdet)]
  rfl

omit [Field α] [ExactArith α] in
/-- A square matrix whose loops over its rows cannot lay out their chunks' answers faults
while it computes its determinant, before it looks at it. -/
theorem inverse_partials_overflow (A : SparseMatrix α) {n : Nat} (hrows : A.rowCount = n)
    (hcols : A.colCount = n) (hc : A.range.cancelled = false) (hp : ¬A.range.PartialsFit n) :
    A.inverse = .error (.fault .capacityOverflow) := by
  unfold inverse
  rw [ensureSquare_eq hrows hcols, liftError_pure, pure_bind,
    determinant_partials_overflow A hrows hcols hc hp]
  rfl

/-- Past the square root of the largest word, the adjugate path of a matrix that is not
diagonal cannot count the cells it visits. -/
theorem inverse_mulOverflow (A : SparseMatrix α) {n : Nat} (hrows : A.rowCount = n)
    (hcols : A.colCount = n) (hn : n ≤ Text.wordMax) (hc : A.range.cancelled = false)
    (hp : A.range.PartialsFit n) (hdet : (entryMatrix n A.get).det ≠ 0)
    (hd : A.isDiagonal = false) (h2 : 2 ≤ n) (hbig : Text.wordMax < n * n) :
    A.inverse = .error (.fault .mulOverflow) := by
  have hz : ¬(Arith.isZero (entryMatrix n A.get).det = true) := fun h => hdet ((ExactArith.isZero_iff _).mp h)
  have hmul : Size.mul n n = .error .mulOverflow := by
    simp [Size.mul, Size.fit, Nat.not_le.mpr hbig]
  unfold inverse
  rw [ensureSquare_eq hrows hcols, liftError_pure, pure_bind, determinant_eq A hrows hcols hn hc hp,
    pure_bind, if_neg hz]
  dsimp only
  rw [if_neg (by omega), if_neg (by omega), if_neg (by simp [hd]), hmul]
  rfl

/-- The adjugate path of a matrix that is not diagonal faults when the answers of the chunks
of its loop over the `n · n` cofactors do not fit their buffer. -/
theorem inverse_adjugate_partials_overflow (A : SparseMatrix α) {n : Nat}
    (hrows : A.rowCount = n) (hcols : A.colCount = n) (hn : n ≤ Text.wordMax)
    (hc : A.range.cancelled = false) (hp : A.range.PartialsFit n)
    (hdet : (entryMatrix n A.get).det ≠ 0) (hd : A.isDiagonal = false) (h2 : 2 ≤ n)
    (hnn : n * n ≤ Text.wordMax) (hpn : ¬A.range.PartialsFit (n * n)) :
    A.inverse = .error (.fault .capacityOverflow) := by
  have hz : ¬(Arith.isZero (entryMatrix n A.get).det = true) := fun h => hdet ((ExactArith.isZero_iff _).mp h)
  unfold inverse
  rw [ensureSquare_eq hrows hcols, liftError_pure, pure_bind, determinant_eq A hrows hcols hn hc hp,
    pure_bind, if_neg hz]
  dsimp only
  rw [if_neg (by omega), if_neg (by omega), if_neg (by simp [hd]), Size.mul_eq hnn, liftFault_pure,
    pure_bind, Range.tryMap_zero_partials_overflow hc hpn]
  rfl

variable [ExactDiv α]

/-- A square matrix whose determinant is not zero is inverted, on the diagonal path or
when the `n · n` cofactors of the adjugate can be counted in a machine word and the answers
of the chunks of the loop over them fit their buffer. -/
theorem inverse_of_det_ne_zero (A : SparseMatrix α) {n : Nat} (hrows : A.rowCount = n)
    (hcols : A.colCount = n) (hn : n ≤ Text.wordMax) (hc : A.range.cancelled = false)
    (hp : A.range.PartialsFit n) (hdet : (entryMatrix n A.get).det ≠ 0)
    (hfit : A.isDiagonal = true ∨ n * n ≤ Text.wordMax ∧ A.range.PartialsFit (n * n)) :
    ∃ X, A.inverse = pure X ∧ IsInverse A X n := by
  have hz : ¬(Arith.isZero (entryMatrix n A.get).det = true) := fun h => hdet ((ExactArith.isZero_iff _).mp h)
  unfold inverse
  rw [ensureSquare_eq hrows hcols, liftError_pure, pure_bind, determinant_eq A hrows hcols hn hc hp,
    pure_bind, if_neg hz]
  dsimp only
  by_cases h0 : n = 0
  case pos =>
    subst h0
    exact ⟨_, rfl, isInverse_empty A⟩
  rw [if_neg h0]
  by_cases h1 : n = 1
  case pos =>
    subst h1
    have hdiag : ∀ i j : Fin 1, i ≠ j → A.get i j = 0 := fun i j hij => absurd (Subsingleton.elim i j) hij
    rw [if_pos rfl, ExactArith.one_eq, ExactDiv.div_eq _ _ hdet, liftFault_pure, pure_bind,
      Matrix.det_fin_one]
    exact ⟨_, rfl, isInverse_reciprocals hdiag hdet⟩
  rw [if_neg h1]
  by_cases hd : A.isDiagonal = true
  case pos =>
    have hdiag : ∀ i j : Fin n, i ≠ j → A.get i j = 0 :=
      fun i j hij => get_eq_zero_of_isDiagonal hd fun h => hij (Fin.ext h)
    rw [if_pos hd, Range.tryMap_of_ok (f := fun i => ((⟨i, i⟩ : Key), 1 / A.get i i))
      (range_degree A) (by omega) hc (by rwa [Nat.sub_zero]) (by simp) fun i _ hi => ?_]
    · rw [pure_bind, Nat.sub_zero, ← List.range_eq_range']
      exact ⟨_, rfl, isInverse_reciprocals hdiag hdet⟩
    · rw [ExactArith.one_eq, ExactDiv.div_eq _ _ (get_diagonal_ne_zero hdiag hdet ⟨i, hi⟩),
        liftFault_pure, pure_bind]
  rw [if_neg hd]
  obtain ⟨hnn, hpn⟩ := hfit.resolve_left hd
  rw [Size.mul_eq hnn, liftFault_pure, pure_bind,
    Range.tryMap_of_ok (f := fun k =>
      if Arith.isZero (adjugateFn A n (entryMatrix n A.get).det (k % n) (k / n)) then none
      else some ((⟨k % n, k / n⟩ : Key), adjugateFn A n (entryMatrix n A.get).det (k % n) (k / n)))
    (range_degree A) (by omega) hc (by rwa [Nat.sub_zero]) (by simp) fun k _ hk => ?_]
  · rw [pure_bind, Nat.sub_zero, filterMap_transposedKeys]
    exact ⟨_, rfl, isInverse_adjugate (by omega) hdet⟩
  · -- one cofactor: the minor's determinant, its sign, and the quotient by the determinant
    have hkn : k / n < n := Nat.div_lt_of_lt_mul hk
    have hkm : k % n < n := Nat.mod_lt k (by omega)
    have hval : adjugateFn A n (entryMatrix n A.get).det (k % n) (k / n) =
        (-1) ^ (k / n + k % n) * (entryMatrix (n - 1) (minorFn A.get (k / n) (k % n))).det /
          (entryMatrix n A.get).det := by
      rw [adjugateFn, if_pos ⟨hkm, hkn⟩]
    rw [Tabulated.read_of, Tabulated.read_of,
      det_eq (range_degree A) hc (n - 1) _ (by omega) (hp.of_le (Nat.sub_le n 1)),
      pure_bind, ExactArith.signed_eq, liftFault_pure, pure_bind, ExactDiv.div_eq _ _ hdet,
      liftFault_pure, pure_bind, hval]

/-- Over an exact field, for a square matrix whose token is not cancelled: `inverse` is
`singular` exactly when the determinant is zero. When the determinant is computed and is not
zero, and the matrix is diagonal or the answers of the chunks of the loop over its `n · n`
cofactors, counted in a machine word, fit their buffer, it returns an `n × n` matrix whose
products with the operand, on either side, equal the identity; a matrix of size at least two
that is not diagonal faults with `mulOverflow` when its cofactors cannot be counted and with
`capacityOverflow` when their chunks' answers do not fit. A matrix whose loops over its rows
cannot lay out their answers faults with `capacityOverflow`, and one that is not square has no
inverse. -/
theorem inverse_exact [Host] (A : SparseMatrix α) (hn : A.rowCount ≤ Text.wordMax)
    (hc : A.token.any (·.cancelled) = false) :
    (A.rowCount ≠ A.colCount → A.inverse = .error (.error (.notSquare A.rowCount A.colCount))) ∧
    (A.rowCount = A.colCount →
      (A.inverse = .error (.error .singular) ↔ A.determinant = .ok 0) ∧
      (∀ d, A.determinant = .ok d → d ≠ 0 →
        (A.isDiagonal = true ∨
          A.rowCount * A.rowCount ≤ Text.wordMax ∧ A.range.PartialsFit (A.rowCount * A.rowCount)) →
        ∃ X, A.inverse = .ok X ∧ X.dims = (A.rowCount, A.rowCount) ∧
          (A.dotProduct X).map (·.beq (identity A.rowCount)) = .ok true ∧
          (X.dotProduct A).map (·.beq (identity A.rowCount)) = .ok true) ∧
      (∀ d, A.determinant = .ok d → d ≠ 0 → A.isDiagonal = false → 2 ≤ A.rowCount →
        Text.wordMax < A.rowCount * A.rowCount → A.inverse = .error (.fault .mulOverflow)) ∧
      (∀ d, A.determinant = .ok d → d ≠ 0 → A.isDiagonal = false → 2 ≤ A.rowCount →
        A.rowCount * A.rowCount ≤ Text.wordMax → ¬A.range.PartialsFit (A.rowCount * A.rowCount) →
        A.inverse = .error (.fault .capacityOverflow)) ∧
      (¬A.range.PartialsFit A.rowCount → A.inverse = .error (.fault .capacityOverflow))) := by
  refine ⟨inverse_notSquare A, fun hsq => ?_⟩
  have hfits : ∀ d, A.determinant = .ok d → A.range.PartialsFit A.rowCount :=
    fun _ => partialsFit_of_determinant_ok rfl hsq.symm hc
  have hvalue : ∀ d, A.determinant = .ok d → (entryMatrix A.rowCount A.get).det = d := fun d h => by
    rw [determinant_eq A rfl hsq.symm hn hc (hfits d h)] at h
    injection h
  refine ⟨⟨fun h => ?_, fun h => ?_⟩, fun d hd hne hfit => ?_,
    fun d hd hne hdiag h2 hbig => ?_, fun d hd hne hdiag h2 hnn hpn => ?_,
    inverse_partials_overflow A rfl hsq.symm hc⟩
  · -- `singular` is thrown after the determinant is computed, and only when it is zero
    by_cases hp : A.range.PartialsFit A.rowCount
    case neg =>
      rw [inverse_partials_overflow A rfl hsq.symm hc hp] at h
      cases h
    rw [determinant_eq A rfl hsq.symm hn hc hp]
    refine congrArg pure (Classical.byContradiction fun hne => ?_)
    by_cases hfit : A.isDiagonal = true ∨
        A.rowCount * A.rowCount ≤ Text.wordMax ∧ A.range.PartialsFit (A.rowCount * A.rowCount)
    · obtain ⟨X, hX, -⟩ := inverse_of_det_ne_zero A rfl hsq.symm hn hc hp hne hfit
      rw [hX] at h
      cases h
    have hd : A.isDiagonal = false := by simpa using (not_or.mp hfit).1
    -- past the diagonal path, the cofactors cannot be counted or their answers do not fit
    rcases Nat.lt_or_ge Text.wordMax (A.rowCount * A.rowCount) with hbig | hnn
    · have h2 : 2 ≤ A.rowCount :=
        one_lt_mul_self_iff.mp (Nat.lt_of_le_of_lt (by decide) hbig)
      rw [inverse_mulOverflow A rfl hsq.symm hn hc hp hne hd h2 hbig] at h
      cases h
    · have hpn : ¬A.range.PartialsFit (A.rowCount * A.rowCount) :=
        fun hpn => (not_or.mp hfit).2 ⟨hnn, hpn⟩
      have hbuf : ¬A.rowCount * A.rowCount * partialBytes ≤ bufferLimit :=
        fun h' => hpn (Range.partialsFit_of_length h')
      have h2 : 2 ≤ A.rowCount := one_lt_mul_self_iff.mp (Nat.lt_of_not_le fun hle =>
        hbuf (Nat.le_trans (Nat.mul_le_mul_right _ hle) (by decide)))
      rw [inverse_adjugate_partials_overflow A rfl hsq.symm hn hc hp hne hd h2 hnn hpn] at h
      cases h
  · have hp := hfits 0 h
    rw [determinant_eq A rfl hsq.symm hn hc hp] at h
    exact inverse_singular A rfl hsq.symm hn hc hp (by injection h)
  · have hp := hfits d hd
    have hne' : (entryMatrix A.rowCount A.get).det ≠ 0 := by rw [hvalue d hd]; exact hne
    obtain ⟨X, hX, hinv⟩ := inverse_of_det_ne_zero A rfl hsq.symm hn hc hp hne' hfit
    have hcX : X.range.cancelled = false := by rw [hinv.range]; exact hc
    refine ⟨X, hX, by rw [dims, hinv.rowCount, hinv.colCount], ?_, ?_⟩
    · exact dotProduct_beq_identity rfl hsq.symm hinv.rowCount hinv.colCount hn hc hp
        hinv.mul_eq_one
    · exact dotProduct_beq_identity hinv.rowCount hinv.colCount rfl hsq.symm hn hcX
        (by rw [hinv.range]; exact hp) (mul_eq_one_comm.mp hinv.mul_eq_one)
  · exact inverse_mulOverflow A rfl hsq.symm hn hc (hfits d hd) (by rw [hvalue d hd]; exact hne)
      hdiag h2 hbig
  · exact inverse_adjugate_partials_overflow A rfl hsq.symm hn hc (hfits d hd)
      (by rw [hvalue d hd]; exact hne) hdiag h2 hnn hpn

end Exact

end Field

/-! ## Rational matrices -/

open Host in
theorem inverse_exact_upper :
    ((identity 2 : SparseMatrix ℚ).set 0 1 3).rowCount ≤ Text.wordMax ∧
      ((identity 2 : SparseMatrix ℚ).set 0 1 3).token.any (·.cancelled) = false ∧
      (((identity 2 : SparseMatrix ℚ).set 0 1 3).rowCount ≠ ((identity 2 : SparseMatrix ℚ).set 0 1 3).colCount →
        ((identity 2 : SparseMatrix ℚ).set 0 1 3).inverse =
          .error (.error (.notSquare ((identity 2 : SparseMatrix ℚ).set 0 1 3).rowCount ((identity 2 : SparseMatrix ℚ).set 0 1 3).colCount))) ∧
      (((identity 2 : SparseMatrix ℚ).set 0 1 3).rowCount = ((identity 2 : SparseMatrix ℚ).set 0 1 3).colCount →
        (((identity 2 : SparseMatrix ℚ).set 0 1 3).inverse = .error (.error .singular) ↔ ((identity 2 : SparseMatrix ℚ).set 0 1 3).determinant = .ok 0) ∧
        (∀ d, ((identity 2 : SparseMatrix ℚ).set 0 1 3).determinant = .ok d → d ≠ 0 →
          (((identity 2 : SparseMatrix ℚ).set 0 1 3).isDiagonal = true ∨
            ((identity 2 : SparseMatrix ℚ).set 0 1 3).rowCount * ((identity 2 : SparseMatrix ℚ).set 0 1 3).rowCount ≤ Text.wordMax ∧
              ((identity 2 : SparseMatrix ℚ).set 0 1 3).range.PartialsFit (((identity 2 : SparseMatrix ℚ).set 0 1 3).rowCount * ((identity 2 : SparseMatrix ℚ).set 0 1 3).rowCount)) →
          ∃ X, ((identity 2 : SparseMatrix ℚ).set 0 1 3).inverse = .ok X ∧ X.dims = (((identity 2 : SparseMatrix ℚ).set 0 1 3).rowCount, ((identity 2 : SparseMatrix ℚ).set 0 1 3).rowCount) ∧
            (((identity 2 : SparseMatrix ℚ).set 0 1 3).dotProduct X).map (·.beq (identity ((identity 2 : SparseMatrix ℚ).set 0 1 3).rowCount)) = .ok true ∧
            (X.dotProduct ((identity 2 : SparseMatrix ℚ).set 0 1 3)).map (·.beq (identity ((identity 2 : SparseMatrix ℚ).set 0 1 3).rowCount)) = .ok true) ∧
        (∀ d, ((identity 2 : SparseMatrix ℚ).set 0 1 3).determinant = .ok d → d ≠ 0 → ((identity 2 : SparseMatrix ℚ).set 0 1 3).isDiagonal = false →
          2 ≤ ((identity 2 : SparseMatrix ℚ).set 0 1 3).rowCount → Text.wordMax < ((identity 2 : SparseMatrix ℚ).set 0 1 3).rowCount * ((identity 2 : SparseMatrix ℚ).set 0 1 3).rowCount →
          ((identity 2 : SparseMatrix ℚ).set 0 1 3).inverse = .error (.fault .mulOverflow)) ∧
        (∀ d, ((identity 2 : SparseMatrix ℚ).set 0 1 3).determinant = .ok d → d ≠ 0 → ((identity 2 : SparseMatrix ℚ).set 0 1 3).isDiagonal = false →
          2 ≤ ((identity 2 : SparseMatrix ℚ).set 0 1 3).rowCount → ((identity 2 : SparseMatrix ℚ).set 0 1 3).rowCount * ((identity 2 : SparseMatrix ℚ).set 0 1 3).rowCount ≤ Text.wordMax →
          ¬((identity 2 : SparseMatrix ℚ).set 0 1 3).range.PartialsFit (((identity 2 : SparseMatrix ℚ).set 0 1 3).rowCount * ((identity 2 : SparseMatrix ℚ).set 0 1 3).rowCount) →
          ((identity 2 : SparseMatrix ℚ).set 0 1 3).inverse = .error (.fault .capacityOverflow)) ∧
        (¬((identity 2 : SparseMatrix ℚ).set 0 1 3).range.PartialsFit ((identity 2 : SparseMatrix ℚ).set 0 1 3).rowCount →
          ((identity 2 : SparseMatrix ℚ).set 0 1 3).inverse = .error (.fault .capacityOverflow))) :=
  ⟨by decide, rfl, inverse_exact _ (by decide) rfl⟩

open Host in
/-- The upper unitriangular matrix of size `2^32` with a one at `(0, 1)` has determinant
one, yet `inverse` faults: its `2^64` cofactors cannot be counted in a machine word. -/
theorem inverse_unitriangular_overflow :
    ((identity 4294967296 : SparseMatrix ℚ).set 0 1 1).determinant = .ok 1 ∧
      ((identity 4294967296 : SparseMatrix ℚ).set 0 1 1).inverse = .error (.fault .mulOverflow) := by
  have hrows : ((identity 4294967296 : SparseMatrix ℚ).set 0 1 1).rowCount = 4294967296 := by
    rw [rowCount_set, rowCount_identity]
    exact Nat.max_eq_left (succSat_le (by decide))
  have hcols : ((identity 4294967296 : SparseMatrix ℚ).set 0 1 1).colCount = 4294967296 := by
    rw [colCount_set, colCount_identity]
    exact Nat.max_eq_left (succSat_le (by decide))
  have hn : (4294967296 : Nat) ≤ Text.wordMax := by decide
  have hdet : (entryMatrix 4294967296 ((identity 4294967296 : SparseMatrix ℚ).set 0 1 1).get).det = 1 := by
    rw [Matrix.det_of_isUpperTriangular]
    · refine Finset.prod_eq_one fun i _ => ?_
      have h0 : ¬(0 = (i : Nat) ∧ 1 = (i : Nat)) := by omega
      rw [entryMatrix_apply, get_set, if_neg h0, get_identity, if_pos ⟨rfl, i.isLt⟩, ExactArith.one_eq]
    · intro i j hji
      have hlt : (j : Nat) < i := hji
      have h0 : ¬(0 = (i : Nat) ∧ 1 = (j : Nat)) := by omega
      have hij : ¬((i : Nat) = j ∧ (i : Nat) < 4294967296) := by omega
      rw [entryMatrix_apply, get_set, if_neg h0, get_identity, if_neg hij, ExactArith.zero_eq]
  have hmem : ((⟨0, 1⟩ : Key), (1 : ℚ)) ∈ ((identity 4294967296 : SparseMatrix ℚ).set 0 1 1).entries := by
    rw [entries_set]
    exact Store.mem_insertCell _ _ _
  have hd : ((identity 4294967296 : SparseMatrix ℚ).set 0 1 1).isDiagonal = false := by
    unfold isDiagonal
    rw [List.all_eq_false.mpr ⟨_, hmem, by simp [Arith.isZero, Arith.eq, Arith.zero]⟩, Bool.and_false]
  -- four billion rows cut into one chunk each lay out their answers in a buffer that fits
  have hp : ((identity 4294967296 : SparseMatrix ℚ).set 0 1 1).range.PartialsFit 4294967296 :=
    Range.partialsFit_of_length (by decide)
  refine ⟨?_, inverse_mulOverflow _ hrows hcols hn rfl hp (by rw [hdet]; exact one_ne_zero) hd
    (by decide) (by decide)⟩
  rw [determinant_eq _ hrows hcols hn rfl hp, hdet]
  rfl

end SparseMatrix
