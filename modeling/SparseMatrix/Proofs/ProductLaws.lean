import SparseMatrix.LinearAlgebra
import SparseMatrix.Proofs.Orthogonal

/-!
# Laws of the product

Over exact arithmetic the product, the transpose and the powers obey the laws of matrix
algebra, stated on the matrices the operations return and compared by the matrices' own
equality (`beq`), which reads values and passes over stored zeros. Two matrices of one
size whose cells lie inside their bounds, each key once, are equal as soon as they read
the same values inside the bounds (`beq_of_get`); every product and every transpose is
such a matrix.

* The transpose of a product is the product of the transposes in the other order
  (`transpose_dotProduct`): at `(j, i)` both sides read `Σ_p a(i,p) · b(p,j)`, the
  product of the transposes summing `b(p,j) · a(i,p)`. Each side runs loops under the
  token of one operand, so a cancelled token stops one side and not the other.
* A power past the zeroth is a copy of the matrix multiplied by the matrix again and
  again, so the `e`-th power reads the `e`-th power of the entry matrix
  (`power_squareCells`), and `power (a + b)` is the product of `power a` and `power b`
  (`power_add`). The first power is a copy made with no loop, which keeps every cell as
  written: a cancelled token, which stops any product, and a cell on the saturated bounds,
  which no product reads, both break the law at `a + b = 1`.
-/

namespace SparseMatrix

variable {α : Type}

/-! ## Equal values, equal matrices -/

/-- An `n × n` matrix whose cells lie inside its bounds, each key once, as every product
and every power is: `beq` compares such matrices by the values they read. -/
structure SquareCells (n : Nat) (P : SparseMatrix α) : Prop where
  rows : P.rowCount = n
  cols : P.colCount = n
  inside : P.store.Bounded 0
  nodup : (P.entries.map Prod.fst).Nodup

theorem SquareCells.dims {n : Nat} {P : SparseMatrix α} (h : SquareCells n P) :
    P.dims = (n, n) := by
  rw [SparseMatrix.dims, h.rows, h.cols]

variable [CommRing α] [Arith α] [Width α] [ExactArith α]

/-- Over exact arithmetic, two matrices of one size whose cells lie inside their bounds,
each key once, are equal when they read the same values inside the bounds. -/
theorem beq_of_get {a b : SparseMatrix α} (hdims : a.dims = b.dims)
    (ha : (a.entries.map Prod.fst).Nodup) (hb : (b.entries.map Prod.fst).Nodup)
    (hina : a.store.Bounded 0) (hinb : b.store.Bounded 0)
    (hget : ∀ r < a.rowCount, ∀ c < a.colCount, a.get r c = b.get r c) : a.beq b = true := by
  have hrows : a.rowCount = b.rowCount := congrArg Prod.fst hdims
  have hcols : a.colCount = b.colCount := congrArg Prod.snd hdims
  have hcell : ∀ {m : SparseMatrix α}, (m.entries.map Prod.fst).Nodup → ∀ kv ∈ m.entries,
      kv.2 = m.get kv.1.row kv.1.col := by
    intro m hm kv hkv
    rw [get, Store.find?_of_mem hm hkv, Option.getD_some]
  simp only [beq, hdims, beq_self_eq_true, Bool.true_and, Bool.and_eq_true, List.all_eq_true]
  constructor
  · intro kv hkv
    obtain ⟨hr, hc⟩ := hina kv hkv
    rw [ExactArith.eq_iff, hcell ha kv hkv]
    exact hget _ hr _ hc
  · intro kv hkv
    obtain ⟨hr, hc⟩ := hinb kv hkv
    have hr' : kv.1.row < a.rowCount := hrows ▸ hr
    have hc' : kv.1.col < a.colCount := hcols ▸ hc
    rw [ExactArith.eq_iff, hcell hb kv hkv]
    exact (hget _ hr' _ hc').symm

/-- Two `n × n` matrices with their cells inside their bounds, each key once, are equal when
their entry matrices are. -/
theorem SquareCells.beq {n : Nat} {P Q : SparseMatrix α} (hP : SquareCells n P)
    (hQ : SquareCells n Q) (h : entryMatrix n P.get = entryMatrix n Q.get) : P.beq Q = true := by
  refine beq_of_get (hP.dims.trans hQ.dims.symm) hP.nodup hQ.nodup hP.inside hQ.inside
    fun r hr c hc => ?_
  rw [hP.rows] at hr
  rw [hP.cols] at hc
  simpa using congrFun (congrFun h ⟨r, hr⟩) ⟨c, hc⟩

/-- Over exact arithmetic, a product with agreeing inner sizes under a token that is not
cancelled, whose loop over the rows lays out its chunks' answers, returns an `m × n` matrix,
under the loops of `a`, that reads the sums `productFn a b`. -/
theorem dotProduct_ok (a b : SparseMatrix α) (hk : a.colCount = b.rowCount)
    (hm : a.rowCount ≤ Text.wordMax) (hc : a.range.cancelled = false)
    (hp : a.range.PartialsFit a.rowCount) :
    ∃ p, a.dotProduct b = .ok p ∧ p.rowCount = a.rowCount ∧ p.colCount = b.colCount ∧
      p.range = a.range ∧ p.get = productFn a b := by
  have hdims := dims_productCells a b
  exact ⟨_, dotProduct_eq a b hk hm hc hp, congrArg Prod.fst hdims, congrArg Prod.snd hdims,
    by simp, funext₂ ((cellsOf_productFn a b).get_withCells _)⟩

/-! ## The transpose of a product -/

omit [Width α] [ExactArith α] in
/-- The product of the transposes reads at `(j, i)` the product's sum at `(i, j)`: the same
terms, each multiplied the other way round. -/
theorem productFn_transpose {a b ta tb : SparseMatrix α} (hta : a.transpose = .ok ta)
    (htb : b.transpose = .ok tb) (hk : a.colCount = b.rowCount) {j i : Nat}
    (hj : j < b.colCount) (hi : i < a.rowCount) : productFn tb ta j i = productFn a b i j := by
  obtain ⟨htar, htac⟩ := dims_transpose hta
  obtain ⟨htbr, htbc⟩ := dims_transpose htb
  rw [productFn_of_lt (by omega) (by omega), productFn_of_lt hi hj,
    Fin.sum_univ_eq_sum_range (fun p => tb.get j p * ta.get p i),
    Fin.sum_univ_eq_sum_range (fun p => a.get i p * b.get p j), htbc, ← hk]
  refine Finset.sum_congr rfl fun p hp => ?_
  have hp' : p < a.colCount := Finset.mem_range.mp hp
  rw [get_transpose htb hj (hk ▸ hp'), get_transpose hta hp' hi, mul_comm]

/-- Over exact arithmetic, the transpose of the product of an `m × k` and a `k × n` matrix
is the product of their transposes in the other order, and both are `n × m`, when neither
token is cancelled, `m` and `n` are machine words, and the loops lay out their chunks'
answers: those of `a` over `m`, `k` and `n` indices, that of `b` over `n`. -/
theorem transpose_dotProduct (a b : SparseMatrix α) (hk : a.colCount = b.rowCount)
    (hm : a.rowCount ≤ Text.wordMax) (hn : b.colCount ≤ Text.wordMax)
    (hca : a.token.any (·.cancelled) = false) (hcb : b.token.any (·.cancelled) = false)
    (hpa : a.range.PartialsFit (max (max a.rowCount a.colCount) b.colCount))
    (hpb : b.range.PartialsFit b.colCount) :
    ∃ p l tb ta r, a.dotProduct b = .ok p ∧ p.transpose = .ok l ∧ b.transpose = .ok tb ∧
      a.transpose = .ok ta ∧ tb.dotProduct ta = .ok r ∧
      l.dims = (b.colCount, a.rowCount) ∧ r.dims = (b.colCount, a.rowCount) ∧ l.beq r = true := by
  obtain ⟨p, hp, hpr, hpc, hprange, hpget⟩ :=
    dotProduct_ok a b hk hm hca (hpa.of_le (by omega))
  obtain ⟨l, hl⟩ : ∃ l, p.transpose = .ok l := ⟨_, transpose_eq p (by rw [hprange]; exact hca)
    (by rw [hprange, hpc]; exact hpa.of_le (by omega))⟩
  obtain ⟨tb, htb⟩ : ∃ tb, b.transpose = .ok tb := ⟨_, transpose_eq b hcb hpb⟩
  obtain ⟨ta, hta⟩ : ∃ ta, a.transpose = .ok ta :=
    ⟨_, transpose_eq a hca (hpa.of_le (by omega))⟩
  obtain ⟨hlr, hlc⟩ := dims_transpose hl
  obtain ⟨htbr, htbc⟩ := dims_transpose htb
  obtain ⟨htar, htac⟩ := dims_transpose hta
  -- the product of the transposes runs under the token of `b`
  obtain ⟨r, hr, hrr, hrc, -, hrget⟩ := dotProduct_ok tb ta (by omega) (by omega)
    (by rw [range_transpose htb]; exact hcb) (by rw [range_transpose htb, htbr]; exact hpb)
  have hldims : l.dims = (b.colCount, a.rowCount) := by rw [dims, hlr, hlc, hpr, hpc]
  have hrdims : r.dims = (b.colCount, a.rowCount) := by rw [dims, hrr, hrc, htbr, htac]
  refine ⟨p, l, tb, ta, r, hp, hl, htb, hta, hr, hldims, hrdims, ?_⟩
  refine beq_of_get (hldims.trans hrdims.symm)
    (transpose_ordered (dotProduct_ordered hp) hl).nodup (dotProduct_ordered hr).nodup
    (transpose_bounded hl) (dotProduct_bounded hr) fun j hj i hi => ?_
  rw [hlr, hpc] at hj
  rw [hlc, hpr] at hi
  rw [get_transpose hl (by omega) (by omega), hpget, hrget, productFn_transpose hta htb hk hj hi]

open Host in
/-- The transpose of the product of a `1 × 2` and a `2 × 3` matrix. -/
theorem transpose_dotProduct_row :
    ((zeros 1 2 : SparseMatrix ℤ).set 0 1 3).colCount =
        ((zeros 2 3 : SparseMatrix ℤ).set 1 2 5).rowCount ∧
      ((zeros 1 2 : SparseMatrix ℤ).set 0 1 3).rowCount ≤ Text.wordMax ∧
      ((zeros 2 3 : SparseMatrix ℤ).set 1 2 5).colCount ≤ Text.wordMax ∧
      ((zeros 1 2 : SparseMatrix ℤ).set 0 1 3).token.any (·.cancelled) = false ∧
      ((zeros 2 3 : SparseMatrix ℤ).set 1 2 5).token.any (·.cancelled) = false ∧
      ((zeros 1 2 : SparseMatrix ℤ).set 0 1 3).range.PartialsFit
        (max (max ((zeros 1 2 : SparseMatrix ℤ).set 0 1 3).rowCount
          ((zeros 1 2 : SparseMatrix ℤ).set 0 1 3).colCount)
          ((zeros 2 3 : SparseMatrix ℤ).set 1 2 5).colCount) ∧
      ((zeros 2 3 : SparseMatrix ℤ).set 1 2 5).range.PartialsFit
        ((zeros 2 3 : SparseMatrix ℤ).set 1 2 5).colCount ∧
      ∃ p l tb ta r,
        ((zeros 1 2 : SparseMatrix ℤ).set 0 1 3).dotProduct ((zeros 2 3).set 1 2 5) = .ok p ∧
        p.transpose = .ok l ∧ ((zeros 2 3 : SparseMatrix ℤ).set 1 2 5).transpose = .ok tb ∧
        ((zeros 1 2 : SparseMatrix ℤ).set 0 1 3).transpose = .ok ta ∧ tb.dotProduct ta = .ok r ∧
        l.dims = (((zeros 2 3 : SparseMatrix ℤ).set 1 2 5).colCount,
          ((zeros 1 2 : SparseMatrix ℤ).set 0 1 3).rowCount) ∧
        r.dims = (((zeros 2 3 : SparseMatrix ℤ).set 1 2 5).colCount,
          ((zeros 1 2 : SparseMatrix ℤ).set 0 1 3).rowCount) ∧ l.beq r = true :=
  ⟨by decide, by decide, by decide, rfl, rfl, by decide, by decide,
    transpose_dotProduct _ _ (by decide) (by decide) (by decide) rfl rfl (by decide) (by decide)⟩

open Host in
/-- Each side of the law loops under one operand's token. With the left operand's token
cancelled, a `1 × 0` by `0 × 1` product is refused while the product of the transposes
runs; with the right operand's token cancelled, the product and its transpose run while
the right operand's transpose is refused. -/
theorem transpose_dotProduct_cancelled :
    (zeros 1 0 : SparseMatrix ℤ).attachToken.cancel.dotProduct (zeros 0 1) =
        .error (.error .cancelled) ∧
      (∃ tb ta r, (zeros 0 1 : SparseMatrix ℤ).transpose = .ok tb ∧
        (zeros 1 0 : SparseMatrix ℤ).attachToken.cancel.transpose = .ok ta ∧
        tb.dotProduct ta = .ok r ∧ r.dims = (1, 1)) ∧
      (∃ p l, (identity 1 : SparseMatrix ℤ).dotProduct (identity 1).attachToken.cancel = .ok p ∧
        p.transpose = .ok l) ∧
      (identity 1 : SparseMatrix ℤ).attachToken.cancel.transpose = .error (.error .cancelled) := by
  refine ⟨dotProduct_cancelled rfl rfl Nat.one_pos, ?_, ?_, rfl⟩
  · -- the transposes of a `0 × 1` and a `1 × 0` matrix multiply to the `1 × 1` zero matrix
    obtain ⟨tb, htb⟩ : ∃ tb, (zeros 0 1 : SparseMatrix ℤ).transpose = .ok tb :=
      ⟨_, transpose_eq _ rfl (by decide)⟩
    obtain ⟨ta, hta⟩ : ∃ ta, (zeros 1 0 : SparseMatrix ℤ).attachToken.cancel.transpose = .ok ta :=
      ⟨_, rfl⟩
    obtain ⟨htbr, htbc⟩ := dims_transpose htb
    obtain ⟨htar, htac⟩ := dims_transpose hta
    obtain ⟨r, hr, hrr, hrc, -⟩ := dotProduct_ok tb ta (htbc.trans htar.symm)
      (by rw [htbr]; decide) (by rw [range_transpose htb]; rfl)
      (by rw [range_transpose htb, htbr]; decide)
    exact ⟨tb, ta, r, htb, hta, hr, by rw [dims, hrr, hrc, htbr, htac]; rfl⟩
  · obtain ⟨p, hp, -, -, hprange, -⟩ :=
      dotProduct_ok (identity 1 : SparseMatrix ℤ) (identity 1).attachToken.cancel rfl
        (by decide) rfl (by decide)
    exact ⟨p, _, hp, transpose_eq p (by rw [hprange]; rfl)
      (by rw [hprange]; exact Range.partialsFit_of_degree_le_one (by decide) _)⟩

/-! ## Powers -/

omit [CommRing α] [ExactArith α] in
/-- A matrix that is not square has no power. -/
theorem power_notSquare {A : SparseMatrix α} (hsq : A.isSquare = false) (e : Nat) :
    A.power e = .error (.error (.notSquare A.rowCount A.colCount)) := by
  simp only [power, ensureSquare, hsq, Bool.false_eq_true, if_false]
  rfl

omit [CommRing α] [ExactArith α] in
/-- The zeroth power of an `n × n` matrix is the diagonal of ones, under its loops. -/
theorem power_zero_eq {A : SparseMatrix α} {n : Nat} (hr : A.rowCount = n)
    (hc : A.colCount = n) :
    A.power 0 = pure ((A.derived n n).withCells
      ((List.range n).map fun i => ((⟨i, i⟩ : Key), Arith.one))) := by
  simp [power, ensureSquare_eq hr hc]

omit [CommRing α] [ExactArith α] in
/-- A power past the zeroth multiplies a copy of the matrix by the matrix, once for each
further factor. -/
theorem power_succ_eq {A : SparseMatrix α} {n : Nat} (hr : A.rowCount = n)
    (hc : A.colCount = n) (k : Nat) : A.power (k + 1) = timesPower A k A.clone := by
  simp [power, ensureSquare_eq hr hc]

/-- The diagonal of ones of size `n` reads the identity matrix. -/
theorem entryMatrix_diagonal_one (n : Nat) :
    entryMatrix n (fun r c => if r = c ∧ r < n then (Arith.one : α) else Arith.zero) = 1 := by
  ext i j
  simp [Matrix.one_apply, ExactArith.one_eq, ExactArith.zero_eq, Fin.ext_iff]

/-- An `n × n` matrix holding the diagonal of ones holds its cells inside, each once, and
reads the identity matrix. -/
theorem squareCells_diagonal {m : SparseMatrix α} {n : Nat} (hr : m.rowCount = n)
    (hc : m.colCount = n) :
    SquareCells n (m.withCells ((List.range n).map fun i => ((⟨i, i⟩ : Key), Arith.one))) ∧
      entryMatrix n (m.withCells ((List.range n).map fun i => ((⟨i, i⟩ : Key), Arith.one))).get =
        1 := by
  have hcells := cellsOf_diagonal n fun _ => (Arith.one : α)
  refine ⟨⟨?_, ?_, bounded_diagonal hr hc _, hcells.nodup⟩, ?_⟩
  · rw [rowCount_withCells fun kv hkv => hr ▸ (diagonal_cells_lt _ kv hkv).1, hr]
  · rw [colCount_withCells fun kv hkv => hc ▸ (diagonal_cells_lt _ kv hkv).2, hc]
  · rw [funext₂ (hcells.get_withCells m), entryMatrix_diagonal_one]

theorem squareCells_identity [Host] (n : Nat) :
    SquareCells n (identity n : SparseMatrix α) ∧ entryMatrix n (identity n : SparseMatrix α).get = 1 :=
  squareCells_diagonal rfl rfl

omit [CommRing α] [Arith α] [Width α] [ExactArith α] in
/-- A copy of an `n × n` matrix whose cells lie inside, each key once, is such a matrix. -/
theorem squareCells_clone {A : SparseMatrix α} {n : Nat} (hr : A.rowCount = n)
    (hc : A.colCount = n) (hin : A.store.Bounded 0) (hnd : (A.entries.map Prod.fst).Nodup) :
    SquareCells n A.clone := by
  rw [clone_eq]
  exact ⟨(rowCount_withCells fun kv hkv => (hin kv hkv).1).trans hr,
    (colCount_withCells fun kv hkv => (hin kv hkv).2).trans hc, bounded_withCells hin, hnd⟩

/-- The product of two `n × n` matrices, the left one with its cells inside, each key once,
under a token that is not cancelled and with loops that lay out their chunks' answers, is
such a matrix under the same loops, and reads the product of the entry matrices. -/
theorem dotProduct_squareCells {P R : SparseMatrix α} {n : Nat} (hP : SquareCells n P)
    (hRr : R.rowCount = n) (hRc : R.colCount = n) (hn : n ≤ Text.wordMax)
    (hc : P.range.cancelled = false) (hp : P.range.PartialsFit n) :
    ∃ Q, P.dotProduct R = .ok Q ∧ SquareCells n Q ∧ Q.range = P.range ∧
      entryMatrix n Q.get = entryMatrix n P.get * entryMatrix n R.get := by
  obtain ⟨Q, hQ, hQr, hQc, hQrange, hQget⟩ :=
    dotProduct_ok P R (hP.cols.trans hRr.symm) (hP.rows ▸ hn) hc (hP.rows ▸ hp)
  refine ⟨Q, hQ, ⟨hQr.trans hP.rows, hQc.trans hRc, dotProduct_bounded hQ,
    (dotProduct_ordered hQ).nodup⟩, hQrange, ?_⟩
  rw [hQget, entryMatrix_productFn hP.rows hP.cols hRc]

/-- Multiplying an `n × n` matrix by `A` `k` more times, under a token that is not
cancelled and with loops that lay out their chunks' answers, multiplies its entry matrix by
the `k`-th power of `A`'s. -/
theorem timesPower_squareCells {A : SparseMatrix α} {n : Nat} (hr : A.rowCount = n)
    (hc : A.colCount = n) (hn : n ≤ Text.wordMax) (k : Nat) :
    ∀ acc : SparseMatrix α, SquareCells n acc → acc.range.cancelled = false →
      acc.range.PartialsFit n →
      ∃ P, timesPower A k acc = .ok P ∧ SquareCells n P ∧ P.range = acc.range ∧
        entryMatrix n P.get = entryMatrix n acc.get * entryMatrix n A.get ^ k := by
  induction k with
  | zero =>
    intro acc hacc _ _
    exact ⟨acc, rfl, hacc, rfl, by rw [pow_zero, mul_one]⟩
  | succ k ih =>
    intro acc hacc hcan hfit
    obtain ⟨Q, hQ, hQsq, hQrange, hQget⟩ := dotProduct_squareCells hacc hr hc hn hcan hfit
    obtain ⟨P, hP, hPsq, hPrange, hPget⟩ := ih Q hQsq (hQrange ▸ hcan) (hQrange ▸ hfit)
    refine ⟨P, ?_, hPsq, hPrange.trans hQrange, ?_⟩
    · rw [timesPower, hQ]
      exact hP
    · rw [hPget, hQget, pow_succ', mul_assoc]

/-- Over exact arithmetic, every power of an `n × n` matrix whose cells lie inside, each
key once, under a token that is not cancelled and with loops that lay out their chunks'
answers, is such a matrix under the same loops, and its entry matrix is the power of the
matrix's. -/
theorem power_squareCells (A : SparseMatrix α) {n : Nat} (hr : A.rowCount = n)
    (hc : A.colCount = n) (hn : n ≤ Text.wordMax) (hcan : A.range.cancelled = false)
    (hp : A.range.PartialsFit n) (hin : A.store.Bounded 0) (hnd : (A.entries.map Prod.fst).Nodup)
    (e : Nat) :
    ∃ P, A.power e = .ok P ∧ SquareCells n P ∧ P.range = A.range ∧
      entryMatrix n P.get = entryMatrix n A.get ^ e := by
  cases e with
  | zero =>
    obtain ⟨hsq, hget⟩ :=
      squareCells_diagonal (m := (A.derived n n : SparseMatrix α)) (n := n) rfl rfl
    exact ⟨_, power_zero_eq hr hc, hsq, by simp, by rw [hget, pow_zero]⟩
  | succ k =>
    obtain ⟨P, hP, hPsq, hPrange, hPget⟩ :=
      timesPower_squareCells hr hc hn k A.clone (squareCells_clone hr hc hin hnd) hcan hp
    refine ⟨P, (power_succ_eq hr hc k).trans hP, hPsq, hPrange, ?_⟩
    rw [hPget, pow_succ', get_clone]

omit [CommRing α] [ExactArith α] in
/-- Past the first power, a matrix whose loop over its rows cannot lay out its chunks'
answers faults in its first product. -/
theorem power_partials_overflow {A : SparseMatrix α} {n : Nat} (hr : A.rowCount = n)
    (hc : A.colCount = n) (hcan : A.range.cancelled = false) (hp : ¬A.range.PartialsFit n)
    (hin : A.store.Bounded 0) (hnd : (A.entries.map Prod.fst).Nodup) (k : Nat) :
    A.power (k + 2) = .error (.fault .capacityOverflow) := by
  have hcopy := squareCells_clone hr hc hin hnd
  rw [power_succ_eq hr hc, timesPower,
    dotProduct_partials_overflow (hcopy.cols.trans hr.symm) hcan (by rwa [hcopy.rows])]
  rfl

/-- Over exact arithmetic, the powers of a matrix whose cells lie inside its bounds, each key
once, under a token that is not cancelled, with a row count that is a machine word. A
matrix that is not square has no power. For a square `n × n` matrix the zeroth power is the
identity of size `n`. When the loops over its rows lay out their chunks' answers, every
power succeeds, the `e`-th reading the `e`-th power of the entry matrix, and
`power (a + b)` equals the product of `power a` and `power b`; when they do not, every
power past the first faults. -/
theorem power_add [Host] (A : SparseMatrix α) (hn : A.rowCount ≤ Text.wordMax)
    (hc : A.token.any (·.cancelled) = false) (hin : A.store.Bounded 0)
    (hnd : (A.entries.map Prod.fst).Nodup) :
    (A.isSquare = false → ∀ e, A.power e = .error (.error (.notSquare A.rowCount A.colCount))) ∧
    (A.isSquare = true →
      (∃ P, A.power 0 = .ok P ∧ P.dims = (A.rowCount, A.rowCount) ∧
        P.beq (identity A.rowCount) = true) ∧
      (A.range.PartialsFit A.rowCount →
        (∀ e, ∃ P, A.power e = .ok P ∧ P.dims = (A.rowCount, A.rowCount) ∧
          entryMatrix A.rowCount P.get = entryMatrix A.rowCount A.get ^ e) ∧
        ∀ a b, ∃ P Q R S, A.power (a + b) = .ok P ∧ A.power a = .ok Q ∧ A.power b = .ok R ∧
          Q.dotProduct R = .ok S ∧ P.beq S = true) ∧
      (¬A.range.PartialsFit A.rowCount →
        ∀ e, A.power (e + 2) = .error (.fault .capacityOverflow))) := by
  refine ⟨fun hsq e => power_notSquare hsq e, fun hsq => ?_⟩
  have hcols : A.colCount = A.rowCount := (beq_iff_eq.mp hsq).symm
  refine ⟨?_, fun hp => ⟨fun e => ?_, fun a b => ?_⟩,
    fun hp => power_partials_overflow rfl hcols hc hp hin hnd⟩
  · -- the zeroth power runs no loop
    obtain ⟨hPsq, hPget⟩ :=
      squareCells_diagonal (m := (A.derived A.rowCount A.rowCount : SparseMatrix α))
        (n := A.rowCount) rfl rfl
    obtain ⟨hIsq, hIget⟩ := squareCells_identity (α := α) A.rowCount
    exact ⟨_, power_zero_eq rfl hcols, hPsq.dims, hPsq.beq hIsq (by rw [hPget, hIget])⟩
  all_goals have hpow := power_squareCells A rfl hcols hn hc hp hin hnd
  · obtain ⟨P, hP, hPsq, -, hPget⟩ := hpow e
    exact ⟨P, hP, hPsq.dims, hPget⟩
  · -- both sides read `M ^ (a + b) = M ^ a * M ^ b`
    obtain ⟨P, hP, hPsq, -, hPget⟩ := hpow (a + b)
    obtain ⟨Q, hQ, hQsq, hQrange, hQget⟩ := hpow a
    obtain ⟨R, hR, hRsq, -, hRget⟩ := hpow b
    obtain ⟨S, hS, hSsq, -, hSget⟩ :=
      dotProduct_squareCells hQsq hRsq.rows hRsq.cols hn (by rw [hQrange]; exact hc)
        (by rw [hQrange]; exact hp)
    exact ⟨P, Q, R, S, hP, hQ, hR, hS,
      hPsq.beq hSsq (by rw [hPget, hSget, hQget, hRget, pow_add])⟩

open Host in
/-- The powers of the `2 × 2` shear `[[1, 1], [0, 1]]`. -/
theorem power_add_shear :
    ((identity 2 : SparseMatrix ℤ).set 0 1 1).rowCount ≤ Text.wordMax ∧
    ((identity 2 : SparseMatrix ℤ).set 0 1 1).token.any (·.cancelled) = false ∧
    ((identity 2 : SparseMatrix ℤ).set 0 1 1).store.Bounded 0 ∧
    (((identity 2 : SparseMatrix ℤ).set 0 1 1).entries.map Prod.fst).Nodup ∧
    (((identity 2 : SparseMatrix ℤ).set 0 1 1).isSquare = false → ∀ e,
      ((identity 2 : SparseMatrix ℤ).set 0 1 1).power e = .error (.error (.notSquare ((identity 2 : SparseMatrix ℤ).set 0 1 1).rowCount ((identity 2 : SparseMatrix ℤ).set 0 1 1).colCount))) ∧
    (((identity 2 : SparseMatrix ℤ).set 0 1 1).isSquare = true →
      (∃ P, ((identity 2 : SparseMatrix ℤ).set 0 1 1).power 0 = .ok P ∧ P.dims = (((identity 2 : SparseMatrix ℤ).set 0 1 1).rowCount, ((identity 2 : SparseMatrix ℤ).set 0 1 1).rowCount) ∧
        P.beq (identity ((identity 2 : SparseMatrix ℤ).set 0 1 1).rowCount) = true) ∧
      (((identity 2 : SparseMatrix ℤ).set 0 1 1).range.PartialsFit ((identity 2 : SparseMatrix ℤ).set 0 1 1).rowCount →
        (∀ e, ∃ P, ((identity 2 : SparseMatrix ℤ).set 0 1 1).power e = .ok P ∧ P.dims = (((identity 2 : SparseMatrix ℤ).set 0 1 1).rowCount, ((identity 2 : SparseMatrix ℤ).set 0 1 1).rowCount) ∧
          entryMatrix ((identity 2 : SparseMatrix ℤ).set 0 1 1).rowCount P.get = entryMatrix ((identity 2 : SparseMatrix ℤ).set 0 1 1).rowCount ((identity 2 : SparseMatrix ℤ).set 0 1 1).get ^ e) ∧
        ∀ a b, ∃ P Q R S, ((identity 2 : SparseMatrix ℤ).set 0 1 1).power (a + b) = .ok P ∧ ((identity 2 : SparseMatrix ℤ).set 0 1 1).power a = .ok Q ∧
          ((identity 2 : SparseMatrix ℤ).set 0 1 1).power b = .ok R ∧ Q.dotProduct R = .ok S ∧ P.beq S = true) ∧
      (¬((identity 2 : SparseMatrix ℤ).set 0 1 1).range.PartialsFit ((identity 2 : SparseMatrix ℤ).set 0 1 1).rowCount →
        ∀ e, ((identity 2 : SparseMatrix ℤ).set 0 1 1).power (e + 2) = .error (.fault .capacityOverflow))) :=
  ⟨by decide, rfl, by unfold Store.Bounded; decide, by decide,
    power_add _ (by decide) rfl (by unfold Store.Bounded; decide) (by decide)⟩

open Host in
/-- Two matrices whose `power (0 + 1)` is not the product of `power 0` and `power 1`. Under
a cancelled token the first power is a copy, made with no loop, while the product of the
zeroth and the first is refused. The matrix with its one cell written at the largest row
and column holds that cell on its saturated bounds: its copy keeps the cell, while the
product reads only the cells inside the bounds and is zero there. -/
theorem power_add_cancelled_or_saturated :
    ((∃ P, ((zeros 1 1 : SparseMatrix ℤ).set 0 0 2).attachToken.cancel.power (0 + 1) = .ok P) ∧
      ∃ I R, ((zeros 1 1 : SparseMatrix ℤ).set 0 0 2).attachToken.cancel.power 0 = .ok I ∧
        ((zeros 1 1 : SparseMatrix ℤ).set 0 0 2).attachToken.cancel.power 1 = .ok R ∧
        I.dotProduct R = .error (.error .cancelled)) ∧
    ∃ P I R S, ((new : SparseMatrix ℤ).set Text.wordMax Text.wordMax 1).power (0 + 1) = .ok P ∧
      ((new : SparseMatrix ℤ).set Text.wordMax Text.wordMax 1).power 0 = .ok I ∧
      ((new : SparseMatrix ℤ).set Text.wordMax Text.wordMax 1).power 1 = .ok R ∧
      I.dotProduct R = .ok S ∧ P.beq S = false := by
  refine ⟨⟨⟨_, rfl⟩, _, _, rfl, rfl, dotProduct_cancelled rfl rfl Nat.one_pos⟩, ?_⟩
  have hr : ((new : SparseMatrix ℤ).set Text.wordMax Text.wordMax 1).rowCount = Text.wordMax := by
    decide
  have hc : ((new : SparseMatrix ℤ).set Text.wordMax Text.wordMax 1).colCount = Text.wordMax := by
    decide
  have hcopy : ((new : SparseMatrix ℤ).set Text.wordMax Text.wordMax 1).clone.rowCount =
      Text.wordMax := by
    decide
  obtain ⟨hIsq, -⟩ := squareCells_diagonal (n := Text.wordMax)
    (m := (((new : SparseMatrix ℤ).set Text.wordMax Text.wordMax 1).derived Text.wordMax
      Text.wordMax : SparseMatrix ℤ)) rfl rfl
  obtain ⟨S, hS, -, -, -, hSget⟩ := dotProduct_ok _ _ (hIsq.cols.trans hcopy.symm) hIsq.rows.le rfl
    (Range.partialsFit_of_degree_le_one (by decide) _)
  refine ⟨_, _, _, S, (power_succ_eq hr hc 0).trans rfl, power_zero_eq hr hc,
    (power_succ_eq hr hc 0).trans rfl, hS, ?_⟩
  -- the copy's one cell holds one, and the product reads zero on the bound
  have hzero : S.get Text.wordMax Text.wordMax = 0 := by
    rw [hSget, productFn, if_neg fun h => Nat.lt_irrefl _ (hIsq.rows ▸ h.1)]
  have hentries : ((new : SparseMatrix ℤ).set Text.wordMax Text.wordMax 1).clone.entries =
      [((⟨Text.wordMax, Text.wordMax⟩ : Key), (1 : ℤ))] :=
    rfl
  have hone : Arith.eq (1 : ℤ) 0 = false := rfl
  simp only [beq, hentries, List.all_cons, List.all_nil, hzero, hone, Bool.false_and,
    Bool.and_false]

end SparseMatrix
