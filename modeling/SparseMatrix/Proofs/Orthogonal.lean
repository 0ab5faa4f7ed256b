import SparseMatrix.LinearAlgebra
import SparseMatrix.Proofs.Product
import SparseMatrix.Proofs.KeyOrder
import Mathlib.LinearAlgebra.Matrix.InvariantBasisNumber
import Mathlib.RingTheory.OrzechProperty

/-!
# Orthogonal and unitary matrices over exact arithmetic

The transpose reads every cell of its operand inside the bounds at the swapped key
(`get_transpose`), whatever the cells hold: sorting the swapped cells keeps, for each key,
the cell found first (`find?_sortCells`). Over exact arithmetic the conjugate reads the
operand's values (`get_conjugate`), and a product of square matrices equals the identity
exactly when the product of their entry matrices is one (`dotProduct_beq_identity_iff`).

So `isOrthogonal` answers whether `M · Mᵀ = 1` and `isUnitary` whether `Mᵀ · M = 1`, for
the entry matrix `M`. A one-sided inverse of a square matrix over a commutative ring is
two-sided, so the two tests give one answer (`isOrthogonal_eq_isUnitary`).
-/

namespace SparseMatrix

variable {α : Type}

/-! ## Sorting cells -/

/-- Sorting is stable: the cells of one key keep their order. -/
theorem filter_sortCells (cells : List (Key × α)) (k : Key) :
    (sortCells cells).filter (·.1 == k) = cells.filter (·.1 == k) := by
  -- the cells of key `k` are sorted among themselves, so they stay a sublist
  have hsorted : (cells.filter (·.1 == k)).Pairwise fun a b => (!b.1.before a.1) = true := by
    refine List.Pairwise.imp_of_mem (fun {a b} ha hb _ => ?_) (List.pairwise_of_forall fun _ _ => trivial)
    have hak : a.1 = k := beq_iff_eq.mp (List.mem_filter.mp ha).2
    have hbk : b.1 = k := beq_iff_eq.mp (List.mem_filter.mp hb).2
    simp [hak, hbk, Key.before]
  have hsub : List.Sublist (cells.filter (·.1 == k)) ((sortCells cells).filter (·.1 == k)) := by
    have h := List.sublist_mergeSort sortCells_order_trans sortCells_order_total hsorted
      (List.filter_sublist (l := cells))
    simpa [List.filter_filter, sortCells] using h.filter (·.1 == k)
  have hlen : (cells.filter (·.1 == k)).length = ((sortCells cells).filter (·.1 == k)).length :=
    (((List.mergeSort_perm cells _).filter _).length_eq).symm
  exact (hsub.eq_of_length hlen).symm

/-- Sorting keeps the cell found first at each key. -/
theorem find?_sortCells (cells : List (Key × α)) (k : Key) :
    (sortCells cells).find? (·.1 == k) = cells.find? (·.1 == k) := by
  rw [← List.head?_filter, ← List.head?_filter, filter_sortCells]

/-! ## Transposes -/

/-- The transpose of a matrix whose token is not cancelled and whose loop over its columns
lays out its chunks' answers. -/
theorem transpose_eq (m : SparseMatrix α) (hc : m.range.cancelled = false)
    (hp : m.range.PartialsFit m.colCount) :
    m.transpose = pure ((m.derived m.colCount m.rowCount).withCells
      (sortCells ((m.entries.filter fun kv => m.inBounds kv.1).map fun (k, v) => (⟨k.col, k.row⟩, v)))) := by
  unfold transpose
  rw [Range.guard_of_running (.inl hc) hp, pure_bind]

/-- A transpose whose loop over the columns cannot lay out its chunks' answers faults. -/
theorem transpose_partials_overflow {m : SparseMatrix α} (hc : m.range.cancelled = false)
    (hp : ¬m.range.PartialsFit m.colCount) : m.transpose = .error (.fault .capacityOverflow) := by
  unfold transpose
  rw [Range.guard_partials_overflow hc hp]
  rfl

/-- The transpose reads at `(r, c)` what the matrix reads at `(c, r)`, inside the bounds. -/
theorem get_transpose [Arith α] {m t : SparseMatrix α} (ht : m.transpose = .ok t) {r c : Nat}
    (hr : r < m.colCount) (hc : c < m.rowCount) : t.get r c = m.get c r := by
  unfold transpose at ht
  obtain ⟨_, -, ht⟩ := bind_eq_ok ht
  cases ht
  have hfind : ((m.entries.filter fun kv => m.inBounds kv.1).map fun (k, v) => ((⟨k.col, k.row⟩ : Key), v)).find?
      (·.1 == ⟨r, c⟩) =
      (m.entries.find? (·.1 == ⟨c, r⟩)).map fun (k, v) => ((⟨k.col, k.row⟩ : Key), v) := by
    rw [List.find?_map, List.find?_filter]
    congr 1
    refine List.find?_congr fun kv _ => ?_
    obtain ⟨⟨kr, kc⟩, v⟩ := kv
    simp only [Function.comp_apply, inBounds, beq_iff_eq, Key.mk.injEq, Bool.and_eq_true,
      decide_eq_true_eq]
    by_cases h : kc = r ∧ kr = c
    · obtain ⟨rfl, rfl⟩ := h
      simp [hr, hc]
    · have h' : ¬(kr = c ∧ kc = r) := fun h' => h ⟨h'.2, h'.1⟩
      simp [h, h']
  dsimp only [get, Store.find?, withCells]
  rw [find?_sortCells, hfind, Option.map_map]
  rfl

/-- The entry matrix of a transpose of an `n × n` matrix is the transpose of its entry
matrix. -/
theorem entryMatrix_transpose [Arith α] {m t : SparseMatrix α} {n : Nat} (ht : m.transpose = .ok t)
    (hrows : m.rowCount = n) (hcols : m.colCount = n) :
    entryMatrix n t.get = (entryMatrix n m.get).transpose := by
  ext i j
  rw [Matrix.transpose_apply, entryMatrix_apply, entryMatrix_apply,
    get_transpose ht (by omega) (by omega)]

/-- The transpose keeps the loops of its operand. -/
theorem range_transpose {m t : SparseMatrix α} (ht : m.transpose = .ok t) : t.range = m.range := by
  unfold transpose at ht
  obtain ⟨_, -, ht⟩ := bind_eq_ok ht
  cases ht
  simp

/-! ## Conjugates -/

section Conjugates

variable [Arith α]

/-- The conjugate of a matrix whose token is not cancelled writes its nonzero values, in
row-major order. -/
theorem conjugate_eq (m : SparseMatrix α) (hrows : m.rowCount ≤ Text.wordMax)
    (hc : m.range.cancelled = false) (hp : m.range.PartialsFit m.rowCount) :
    m.conjugate = pure ((m.derived m.rowCount m.colCount).withCells
      (nonzeroCells (gridKeys m.rowCount m.colCount) m.get)) := by
  unfold conjugate mapAll
  rw [Range.tryMap_of_ok (range_degree m) (by omega) hc (by rwa [Nat.sub_zero])
    (by rw [Nat.mul_zero]; exact Nat.zero_le _)
    fun i _ _ => rowOf_pure i m.colCount (m.get i), pure_bind, Nat.sub_zero,
    flatten_rows_eq_nonzeroCells]

/-- A map whose loop over the rows cannot lay out its chunks' answers faults before its first
row. -/
theorem mapAll_partials_overflow {m : SparseMatrix α} {f : α → Except Fault α}
    (hc : m.range.cancelled = false) (hp : ¬m.range.PartialsFit m.rowCount) :
    mapAll m f = .error (.fault .capacityOverflow) := by
  unfold mapAll
  rw [Range.tryMap_zero_partials_overflow hc hp]
  rfl

theorem dims_conjugate (m : SparseMatrix α) :
    ((m.derived m.rowCount m.colCount : SparseMatrix α).withCells
      (nonzeroCells (gridKeys m.rowCount m.colCount) m.get)).rowCount = m.rowCount ∧
    ((m.derived m.rowCount m.colCount : SparseMatrix α).withCells
      (nonzeroCells (gridKeys m.rowCount m.colCount) m.get)).colCount = m.colCount := by
  have hlt : ∀ kv ∈ nonzeroCells (gridKeys m.rowCount m.colCount) m.get,
      kv.1.row < m.rowCount ∧ kv.1.col < m.colCount :=
    fun _ hkv => mem_gridKeys.mp (key_mem_of_mem_nonzeroCells hkv)
  exact ⟨rowCount_withCells fun kv hkv => (hlt kv hkv).1,
    colCount_withCells fun kv hkv => (hlt kv hkv).2⟩

end Conjugates

/-! ## The two tests, step by step -/

section Tests

variable [Arith α] [Width α]

theorem isOrthogonal_of_not_isSquare [Host] {m : SparseMatrix α} (hsq : m.isSquare = false) :
    m.isOrthogonal = .ok false := by
  simp [isOrthogonal, hsq]
  rfl

theorem isUnitary_of_not_isSquare [Host] {m : SparseMatrix α} (hsq : m.isSquare = false) :
    m.isUnitary = .ok false := by
  simp [isUnitary, hsq]
  rfl

/-- A square matrix is orthogonal when `m · mᵀ` equals the identity. -/
theorem isOrthogonal_of_isSquare [Host] {m t p : SparseMatrix α} (hsq : m.isSquare = true)
    (ht : m.transpose = .ok t) (hp : m.dotProduct t = .ok p) :
    m.isOrthogonal = .ok (p.beq (identity m.rowCount)) := by
  unfold isOrthogonal
  rw [hsq, Bool.not_true, if_neg Bool.false_ne_true, ht]
  show m.dotProduct t >>= _ = _
  rw [hp]
  rfl

/-- A square matrix whose loops over its rows cannot lay out their chunks' answers faults in
its transpose. -/
theorem isOrthogonal_partials_overflow [Host] {m : SparseMatrix α} (hsq : m.isSquare = true)
    (hc : m.range.cancelled = false) (hp : ¬m.range.PartialsFit m.rowCount) :
    m.isOrthogonal = .error (.fault .capacityOverflow) := by
  have hcols : m.colCount = m.rowCount := (beq_iff_eq.mp hsq).symm
  unfold isOrthogonal
  rw [hsq, Bool.not_true, if_neg Bool.false_ne_true,
    transpose_partials_overflow hc (by rwa [hcols])]
  rfl

/-- A square matrix whose loops over its rows cannot lay out their chunks' answers faults in
its conjugate. -/
theorem isUnitary_partials_overflow [Host] {m : SparseMatrix α} (hsq : m.isSquare = true)
    (hc : m.range.cancelled = false) (hp : ¬m.range.PartialsFit m.rowCount) :
    m.isUnitary = .error (.fault .capacityOverflow) := by
  unfold isUnitary conjugate
  rw [hsq, Bool.not_true, if_neg Bool.false_ne_true, mapAll_partials_overflow hc hp]
  rfl

/-- A square matrix is unitary when `conj(m)ᵀ · m` equals the identity. -/
theorem isUnitary_of_isSquare [Host] {m k kt p : SparseMatrix α} (hsq : m.isSquare = true)
    (hk : m.conjugate = pure k) (hkt : k.transpose = .ok kt) (hp : kt.dotProduct m = .ok p) :
    m.isUnitary = .ok (p.beq (identity m.rowCount)) := by
  unfold isUnitary
  rw [hsq, Bool.not_true, if_neg Bool.false_ne_true, hk, pure_bind, hkt]
  show kt.dotProduct m >>= _ = _
  rw [hp]
  rfl

end Tests


section Exact

variable [CommRing α] [Arith α] [Width α] [ExactArith α]

/-- The nonzero values of `f` over distinct keys read `f` at each of the keys. -/
theorem get_withCells_nonzeroCells {keys : List Key} (hk : keys.Nodup) (f : Nat → Nat → α)
    (m : SparseMatrix α) {r c : Nat} (hrc : (⟨r, c⟩ : Key) ∈ keys) :
    (m.withCells (nonzeroCells keys f)).get r c = f r c := by
  let g : Nat → Nat → α := fun r c => if (⟨r, c⟩ : Key) ∈ keys then f r c else 0
  have hfg : nonzeroCells keys f = nonzeroCells keys g := by
    refine List.filterMap_congr fun k hk => ?_
    simp only [g, hk, if_true]
  have hg : CellsOf (nonzeroCells keys g) g :=
    cellsOf_nonzeroCells hk fun r c hrc => by simp only [g, if_neg hrc]
  rw [hfg, hg.get_withCells]
  simp only [g, if_pos hrc]

/-- The conjugate reads the matrix's values inside the bounds. -/
theorem get_conjugate (m : SparseMatrix α) {r c : Nat} (hr : r < m.rowCount) (hc : c < m.colCount) :
    ((m.derived m.rowCount m.colCount : SparseMatrix α).withCells
      (nonzeroCells (gridKeys m.rowCount m.colCount) m.get)).get r c = m.get r c :=
  get_withCells_nonzeroCells (gridKeys_nodup _ _) m.get _ (mem_gridKeys.mpr ⟨hr, hc⟩)

/-! ## Comparing a product with the identity -/

/-- Over exact arithmetic, two matrices whose cells hold `f` and `g` are equal exactly when
they have one size and `f = g`. -/
theorem beq_withCells_iff {a b : SparseMatrix α} {cells cells' : List (Key × α)}
    {f g : Nat → Nat → α} (ha : CellsOf cells f) (hb : CellsOf cells' g) :
    (a.withCells cells).beq (b.withCells cells') = true ↔
      (a.withCells cells).dims = (b.withCells cells').dims ∧ f = g := by
  constructor
  · intro h
    simp only [beq, Bool.and_eq_true, List.all_eq_true, beq_iff_eq, entries_withCells] at h
    obtain ⟨⟨hdims, hab⟩, hba⟩ := h
    refine ⟨hdims, funext₂ fun r c => ?_⟩
    by_cases hf : ∃ v, ((⟨r, c⟩ : Key), v) ∈ cells
    · obtain ⟨v, hv⟩ := hf
      have hv' := hab _ hv
      rw [ExactArith.eq_iff, hb.get_withCells] at hv'
      rw [← ha.value _ hv]
      exact hv'
    · by_cases hg : ∃ v, ((⟨r, c⟩ : Key), v) ∈ cells'
      · obtain ⟨v, hv⟩ := hg
        have hv' := hba _ hv
        rw [ExactArith.eq_iff, ha.get_withCells] at hv'
        rw [← hb.value _ hv]
        exact hv'.symm
      · rw [ha.absent r c fun v hv => hf ⟨v, hv⟩, hb.absent r c fun v hv => hg ⟨v, hv⟩]
  · rintro ⟨hdims, rfl⟩
    exact beq_withCells ha hb hdims

/-- The values of a product of `n × n` matrices are the identity's exactly when the product
of their entry matrices is one. -/
theorem productFn_eq_identity_iff {a b : SparseMatrix α} {n : Nat} (hra : a.rowCount = n)
    (hca : a.colCount = n) (hcb : b.colCount = n) :
    productFn a b = (fun r c => if r = c ∧ r < n then Arith.one else Arith.zero) ↔
      entryMatrix n a.get * entryMatrix n b.get = 1 := by
  rw [← entryMatrix_productFn hra hca hcb, ExactArith.one_eq, ExactArith.zero_eq]
  constructor
  · intro h
    ext i j
    simp [h, Matrix.one_apply, Fin.ext_iff]
  · intro h
    funext i j
    by_cases hij : i < n ∧ j < n
    · have hentry := congrFun (congrFun h ⟨i, hij.1⟩) ⟨j, hij.2⟩
      simp only [entryMatrix_apply, Matrix.one_apply, Fin.mk.injEq] at hentry
      rw [hentry]
      by_cases he : i = j
      · subst he
        simp [hij.1]
      · simp [he]
    · rw [productFn, hra, hcb, if_neg hij, if_neg]
      omega

/-- Over exact arithmetic, the product of two `n × n` matrices succeeds, and equals the
identity exactly when the product of their entry matrices is one. -/
theorem dotProduct_beq_identity_iff [Host] {a b : SparseMatrix α} {n : Nat} (hra : a.rowCount = n)
    (hca : a.colCount = n) (hrb : b.rowCount = n) (hcb : b.colCount = n)
    (hn : n ≤ Text.wordMax) (hc : a.range.cancelled = false) (hp : a.range.PartialsFit n) :
    ∃ p, a.dotProduct b = .ok p ∧
      (p.beq (identity n) = true ↔ entryMatrix n a.get * entryMatrix n b.get = 1) := by
  refine ⟨_, dotProduct_eq a b (hca.trans hrb.symm) (hra ▸ hn) hc (hra ▸ hp), ?_⟩
  rw [identity_eq, beq_withCells_iff (cellsOf_productFn a b) (cellsOf_diagonal n fun _ => Arith.one),
    ← identity_eq, dims_productCells, productFn_eq_identity_iff hra hca hcb]
  simp [dims, hra, hcb]

/-! ## The two tests -/

/-- Over exact arithmetic, a square matrix whose token is not cancelled is orthogonal
exactly when its entry matrix `M` has `M · Mᵀ = 1`. -/
theorem isOrthogonal_iff [Host] (m : SparseMatrix α) (hsq : m.isSquare = true)
    (hn : m.rowCount ≤ Text.wordMax) (hc : m.range.cancelled = false)
    (hp : m.range.PartialsFit m.rowCount) :
    ∃ b, m.isOrthogonal = .ok b ∧
      (b = true ↔ entryMatrix m.rowCount m.get * (entryMatrix m.rowCount m.get).transpose = 1) := by
  have hcols : m.colCount = m.rowCount := (beq_iff_eq.mp hsq).symm
  obtain ⟨t, ht, -⟩ : ∃ t, m.transpose = .ok t ∧ True :=
    ⟨_, transpose_eq m hc (by rwa [hcols]), trivial⟩
  obtain ⟨htr, htc⟩ := dims_transpose ht
  obtain ⟨p, hprod, hpone⟩ :=
    dotProduct_beq_identity_iff (b := t) rfl hcols (htr.trans hcols) htc hn hc hp
  rw [entryMatrix_transpose ht rfl hcols] at hpone
  exact ⟨_, isOrthogonal_of_isSquare hsq ht hprod, hpone⟩

/-- Over exact arithmetic, a square matrix whose token is not cancelled is unitary exactly
when its entry matrix `M` has `Mᵀ · M = 1`: the conjugate reads as the matrix. -/
theorem isUnitary_iff [Host] (m : SparseMatrix α) (hsq : m.isSquare = true)
    (hn : m.rowCount ≤ Text.wordMax) (hc : m.range.cancelled = false)
    (hp : m.range.PartialsFit m.rowCount) :
    ∃ b, m.isUnitary = .ok b ∧
      (b = true ↔ (entryMatrix m.rowCount m.get).transpose * entryMatrix m.rowCount m.get = 1) := by
  have hcols : m.colCount = m.rowCount := (beq_iff_eq.mp hsq).symm
  set k := (m.derived m.rowCount m.colCount : SparseMatrix α).withCells
    (nonzeroCells (gridKeys m.rowCount m.colCount) m.get)
  obtain ⟨hkr, hkc⟩ := dims_conjugate m
  have hkrange : k.range = m.range := by simp [k]
  obtain ⟨kt, hkt, -⟩ : ∃ kt, k.transpose = .ok kt ∧ True :=
    ⟨_, transpose_eq k (hkrange ▸ hc) (by rw [hkrange, hkc, hcols]; exact hp), trivial⟩
  obtain ⟨hktr, hktc⟩ := dims_transpose hkt
  have hkM : entryMatrix m.rowCount k.get = entryMatrix m.rowCount m.get := by
    ext i j
    rw [entryMatrix_apply, entryMatrix_apply, get_conjugate m (by omega) (by omega)]
  obtain ⟨q, hq, hqone⟩ := dotProduct_beq_identity_iff (a := kt) (b := m)
    (hktr.trans (hkc.trans hcols)) (hktc.trans hkr) rfl hcols hn
    (by rw [range_transpose hkt, hkrange]; exact hc) (by rw [range_transpose hkt, hkrange]; exact hp)
  rw [entryMatrix_transpose hkt hkr (hkc.trans hcols), hkM] at hqone
  exact ⟨_, isUnitary_of_isSquare hsq (conjugate_eq m hn hc hp) hkt hq, hqone⟩

/-- Over exact arithmetic, for a matrix whose token is not cancelled and whose loops over its
rows lay out their chunks' answers, `isOrthogonal` and `isUnitary` give one answer: `false`
for a matrix that is not square, and for a square matrix with entry matrix `M` whether
`M · Mᵀ = 1`, which holds exactly when `Mᵀ · M = 1`. A square matrix whose loops cannot lay
out their answers faults in both. -/
theorem isOrthogonal_eq_isUnitary [Host] (m : SparseMatrix α) (hn : m.rowCount ≤ Text.wordMax)
    (hc : m.token.any (·.cancelled) = false) :
    (m.range.PartialsFit m.rowCount →
      ∃ b, m.isOrthogonal = .ok b ∧ m.isUnitary = .ok b ∧
        (b = true ↔ m.isSquare ∧
          entryMatrix m.rowCount m.get * (entryMatrix m.rowCount m.get).transpose = 1) ∧
        (b = true ↔ m.isSquare ∧
          (entryMatrix m.rowCount m.get).transpose * entryMatrix m.rowCount m.get = 1)) ∧
    (m.isSquare = true → ¬m.range.PartialsFit m.rowCount →
      m.isOrthogonal = .error (.fault .capacityOverflow) ∧
        m.isUnitary = .error (.fault .capacityOverflow)) := by
  refine ⟨fun hp => ?_, fun hsq hp =>
    ⟨isOrthogonal_partials_overflow hsq hc hp, isUnitary_partials_overflow hsq hc hp⟩⟩
  cases hsq : m.isSquare with
  | false =>
    exact ⟨false, isOrthogonal_of_not_isSquare hsq, isUnitary_of_not_isSquare hsq, by simp,
      by simp⟩
  | true =>
    obtain ⟨b, hb, hbone⟩ := isOrthogonal_iff m hsq hn hc hp
    obtain ⟨b', hb', hb'one⟩ := isUnitary_iff m hsq hn hc hp
    -- a one-sided inverse of a square matrix is two-sided
    have hbb : b' = b := Bool.eq_iff_iff.mpr (hb'one.trans (mul_eq_one_comm.trans hbone.symm))
    subst hbb
    refine ⟨b', hb, hb', ?_, ?_⟩
    · simpa using hbone
    · simpa using hb'one

open Host in
theorem isOrthogonal_eq_isUnitary_rotation :
    (((zeros 2 2 : SparseMatrix ℤ).set 0 1 (-1)).set 1 0 1).rowCount ≤ Text.wordMax ∧
      (((zeros 2 2 : SparseMatrix ℤ).set 0 1 (-1)).set 1 0 1).token.any (·.cancelled) = false ∧
      ((((zeros 2 2 : SparseMatrix ℤ).set 0 1 (-1)).set 1 0 1).range.PartialsFit (((zeros 2 2 : SparseMatrix ℤ).set 0 1 (-1)).set 1 0 1).rowCount →
        ∃ b, (((zeros 2 2 : SparseMatrix ℤ).set 0 1 (-1)).set 1 0 1).isOrthogonal = .ok b ∧ (((zeros 2 2 : SparseMatrix ℤ).set 0 1 (-1)).set 1 0 1).isUnitary = .ok b ∧
          (b = true ↔ (((zeros 2 2 : SparseMatrix ℤ).set 0 1 (-1)).set 1 0 1).isSquare ∧
            entryMatrix (((zeros 2 2 : SparseMatrix ℤ).set 0 1 (-1)).set 1 0 1).rowCount (((zeros 2 2 : SparseMatrix ℤ).set 0 1 (-1)).set 1 0 1).get *
              (entryMatrix (((zeros 2 2 : SparseMatrix ℤ).set 0 1 (-1)).set 1 0 1).rowCount (((zeros 2 2 : SparseMatrix ℤ).set 0 1 (-1)).set 1 0 1).get).transpose = 1) ∧
          (b = true ↔ (((zeros 2 2 : SparseMatrix ℤ).set 0 1 (-1)).set 1 0 1).isSquare ∧
            (entryMatrix (((zeros 2 2 : SparseMatrix ℤ).set 0 1 (-1)).set 1 0 1).rowCount (((zeros 2 2 : SparseMatrix ℤ).set 0 1 (-1)).set 1 0 1).get).transpose *
              entryMatrix (((zeros 2 2 : SparseMatrix ℤ).set 0 1 (-1)).set 1 0 1).rowCount (((zeros 2 2 : SparseMatrix ℤ).set 0 1 (-1)).set 1 0 1).get = 1)) ∧
      ((((zeros 2 2 : SparseMatrix ℤ).set 0 1 (-1)).set 1 0 1).isSquare = true → ¬(((zeros 2 2 : SparseMatrix ℤ).set 0 1 (-1)).set 1 0 1).range.PartialsFit (((zeros 2 2 : SparseMatrix ℤ).set 0 1 (-1)).set 1 0 1).rowCount →
        (((zeros 2 2 : SparseMatrix ℤ).set 0 1 (-1)).set 1 0 1).isOrthogonal = .error (.fault .capacityOverflow) ∧
          (((zeros 2 2 : SparseMatrix ℤ).set 0 1 (-1)).set 1 0 1).isUnitary = .error (.fault .capacityOverflow)) :=
  ⟨by decide, rfl, isOrthogonal_eq_isUnitary _ (by decide) rfl⟩

open Host in
/-- The zero matrix of size `2^59` at degree `2^59`: a loop over its rows is cut into `2^59`
chunks, whose answers do not fit one buffer, so both tests fault. -/
theorem isOrthogonal_zeros_wide_degree :
    ∃ m : SparseMatrix ℤ, (zeros (2 ^ 59) (2 ^ 59) : SparseMatrix ℤ).setDegree (2 ^ 59) = .ok m ∧
      m.isOrthogonal = .error (.fault .capacityOverflow) ∧
      m.isUnitary = .error (.fault .capacityOverflow) :=
  ⟨_, rfl, isOrthogonal_partials_overflow rfl rfl (by decide),
    isUnitary_partials_overflow rfl rfl (by decide)⟩

end Exact

end SparseMatrix
