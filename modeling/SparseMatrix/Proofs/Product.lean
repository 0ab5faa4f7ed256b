import SparseMatrix.Operations
import SparseMatrix.Proofs.Cells
import SparseMatrix.Proofs.Determinant
import SparseMatrix.Proofs.Degree

/-!
# The matrix product

With inner sizes that differ the product is refused, naming both sizes; with sizes that
agree it fails only when its token is cancelled or with a fault (`dotProduct_failsWith`),
among them the buffer of the answers of the chunks of its loop over the rows, at a degree
too large for it (`dotProduct_partials_overflow`).

Read in a ring (`ExactReading`), the product of an `m × k` and a `k × n` matrix whose
products and partial sums all fit is the `m × n` matrix that reads `Σ_p a(i,p) · b(p,j)`
at each cell and holds exactly the cells whose sum is not zero (`dotProduct_spec`). Each
cell is a checked fold over the nonzero entries of a row of `a`, and a zero entry adds no
term to its running sum (`ExactReading.rowTimesColumn_eq`). A word type computes the
product so while nothing overflows; exact arithmetic, always.

Over exact arithmetic the product is an equation, whatever the degree of its loop
(`dotProduct_eq`): the cells `(i, j)` of the `a.rowCount × b.colCount` grid (`gridKeys`)
whose value `productFn a b i j` is not zero, in row-major order.

For square operands, the product reads the product of the entry matrices
(`entryMatrix_productFn`), and it equals the identity when that product is one
(`dotProduct_beq_identity`). The determinant, whose paths all compute the determinant of
the entry matrix, is then multiplicative (`determinant_dotProduct`).
-/

namespace SparseMatrix

variable {α : Type}

/-! ## The grid of keys -/

/-- The keys of a `rows × cols` matrix, in row-major order. -/
def gridKeys (rows cols : Nat) : List Key :=
  (List.range rows).flatMap fun r => (List.range cols).map fun c => ⟨r, c⟩

theorem mem_gridKeys {rows cols : Nat} {k : Key} :
    k ∈ gridKeys rows cols ↔ k.row < rows ∧ k.col < cols := by
  constructor
  · intro h
    obtain ⟨r, hr, hk⟩ := List.mem_flatMap.mp h
    obtain ⟨c, hc, rfl⟩ := List.mem_map.mp hk
    exact ⟨List.mem_range.mp hr, List.mem_range.mp hc⟩
  · rintro ⟨hr, hc⟩
    exact List.mem_flatMap.mpr ⟨k.row, List.mem_range.mpr hr,
      List.mem_map.mpr ⟨k.col, List.mem_range.mpr hc, rfl⟩⟩

theorem gridKeys_nodup (rows cols : Nat) : (gridKeys rows cols).Nodup := by
  refine List.nodup_flatMap.mpr ⟨fun r _ => ?_, ?_⟩
  · refine List.Nodup.map ?_ List.nodup_range
    intro c c' h
    simpa using h
  · -- the keys of different rows differ in their row
    refine List.pairwise_lt_range.imp fun {r r'} hlt => ?_
    intro k hk hk'
    obtain ⟨c, -, rfl⟩ := List.mem_map.mp hk
    obtain ⟨c', -, hkey⟩ := List.mem_map.mp hk'
    have hrow : r' = r := congrArg Key.row hkey
    omega

/-! ## Rows of computed values -/

section Rows

variable [Arith α]

theorem filterMapM_of_ok {γ δ ε : Type} {l : List γ} {g : γ → Except ε (Option δ)}
    {f : γ → Option δ} (h : ∀ x ∈ l, g x = pure (f x)) : l.filterMapM g = pure (l.filterMap f) := by
  induction l with
  | nil => rfl
  | cons x l ih =>
    rw [List.filterMapM_cons, h x List.mem_cons_self, pure_bind,
      ih fun y hy => h y (List.mem_cons_of_mem x hy), List.filterMap_cons]
    cases f x <;> rfl

/-- A row whose values below its column count are computed without failing writes their
nonzero values. -/
theorem rowOf_of_ok {r cols : Nat} {g : Nat → Except Fault α} {f : Nat → α}
    (h : ∀ c < cols, g c = pure (f c)) :
    rowOf r cols g = pure ((List.range cols).filterMap fun c =>
      if Arith.isZero (f c) then none else some ((⟨r, c⟩ : Key), f c)) := by
  unfold rowOf
  refine filterMapM_of_ok fun c hc => ?_
  rw [h c (List.mem_range.mp hc), liftFault_pure, pure_bind]

theorem rowOf_pure (r cols : Nat) (g : Nat → α) :
    rowOf r cols (fun c => pure (g c)) =
      pure ((List.range cols).filterMap fun c =>
        if Arith.isZero (g c) then none else some ((⟨r, c⟩ : Key), g c)) :=
  rowOf_of_ok fun _ _ => rfl

theorem flatten_rows_eq_nonzeroCells (rows cols : Nat) (f : Nat → Nat → α) :
    ((List.range' 0 rows).map fun i => (List.range cols).filterMap fun c =>
        if Arith.isZero (f i c) then none else some ((⟨i, c⟩ : Key), f i c)).flatten =
      nonzeroCells (gridKeys rows cols) f := by
  simp only [nonzeroCells, gridKeys, List.flatMap_def, List.filterMap_flatten, List.map_map,
    Function.comp_def, List.filterMap_map, List.range_eq_range']

/-- A product whose cells are all computed without failing, and whose rows of `a` fit a
buffer, writes the nonzero cell values in row-major order, whatever the degree of its
loop. -/
theorem dotProduct_of_cells [Width α] {a b : SparseMatrix α} {f : Nat → Nat → α}
    (hk : a.colCount = b.rowCount) (hrows : a.rowCount ≤ Text.wordMax)
    (hc : a.range.cancelled = false) (hp : a.range.PartialsFit a.rowCount)
    (hbuf : 0 < a.rowCount → fitsBuffer (Width.bytes α) a.colCount = pure ())
    (hf : ∀ i < a.rowCount, ∀ j < b.colCount,
      rowTimesColumn (rowTerms a i a.colCount) b j = pure (f i j)) :
    a.dotProduct b = pure ((a.derived a.rowCount b.colCount).withCells
      (nonzeroCells (gridKeys a.rowCount b.colCount) f)) := by
  have hrow : ∀ i, 0 ≤ i → i < a.rowCount →
      (do
        fitsBuffer (Width.bytes α) a.colCount
        rowOf i b.colCount fun j => rowTimesColumn (rowTerms a i a.colCount) b j :
        Except Failure (List (Key × α))) =
      pure ((List.range b.colCount).filterMap fun c =>
        if Arith.isZero (f i c) then none else some ((⟨i, c⟩ : Key), f i c)) := by
    intro i _ hi
    rw [hbuf (by omega), liftFault_pure, pure_bind]
    exact rowOf_of_ok fun j hj => hf i hi j hj
  unfold dotProduct
  rw [if_neg (not_not.mpr hk)]
  dsimp only
  rw [Range.tryMap_of_ok (range_degree a) (by omega) hc hp
    (by rw [Nat.mul_zero]; exact Nat.zero_le _) hrow, pure_bind, Nat.sub_zero,
    flatten_rows_eq_nonzeroCells]

/-- A cell list of nonzero values holds a cell exactly at a listed key, with the value
there, when that value is not zero. -/
theorem mem_nonzeroCells {keys : List Key} {f : Nat → Nat → α} {k : Key} {v : α} :
    (k, v) ∈ nonzeroCells keys f ↔ k ∈ keys ∧ v = f k.row k.col ∧ Arith.isZero v = false := by
  unfold nonzeroCells
  rw [List.mem_filterMap]
  constructor
  · rintro ⟨k', hk', hkv⟩
    split at hkv
    · cases hkv
    · rename_i hz
      cases hkv
      exact ⟨hk', rfl, by simpa using hz⟩
  · rintro ⟨hk, rfl, hz⟩
    exact ⟨k, hk, by simp [hz]⟩

/-- Operands whose inner sizes differ are refused, naming the two sizes. -/
theorem dotProduct_innerSizesDiffer [Width α] {a b : SparseMatrix α}
    (hk : a.colCount ≠ b.rowCount) :
    a.dotProduct b = .error (.error (.innerSizesDiffer a.colCount b.rowCount)) := by
  unfold dotProduct
  rw [if_pos hk]
  rfl

/-- A product whose token is cancelled stops before its first row. -/
theorem dotProduct_cancelled [Width α] {a b : SparseMatrix α} (hk : a.colCount = b.rowCount)
    (hc : a.token.any (·.cancelled) = true) (hm : 0 < a.rowCount) :
    a.dotProduct b = .error (.error .cancelled) := by
  unfold dotProduct
  rw [if_neg (not_not.mpr hk), Range.tryMap_cancelled hm hc]
  rfl

/-- A product whose loop over the rows cannot lay out its chunks' answers faults before its
first row. -/
theorem dotProduct_partials_overflow [Width α] {a b : SparseMatrix α}
    (hk : a.colCount = b.rowCount) (hc : a.token.any (·.cancelled) = false)
    (hp : ¬a.range.PartialsFit a.rowCount) :
    a.dotProduct b = .error (.fault .capacityOverflow) := by
  unfold dotProduct
  rw [if_neg (not_not.mpr hk),
    Range.tryMap_zero_partials_overflow hc hp]
  rfl

/-- A product over no row runs no loop, cancelled or not: it is the empty `0 × n`
matrix. -/
theorem dotProduct_empty [Width α] {a b : SparseMatrix α} (hk : a.colCount = b.rowCount)
    (hm : a.rowCount = 0) :
    a.dotProduct b = pure ((a.derived a.rowCount b.colCount).withCells []) := by
  unfold dotProduct
  rw [if_neg (not_not.mpr hk)]
  simp [Range.tryMap, hm]

/-- With agreeing inner sizes and a token that is not cancelled, a product fails only with
a fault: an overflow of its arithmetic or of a buffer. -/
theorem dotProduct_failsWith [Width α] {a b : SparseMatrix α} (hk : a.colCount = b.rowCount)
    (hrows : a.rowCount ≤ Text.wordMax) (hc : a.token.any (·.cancelled) = false) :
    FailsWith Failure.IsFault (a.dotProduct b) := by
  unfold dotProduct
  rw [if_neg (not_not.mpr hk)]
  refine FailsWith.bind (Range.tryMap_failsWith (range_degree a) (by omega) hc fun _ _ _ => ?_)
    fun _ _ => failsWith_ok _
  exact FailsWith.bind (failsWith_lift _) fun _ _ => rowOf_failsWith _ _ _

/-- A derived matrix holding values at the keys of its own grid keeps its bounds. -/
theorem dims_gridCells {β : Type} (m : SparseMatrix β) (rows cols : Nat) (f : Nat → Nat → α) :
    ((m.derived rows cols : SparseMatrix α).withCells (nonzeroCells (gridKeys rows cols) f)).dims =
      (rows, cols) := by
  have hlt : ∀ kv ∈ nonzeroCells (gridKeys rows cols) f, kv.1.row < rows ∧ kv.1.col < cols :=
    fun _ hkv => mem_gridKeys.mp (key_mem_of_mem_nonzeroCells hkv)
  rw [dims, rowCount_withCells (m := m.derived rows cols) fun kv hkv => (hlt kv hkv).1,
    colCount_withCells (m := m.derived rows cols) fun kv hkv => (hlt kv hkv).2]
  rfl

end Rows

/-! ## The product read in a ring -/

section Reading

variable {R : Type} [CommRing R] [Arith α] (V : ExactReading α R)

/-- Every product `a(i,q) · b(q,j)` and every partial sum `Σ_{p ≤ q} a(i,p) · b(p,j)` of a
cell `(i, j)` of `a · b` fits, read through `V`. -/
def ExactReading.ProductFits (a b : SparseMatrix α) : Prop :=
  ∀ i < a.rowCount, ∀ j < b.colCount, ∀ q < a.colCount,
    V.Fits (V.val (a.get i q) * V.val (b.get q j)) ∧
      V.Fits (∑ p ∈ Finset.range (q + 1), V.val (a.get i p) * V.val (b.get p j))

/-- The terms of a row grow by the next entry, unless it is zero. -/
theorem rowTerms_succ (a : SparseMatrix α) (i k : Nat) :
    rowTerms a i (k + 1) =
      rowTerms a i k ++ if Arith.isZero (a.get i k) then [] else [(k, a.get i k)] := by
  rw [rowTerms, rowTerms, List.range_succ, List.map_append, List.filter_append]
  by_cases h : Arith.isZero (a.get i k) = true <;> simp [h]

/-- The checked sum over the first `k` entries of a row, each product and each partial sum
fitting, reads the sum of the readings of its terms. -/
theorem ExactReading.rowTimesColumn_eq (a b : SparseMatrix α) (i j k : Nat)
    (hfit : ∀ q < k, V.Fits (V.val (a.get i q) * V.val (b.get q j)) ∧
      V.Fits (∑ p ∈ Finset.range (q + 1), V.val (a.get i p) * V.val (b.get p j))) :
    ∃ c, rowTimesColumn (rowTerms a i k) b j = pure c ∧
      V.val c = ∑ p ∈ Finset.range k, V.val (a.get i p) * V.val (b.get p j) := by
  induction k with
  | zero => exact ⟨Arith.zero, rfl, by rw [V.val_zero, Finset.sum_range_zero]⟩
  | succ k ih =>
    obtain ⟨c, hc, hval⟩ := ih fun q hq => hfit q (by omega)
    obtain ⟨hmul, hsum⟩ := hfit k (by omega)
    unfold rowTimesColumn at hc ⊢
    rw [rowTerms_succ, List.foldlM_append, hc, pure_bind, Finset.sum_range_succ]
    split
    · -- a zero entry adds no term
      rename_i hz
      refine ⟨c, rfl, ?_⟩
      rw [hval, (V.isZero_iff _).mp hz, zero_mul, add_zero]
    · -- otherwise the product and the new partial sum are computed exactly
      obtain ⟨prod, hprod, hpv⟩ := V.mul_eq _ _ hmul
      have hfits : V.Fits (V.val c + V.val prod) := by
        rwa [hval, hpv, ← Finset.sum_range_succ]
      obtain ⟨c', hc', hcv⟩ := V.add_eq _ _ hfits
      refine ⟨c', ?_, by rw [hcv, hval, hpv]⟩
      rw [List.foldlM_cons, hprod, pure_bind, hc', pure_bind, List.foldlM_nil]

/-- When every product and partial sum fits, each cell of the product inside its bounds is
computed and reads its sum; taken as zero outside the bounds, the values' nonzero cells
over the grid hold them. -/
theorem ExactReading.cellValues (a b : SparseMatrix α) (hfit : V.ProductFits a b) :
    ∃ f : Nat → Nat → α,
      (∀ i < a.rowCount, ∀ j < b.colCount,
        rowTimesColumn (rowTerms a i a.colCount) b j = pure (f i j) ∧
          V.val (f i j) = ∑ q : Fin a.colCount, V.val (a.get i q) * V.val (b.get q j)) ∧
      CellsOf (nonzeroCells (gridKeys a.rowCount b.colCount) f) f := by
  have hcell : ∀ i j, ∃ c : α, if i < a.rowCount ∧ j < b.colCount then
      rowTimesColumn (rowTerms a i a.colCount) b j = pure c ∧
        V.val c = ∑ q : Fin a.colCount, V.val (a.get i q) * V.val (b.get q j)
      else c = Arith.zero := by
    intro i j
    split
    · rename_i h
      obtain ⟨c, hrun, hval⟩ := V.rowTimesColumn_eq a b i j a.colCount (hfit i h.1 j h.2)
      refine ⟨c, hrun, ?_⟩
      rw [hval, Fin.sum_univ_eq_sum_range fun q => V.val (a.get i q) * V.val (b.get q j)]
    · exact ⟨Arith.zero, rfl⟩
  choose f hf using hcell
  refine ⟨f, fun i hi j hj => by simpa only [if_pos (And.intro hi hj)] using hf i j, ?_⟩
  refine cellsOf_nonzeroCells_of_isZero (gridKeys_nodup _ _) V.eq_zero_of_isZero
    fun r c hrc => ?_
  have hout : ¬(r < a.rowCount ∧ c < b.colCount) := fun h => hrc (mem_gridKeys.mpr h)
  simpa only [if_neg hout] using hf r c

/-- With agreeing inner sizes, a product that runs, whose rows and the answers of whose
chunks fit their buffers and whose products and partial sums all fit, returns the `m × n`
matrix that reads `Σ_p a(i,p) · b(p,j)` inside its bounds and holds exactly the cells whose
sum is not zero, each once. -/
theorem ExactReading.dotProduct_values [Width α] (a b : SparseMatrix α)
    (hk : a.colCount = b.rowCount) (hrows : a.rowCount ≤ Text.wordMax)
    (hc : a.token.any (·.cancelled) = false ∨ a.rowCount = 0)
    (hp : a.range.PartialsFit a.rowCount)
    (hbuf : 0 < a.rowCount → a.colCount * Width.bytes α ≤ bufferLimit) (hfit : V.ProductFits a b) :
    ∃ p, a.dotProduct b = .ok p ∧ p.dims = (a.rowCount, b.colCount) ∧
      (∀ i < a.rowCount, ∀ j < b.colCount,
        V.val (p.get i j) = ∑ q : Fin a.colCount, V.val (a.get i q) * V.val (b.get q j)) ∧
      (∀ k v, (k, v) ∈ p.entries ↔ k.row < a.rowCount ∧ k.col < b.colCount ∧
        V.val v = (∑ q : Fin a.colCount, V.val (a.get k.row q) * V.val (b.get q k.col)) ∧
          V.val v ≠ 0) ∧
      (p.entries.map Prod.fst).Nodup := by
  obtain ⟨f, hin, hcells⟩ := V.cellValues a b hfit
  have hrun : a.dotProduct b = pure ((a.derived a.rowCount b.colCount).withCells
      (nonzeroCells (gridKeys a.rowCount b.colCount) f)) := by
    rcases hc with hc | hm
    · exact dotProduct_of_cells hk hrows hc hp (fun hm => fitsBuffer_of_le (hbuf hm))
        fun i hi j hj => (hin i hi j hj).1
    · -- no row: the grid of keys is empty too
      rw [dotProduct_empty hk hm, hm]
      rfl
  refine ⟨_, hrun, dims_gridCells a _ _ f, fun i hi j hj => ?_, fun k v => ?_, hcells.nodup⟩
  · rw [hcells.get_withCells, (hin i hi j hj).2]
  · rw [entries_withCells, mem_nonzeroCells, mem_gridKeys, V.isZero_eq_false_iff]
    constructor
    · rintro ⟨⟨hr, hc⟩, rfl, hz⟩
      exact ⟨hr, hc, (hin _ hr _ hc).2, hz⟩
    · rintro ⟨hr, hc, hv, hz⟩
      exact ⟨⟨hr, hc⟩, V.val_injective (hv.trans (hin _ hr _ hc).2.symm), hz⟩

/-- The product of an `m × k` and a `k' × n` matrix, `m` a machine word, its element
arithmetic read in a ring through `V`. It fails with a dimension mismatch exactly when
`k ≠ k'`. With `k = k'`, a cancelled token stops it when `a` has a row; otherwise, when a
row of `a` and the answers of the chunks of the loop over its rows fit their buffers and no
product and no partial sum of a cell overflows, it returns the `m × n` matrix that reads
`Σ_p a(i,p) · b(p,j)` at each cell `(i, j)` inside it and holds exactly the cells inside it
whose sum is not zero, each once. When the chunks' answers do not fit, it faults with
`capacityOverflow`. -/
theorem dotProduct_spec [Width α] (a b : SparseMatrix α) (hrows : a.rowCount ≤ Text.wordMax) :
    ((∃ e, a.dotProduct b = .error (.error e) ∧ e.kind = "DimensionMismatch") ↔
      a.colCount ≠ b.rowCount) ∧
    (a.colCount = b.rowCount → a.token.any (·.cancelled) = true → 0 < a.rowCount →
      a.dotProduct b = .error (.error .cancelled)) ∧
    (a.colCount = b.rowCount → (a.token.any (·.cancelled) = false ∨ a.rowCount = 0) →
      a.range.PartialsFit a.rowCount →
      (0 < a.rowCount → a.colCount * Width.bytes α ≤ bufferLimit) → V.ProductFits a b →
      ∃ p, a.dotProduct b = .ok p ∧ p.dims = (a.rowCount, b.colCount) ∧
        (∀ i < a.rowCount, ∀ j < b.colCount,
          V.val (p.get i j) = ∑ q : Fin a.colCount, V.val (a.get i q) * V.val (b.get q j)) ∧
        (∀ k v, (k, v) ∈ p.entries ↔ k.row < a.rowCount ∧ k.col < b.colCount ∧
          V.val v = (∑ q : Fin a.colCount, V.val (a.get k.row q) * V.val (b.get q k.col)) ∧
            V.val v ≠ 0) ∧
        (p.entries.map Prod.fst).Nodup) ∧
    (a.colCount = b.rowCount → a.token.any (·.cancelled) = false →
      ¬a.range.PartialsFit a.rowCount → a.dotProduct b = .error (.fault .capacityOverflow)) := by
  refine ⟨⟨?_, fun hk => ⟨_, dotProduct_innerSizesDiffer hk, rfl⟩⟩, dotProduct_cancelled,
    fun hk hc hp hbuf hfit => V.dotProduct_values a b hk hrows hc hp hbuf hfit,
    dotProduct_partials_overflow⟩
  rintro ⟨e, he, hkind⟩ hk
  cases hc : a.token.any (·.cancelled) with
  | true =>
    rcases Nat.eq_zero_or_pos a.rowCount with hm | hm
    · rw [dotProduct_empty hk hm] at he
      cases he
    · rw [dotProduct_cancelled hk hc hm] at he
      cases he
      simp [Error.kind] at hkind
  | false =>
    obtain ⟨f, hf⟩ := dotProduct_failsWith hk hrows hc _ he
    cases hf

open Host in
/-- The product of the `2 × 2` shear `[[1, 3], [0, 1]]` and a `2 × 3` matrix with one cell,
over 64-bit words. -/
theorem dotProduct_spec_shear :
    ((identity 2 : SparseMatrix Int64).set 0 1 3).rowCount ≤ Text.wordMax ∧
    ((∃ e, ((identity 2 : SparseMatrix Int64).set 0 1 3).dotProduct ((zeros 2 3).set 1 2 5) =
        .error (.error e) ∧ e.kind = "DimensionMismatch") ↔
      ((identity 2 : SparseMatrix Int64).set 0 1 3).colCount ≠
        ((zeros 2 3 : SparseMatrix Int64).set 1 2 5).rowCount) ∧
    (((identity 2 : SparseMatrix Int64).set 0 1 3).colCount =
        ((zeros 2 3 : SparseMatrix Int64).set 1 2 5).rowCount →
      ((identity 2 : SparseMatrix Int64).set 0 1 3).token.any (·.cancelled) = true →
      0 < ((identity 2 : SparseMatrix Int64).set 0 1 3).rowCount →
      ((identity 2 : SparseMatrix Int64).set 0 1 3).dotProduct ((zeros 2 3).set 1 2 5) =
        .error (.error .cancelled)) ∧
    (((identity 2 : SparseMatrix Int64).set 0 1 3).colCount =
        ((zeros 2 3 : SparseMatrix Int64).set 1 2 5).rowCount →
      (((identity 2 : SparseMatrix Int64).set 0 1 3).token.any (·.cancelled) = false ∨
        ((identity 2 : SparseMatrix Int64).set 0 1 3).rowCount = 0) →
      ((identity 2 : SparseMatrix Int64).set 0 1 3).range.PartialsFit
        ((identity 2 : SparseMatrix Int64).set 0 1 3).rowCount →
      (0 < ((identity 2 : SparseMatrix Int64).set 0 1 3).rowCount →
        ((identity 2 : SparseMatrix Int64).set 0 1 3).colCount * Width.bytes Int64 ≤
          bufferLimit) →
      (Word.reading Int64).ProductFits ((identity 2 : SparseMatrix Int64).set 0 1 3)
        ((zeros 2 3 : SparseMatrix Int64).set 1 2 5) →
      ∃ p, ((identity 2 : SparseMatrix Int64).set 0 1 3).dotProduct ((zeros 2 3).set 1 2 5) =
          .ok p ∧
        p.dims = (((identity 2 : SparseMatrix Int64).set 0 1 3).rowCount,
          ((zeros 2 3 : SparseMatrix Int64).set 1 2 5).colCount) ∧
        (∀ i < ((identity 2 : SparseMatrix Int64).set 0 1 3).rowCount,
          ∀ j < ((zeros 2 3 : SparseMatrix Int64).set 1 2 5).colCount,
          (p.get i j).toInt = ∑ q : Fin ((identity 2 : SparseMatrix Int64).set 0 1 3).colCount,
            (((identity 2 : SparseMatrix Int64).set 0 1 3).get i q).toInt *
              (((zeros 2 3 : SparseMatrix Int64).set 1 2 5).get q j).toInt) ∧
        (∀ k v, (k, v) ∈ p.entries ↔
          k.row < ((identity 2 : SparseMatrix Int64).set 0 1 3).rowCount ∧
          k.col < ((zeros 2 3 : SparseMatrix Int64).set 1 2 5).colCount ∧
          v.toInt = (∑ q : Fin ((identity 2 : SparseMatrix Int64).set 0 1 3).colCount,
            (((identity 2 : SparseMatrix Int64).set 0 1 3).get k.row q).toInt *
              (((zeros 2 3 : SparseMatrix Int64).set 1 2 5).get q k.col).toInt) ∧
          v.toInt ≠ 0) ∧
        (p.entries.map Prod.fst).Nodup) ∧
    (((identity 2 : SparseMatrix Int64).set 0 1 3).colCount =
        ((zeros 2 3 : SparseMatrix Int64).set 1 2 5).rowCount →
      ((identity 2 : SparseMatrix Int64).set 0 1 3).token.any (·.cancelled) = false →
      ¬((identity 2 : SparseMatrix Int64).set 0 1 3).range.PartialsFit
        ((identity 2 : SparseMatrix Int64).set 0 1 3).rowCount →
      ((identity 2 : SparseMatrix Int64).set 0 1 3).dotProduct ((zeros 2 3).set 1 2 5) =
        .error (.fault .capacityOverflow)) :=
  ⟨by decide, dotProduct_spec (Word.reading Int64) _ _ (by decide)⟩

open Host in
/-- A cancelled token stops the product of two `1 × 1` matrices whose inner sizes agree. -/
theorem dotProduct_cancelled_unit :
    (identity 1 : SparseMatrix ℤ).attachToken.cancel.colCount = (identity 1 : SparseMatrix ℤ).rowCount ∧
      (identity 1 : SparseMatrix ℤ).attachToken.cancel.dotProduct (identity 1) =
        .error (.error .cancelled) :=
  ⟨rfl, dotProduct_cancelled rfl rfl (by decide)⟩

end Reading

/-! ## The values of the product -/

section Ring

variable [CommRing α] [Arith α]

/-- The values of the product `a · b`: `Σ_p a(i,p) · b(p,j)` inside its bounds, zero
outside. -/
def productFn (a b : SparseMatrix α) (i j : Nat) : α :=
  if i < a.rowCount ∧ j < b.colCount then ∑ p : Fin a.colCount, a.get i p * b.get p j else 0

theorem productFn_of_lt {a b : SparseMatrix α} {i j : Nat} (hi : i < a.rowCount)
    (hj : j < b.colCount) : productFn a b i j = ∑ p : Fin a.colCount, a.get i p * b.get p j :=
  if_pos ⟨hi, hj⟩

/-- The product of an `m × k` and a `k × n` matrix is `m × n`. -/
theorem dims_productCells (a b : SparseMatrix α) :
    ((a.derived a.rowCount b.colCount : SparseMatrix α).withCells
      (nonzeroCells (gridKeys a.rowCount b.colCount) (productFn a b))).dims =
        (a.rowCount, b.colCount) :=
  dims_gridCells a _ _ _

/-- A product of `n × n` matrices reads the product of their entry matrices. -/
theorem entryMatrix_productFn {a b : SparseMatrix α} {n : Nat} (hra : a.rowCount = n)
    (hca : a.colCount = n) (hcb : b.colCount = n) :
    entryMatrix n (productFn a b) = entryMatrix n a.get * entryMatrix n b.get := by
  subst hca
  ext i j
  have hi := i.isLt
  have hj := j.isLt
  rw [Matrix.mul_apply]
  simp only [entryMatrix, Matrix.of_apply, productFn]
  rw [if_pos (And.intro (by omega) (by omega))]

/-! ## The whole product over exact arithmetic -/

section Exact

variable [Width α] [ExactArith α]

/-- Over exact arithmetic, the product of two matrices with agreeing inner sizes is
their matrix product, with its nonzero cells written in row-major order, whatever the
degree of the loop. -/
theorem dotProduct_eq (a b : SparseMatrix α) (hk : a.colCount = b.rowCount)
    (hrows : a.rowCount ≤ Text.wordMax) (hc : a.range.cancelled = false)
    (hp : a.range.PartialsFit a.rowCount) :
    a.dotProduct b =
      pure ((a.derived a.rowCount b.colCount).withCells
        (nonzeroCells (gridKeys a.rowCount b.colCount) (productFn a b))) :=
  dotProduct_of_cells hk hrows hc hp (fun _ => ExactArith.fitsBuffer_eq _) fun i hi j hj => by
    obtain ⟨c, hrun, hval⟩ :=
      (ExactArith.reading α).rowTimesColumn_eq a b i j a.colCount fun _ _ => ⟨trivial, trivial⟩
    rw [hrun, productFn_of_lt hi hj, Fin.sum_univ_eq_sum_range fun q => a.get i q * b.get q j]
    exact congrArg pure hval

theorem cellsOf_productFn (a b : SparseMatrix α) :
    CellsOf (nonzeroCells (gridKeys a.rowCount b.colCount) (productFn a b)) (productFn a b) := by
  refine cellsOf_nonzeroCells (gridKeys_nodup _ _) fun r c hrc => ?_
  rw [productFn, if_neg fun h => hrc (mem_gridKeys.mpr h)]

/-- Square matrices whose entry matrices multiply to one have the identity as their
product. -/
theorem dotProduct_beq_identity [Host] {a b : SparseMatrix α} {n : Nat} (hra : a.rowCount = n)
    (hca : a.colCount = n) (hrb : b.rowCount = n) (hcb : b.colCount = n)
    (hn : n ≤ Text.wordMax) (hc : a.range.cancelled = false) (hp : a.range.PartialsFit n)
    (hone : entryMatrix n a.get * entryMatrix n b.get = 1) :
    (a.dotProduct b).map (·.beq (identity n)) = .ok true := by
  have hf : productFn a b = fun r c => if r = c ∧ r < n then Arith.one else Arith.zero := by
    funext i j
    rw [ExactArith.one_eq, ExactArith.zero_eq]
    by_cases h : i < n ∧ j < n
    · have hij := congrFun (congrFun (entryMatrix_productFn hra hca hcb) ⟨i, h.1⟩) ⟨j, h.2⟩
      rw [hone, Matrix.one_apply] at hij
      simp only [entryMatrix, Matrix.of_apply, Fin.mk.injEq] at hij
      rw [hij]
      by_cases hij' : i = j
      · subst hij'
        simp [h.1]
      · simp [hij']
    · rw [productFn, hra, hcb, if_neg h, if_neg]
      omega
  have hcells : CellsOf (nonzeroCells (gridKeys a.rowCount b.colCount) (productFn a b))
      (fun r c => if r = c ∧ r < n then Arith.one else Arith.zero) := by
    have h := cellsOf_productFn a b
    generalize nonzeroCells (gridKeys a.rowCount b.colCount) (productFn a b) = cs at h ⊢
    rwa [hf] at h
  rw [dotProduct_eq a b (hca.trans hrb.symm) (hra ▸ hn) hc (hra ▸ hp), identity_eq]
  refine congrArg Except.ok (beq_withCells hcells (cellsOf_diagonal n fun _ => Arith.one) ?_)
  rw [← identity_eq, dims_productCells, hra, hcb]
  simp [dims]

/-! ## The determinant of a product -/

/-- Over exact arithmetic, the determinant of the product of two `n × n` matrices whose
tokens are not cancelled is the product of their determinants: the product and the three
determinants all succeed, when the answers of the chunks of a loop over `n` indices fit
their buffer at the degrees of both. At a degree of `a` too large for them, the product
and the determinant of `a` fault with `capacityOverflow`. -/
theorem determinant_dotProduct (a b : SparseMatrix α) {n : Nat} (hra : a.rowCount = n)
    (hca : a.colCount = n) (hrb : b.rowCount = n) (hcb : b.colCount = n) (hn : n ≤ Text.wordMax)
    (hta : a.token.any (·.cancelled) = false) (htb : b.token.any (·.cancelled) = false) :
    (a.range.PartialsFit n → b.range.PartialsFit n →
      ∃ c da db, a.dotProduct b = .ok c ∧ a.determinant = .ok da ∧ b.determinant = .ok db ∧
        c.determinant = .ok (da * db)) ∧
    (¬a.range.PartialsFit n → a.dotProduct b = .error (.fault .capacityOverflow) ∧
      a.determinant = .error (.fault .capacityOverflow)) := by
  refine ⟨fun hpa hpb => ?_, fun hpa => ⟨dotProduct_partials_overflow (hca.trans hrb.symm) hta
    (hra ▸ hpa), determinant_partials_overflow a hra hca hta hpa⟩⟩
  set c := (a.derived a.rowCount b.colCount).withCells
    (nonzeroCells (gridKeys a.rowCount b.colCount) (productFn a b)) with hc
  have hdims : c.dims = (a.rowCount, b.colCount) := dims_productCells a b
  have hrows : c.rowCount = n := (congrArg Prod.fst hdims).trans hra
  have hcols : c.colCount = n := (congrArg Prod.snd hdims).trans hcb
  have hget : c.get = productFn a b := funext₂ ((cellsOf_productFn a b).get_withCells _)
  refine ⟨c, _, _, dotProduct_eq a b (hca.trans hrb.symm) (hra ▸ hn) hta (hra ▸ hpa),
    determinant_eq a hra hca hn hta hpa, determinant_eq b hrb hcb hn htb hpb, ?_⟩
  rw [determinant_eq c hrows hcols hn hta hpa, hget, entryMatrix_productFn hra hca hcb,
    Matrix.det_mul]
  rfl

open Host in
theorem determinant_dotProduct_shear :
    ((identity 3 : SparseMatrix ℤ).set 0 1 2).rowCount = 3 ∧
      ((identity 3 : SparseMatrix ℤ).set 0 1 2).colCount = 3 ∧
      (((identity 3 : SparseMatrix ℤ).set 2 0 5).set 1 1 3).rowCount = 3 ∧
      (((identity 3 : SparseMatrix ℤ).set 2 0 5).set 1 1 3).colCount = 3 ∧ 3 ≤ Text.wordMax ∧
      ((identity 3 : SparseMatrix ℤ).set 0 1 2).token.any (·.cancelled) = false ∧
      (((identity 3 : SparseMatrix ℤ).set 2 0 5).set 1 1 3).token.any (·.cancelled) = false ∧
      (((identity 3 : SparseMatrix ℤ).set 0 1 2).range.PartialsFit 3 →
        (((identity 3 : SparseMatrix ℤ).set 2 0 5).set 1 1 3).range.PartialsFit 3 →
        ∃ c da db, ((identity 3 : SparseMatrix ℤ).set 0 1 2).dotProduct
            (((identity 3 : SparseMatrix ℤ).set 2 0 5).set 1 1 3) = .ok c ∧
          ((identity 3 : SparseMatrix ℤ).set 0 1 2).determinant = .ok da ∧
          (((identity 3 : SparseMatrix ℤ).set 2 0 5).set 1 1 3).determinant = .ok db ∧
          c.determinant = .ok (da * db)) ∧
      (¬((identity 3 : SparseMatrix ℤ).set 0 1 2).range.PartialsFit 3 →
        ((identity 3 : SparseMatrix ℤ).set 0 1 2).dotProduct
            (((identity 3 : SparseMatrix ℤ).set 2 0 5).set 1 1 3) =
          .error (.fault .capacityOverflow) ∧
        ((identity 3 : SparseMatrix ℤ).set 0 1 2).determinant =
          .error (.fault .capacityOverflow)) :=
  ⟨by decide, by decide, by decide, by decide, by decide, rfl, rfl,
    determinant_dotProduct _ _ (n := 3) (by decide) (by decide) (by decide) (by decide) (by decide)
      rfl rfl⟩

open Host in
/-- The zero matrix of size `2^59` at degree `2^59` times itself: the loop over its rows
would cut them into `2^59` chunks, whose answers take more than the largest buffer, so the
product faults before any determinant can be compared. -/
theorem dotProduct_zeros_wide_degree :
    ∃ m : SparseMatrix ℤ, (zeros (2 ^ 59) (2 ^ 59) : SparseMatrix ℤ).setDegree (2 ^ 59) = .ok m ∧
      m.dotProduct m = .error (.fault .capacityOverflow) :=
  ⟨_, rfl, dotProduct_partials_overflow rfl rfl (by decide)⟩

end Exact

end Ring

end SparseMatrix
