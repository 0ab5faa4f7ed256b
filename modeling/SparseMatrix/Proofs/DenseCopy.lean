import SparseMatrix.Proofs.DenseLayout
import SparseMatrix.Proofs.Elementwise

/-!
# Dense copies of matrices

A matrix is copied into a dense array (`toDense`) and back (`ofDense`), and into columns
(`toColumns`). The copies fault only when a buffer cannot be laid out: the dense copy of a
`rows × cols` matrix needs `rows * cols` to be a word and its values to fit one buffer
(`Dense.Fits`), the columns one column and the list of columns.

* A shaped array is determined by its size and the values it reads
  (`Dense.Shaped.eq_of_get?`).
* The matrix of a shaped array tabulates what the array reads (`tabulates_ofDense`): it
  writes exactly the cells whose value is not zero.
* So an array made into a matrix and back is the array itself when the zero test holds of
  zero alone (`toDense_ofDense`), and a matrix whose cells lie inside its bounds, made dense
  and back, equals it, with its size, when each written value and zero equal themselves
  (`ofDense_toDense_beq`).
* Column `c` of the columns holds at row `r` what the dense copy reads at `(r, c)`
  (`toColumns_toDense`).

A matrix too large for one buffer has no dense copy (`toDense_too_large`).
-/

namespace SparseMatrix

variable {α : Type}

/-! ## Arrays determined by what they read -/

namespace Dense.Shaped

variable {x y : Dense α}

/-- Inside the bounds, a shaped array reads the value at the cell's position. -/
theorem get?_eq_some_getD (hx : x.Shaped) {r c : Nat} (hr : r < x.rows) (hc : c < x.cols)
    (z : α) : x.get? r c = some (x.data.getD (r * x.cols + c) z) := by
  rw [get?_of_lt hr hc, Array.getD_eq_getD_getElem?,
    Array.getElem?_eq_getElem (hx.index_lt hr hc), Option.getD_some]

/-- Two shaped arrays of one size that read the same values are equal: every position of the
data is the position of a cell. -/
theorem eq_of_get? (hx : x.Shaped) (hy : y.Shaped) (hrows : x.rows = y.rows)
    (hcols : x.cols = y.cols) (h : ∀ r c, x.get? r c = y.get? r c) : x = y := by
  obtain ⟨rows, cols, xs⟩ := x
  obtain ⟨rows', cols', ys⟩ := y
  dsimp only at hrows hcols
  subst hrows hcols
  congr 1
  apply Array.ext_getElem?
  intro i
  by_cases hi : i < rows * cols
  · obtain ⟨-, -, -, hxi⟩ := hx.cell_of_lt (show i < xs.size by rw [hx]; exact hi)
    obtain ⟨-, -, -, hyi⟩ := hy.cell_of_lt (show i < ys.size by rw [hy]; exact hi)
    rw [← hxi, ← hyi, h]
  · have hxs : xs.size = rows * cols := hx
    have hys : ys.size = rows * cols := hy
    rw [Array.getElem?_eq_none (by omega), Array.getElem?_eq_none (by omega)]

end Dense.Shaped

/-! ## The matrix of an array -/

section OfDense

variable [Arith α] {d : Dense α}

/-- The matrix of a shaped array writes the values read inside its bounds that are not
zero. -/
theorem Dense.Shaped.ofDense_eq [Host] (hd : d.Shaped) :
    ofDense d = ((new : SparseMatrix α).derived d.rows d.cols).withCells
      (nonzeroCells (gridKeys d.rows d.cols) fun r c => (d.get? r c).getD Arith.zero) := by
  unfold ofDense nonzeroCells gridKeys
  dsimp only
  congr 1
  rw [List.filterMap_flatMap]
  refine List.flatMap_congr fun r hr => ?_
  rw [List.filterMap_map]
  refine List.filterMap_congr fun c hc => ?_
  obtain ⟨v, hv⟩ := Option.isSome_iff_exists.mp
    ((hd.get?_isSome_iff r c).mpr ⟨List.mem_range.mp hr, List.mem_range.mp hc⟩)
  simp only [Function.comp_apply, hv, Option.getD_some]

/-- The matrix of a shaped array tabulates the values the array reads. -/
theorem tabulates_ofDense [Host] (hd : d.Shaped) :
    Tabulates (ofDense d) d.rows d.cols fun r c => (d.get? r c).getD Arith.zero := by
  rw [hd.ofDense_eq]
  exact tabulates_gridCells new d.rows d.cols _

end OfDense

/-! ## Round trips -/

section RoundTrips

variable [Arith α] [Width α]

/-- A shaped array that fits one buffer, made into a matrix and back, is itself, when the
zero test holds of zero alone: the values left out are zero, and the dense copy fills them
in. -/
theorem toDense_ofDense [Host] {d : Dense α} (hd : d.Shaped) (hfit : Dense.Fits α d.rows d.cols)
    (hzero : ∀ v : α, Arith.isZero v = true → v = Arith.zero) : (ofDense d).toDense = .ok d := by
  have ht := tabulates_ofDense hd
  obtain ⟨x, hx, hrows, hcols, hget⟩ := toDense_layout ht.keys_nodup
    (by rw [ht.rowCount_eq, ht.colCount_eq]; exact hfit)
  rw [ht.rowCount_eq] at hrows
  rw [ht.colCount_eq] at hcols
  rw [hx]
  congr 1
  refine (Dense.Shaped.of_toDense hx).eq_of_get? hd hrows hcols fun r c => ?_
  by_cases hin : r < d.rows ∧ c < d.cols
  · -- the copy reads what the matrix reads, which is what the array reads
    obtain ⟨v, hv⟩ := Option.isSome_iff_exists.mp ((hd.get?_isSome_iff r c).mpr hin)
    have hread := hget r (ht.rowCount_eq ▸ hin.1) c (ht.colCount_eq ▸ hin.2)
    rw [ht.colCount_eq, ht.get_eq_of_isZero hzero hin.1 hin.2, hv, Option.getD_some] at hread
    rw [(Dense.Shaped.of_toDense hx).get?_eq_some_getD (hrows ▸ hin.1) (hcols ▸ hin.2)
      Arith.zero, hcols, hread, hv]
  · rw [Dense.get?_of_not_lt (by rw [hrows, hcols]; exact hin), Dense.get?_of_not_lt hin]

/-- A matrix whose cells lie inside its bounds, each key once, made dense and back, has its
size and equals it, when each written value equals itself and zero equals zero. -/
theorem ofDense_toDense_beq [Host] {A : SparseMatrix α} (hord : KeyOrdered A.entries)
    (hin : A.store.Bounded 0) (hfit : Dense.Fits α A.rowCount A.colCount)
    (hz : Arith.eq (Arith.zero : α) Arith.zero = true)
    (hrefl : ∀ kv ∈ A.entries, Arith.eq kv.2 kv.2 = true) :
    ∃ D, A.toDense = .ok D ∧ (ofDense D).dims = A.dims ∧ (ofDense D).beq A = true := by
  obtain ⟨D, hD, hrows, hcols, hget⟩ := toDense_layout hord.nodup hfit
  have hDs := Dense.Shaped.of_toDense hD
  have hread : ∀ r c, r < A.rowCount → c < A.colCount → (D.get? r c).getD Arith.zero = A.get r c := by
    intro r c hr hc
    rw [hDs.get?_eq_some_getD (hrows ▸ hr) (hcols ▸ hc) Arith.zero, Option.getD_some, hcols]
    exact hget r hr c hc
  have ht : Tabulates (ofDense D) A.rowCount A.colCount A.get :=
    (hrows ▸ hcols ▸ tabulates_ofDense hDs).congr hread
  refine ⟨D, hD, ht.dims, ?_⟩
  simp only [beq, Bool.and_eq_true, List.all_eq_true, beq_iff_eq]
  refine ⟨⟨ht.dims, fun kv hkv => ?_⟩, fun kv hkv => ?_⟩
  · -- a cell of the copy holds the value read at its key, which is no zero, so it is written
    obtain ⟨-, hv, hnz⟩ := (ht.mem_entries kv.1 kv.2).mp hkv
    rw [hv]
    by_cases hmem : ∃ w, (kv.1, w) ∈ A.entries
    · obtain ⟨w, hw⟩ := hmem
      rw [get_of_mem hord.nodup hw]
      exact hrefl _ hw
    · have hzero : A.get kv.1.row kv.1.col = Arith.zero := get_of_not_mem fun w hw => hmem ⟨w, hw⟩
      rw [hv, hzero] at hnz
      rw [Arith.isZero, hz] at hnz
      cases hnz
  · -- a written cell reads back as itself, or as zero where it passes the zero test
    have hk := hin kv hkv
    rw [ht.get_eq kv.1.row kv.1.col hk.1 hk.2, get_of_mem hord.nodup hkv]
    split
    · assumption
    · exact hrefl kv hkv

/-- The columns of a matrix, when a column and the list of columns each fit one buffer. -/
theorem toColumns_eq {A : SparseMatrix α} (hcolumn : A.rowCount * Width.bytes α ≤ bufferLimit)
    (hcolumns : A.colCount * vectorBytes ≤ bufferLimit) :
    A.toColumns = .ok ((List.range A.colCount).map fun c =>
      (List.range A.rowCount).map fun r => A.get r c) := by
  unfold toColumns
  rw [fitsBuffer_of_le hcolumn, fitsBuffer_of_le hcolumns]
  rfl

/-- Column `c` of the columns holds at row `r` what the dense copy reads at `(r, c)`. -/
theorem toColumns_toDense {A : SparseMatrix α} (hnd : (A.entries.map Prod.fst).Nodup)
    (hfit : Dense.Fits α A.rowCount A.colCount)
    (hcolumn : A.rowCount * Width.bytes α ≤ bufferLimit)
    (hcolumns : A.colCount * vectorBytes ≤ bufferLimit) :
    ∃ L D, A.toColumns = .ok L ∧ A.toDense = .ok D ∧
      ∀ r c, r < A.rowCount → c < A.colCount → (L[c]?.bind fun col => col[r]?) = D.get? r c := by
  obtain ⟨D, hD, hrows, hcols, hget⟩ := toDense_layout hnd hfit
  refine ⟨_, D, toColumns_eq hcolumn hcolumns, hD, fun r c hr hc => ?_⟩
  rw [(Dense.Shaped.of_toDense hD).get?_eq_some_getD (hrows ▸ hr) (hcols ▸ hc) Arith.zero, hcols,
    hget r hr c hc, List.getElem?_map, List.getElem?_range hc, Option.map_some, Option.bind_some,
    List.getElem?_map, List.getElem?_range hr, Option.map_some]

/-- **Dense copies round trip.** An array with one value per cell that fits one buffer, made
into a matrix and back, is itself when the zero test holds of zero alone. A matrix whose
cells lie inside its bounds, each key once, whose dense copy fits one buffer, made dense and
back, has its size and equals it when each written value and zero equal themselves. And
when its columns fit their buffers, column `c` holds at row `r` what the dense copy reads at
`(r, c)`. -/
theorem dense_copies_round_trip [Host] :
    (∀ d : Dense α, d.Shaped → Dense.Fits α d.rows d.cols →
      (∀ v : α, Arith.isZero v = true → v = Arith.zero) → (ofDense d).toDense = .ok d) ∧
    (∀ A : SparseMatrix α, KeyOrdered A.entries → A.store.Bounded 0 →
      Dense.Fits α A.rowCount A.colCount → Arith.eq (Arith.zero : α) Arith.zero = true →
      (∀ kv ∈ A.entries, Arith.eq kv.2 kv.2 = true) →
      ∃ D, A.toDense = .ok D ∧ (ofDense D).dims = A.dims ∧ (ofDense D).beq A = true) ∧
    (∀ A : SparseMatrix α, KeyOrdered A.entries → Dense.Fits α A.rowCount A.colCount →
      A.rowCount * Width.bytes α ≤ bufferLimit → A.colCount * vectorBytes ≤ bufferLimit →
      ∃ L D, A.toColumns = .ok L ∧ A.toDense = .ok D ∧
        ∀ r c, r < A.rowCount → c < A.colCount → (L[c]?.bind fun col => col[r]?) = D.get? r c) :=
  ⟨fun _ hd hfit hzero => toDense_ofDense hd hfit hzero,
    fun _ hord hin hfit hz hrefl => ofDense_toDense_beq hord hin hfit hz hrefl,
    fun _ hord hfit hcolumn hcolumns => toColumns_toDense hord.nodup hfit hcolumn hcolumns⟩

end RoundTrips

open Host in
/-- Over the integers: a `2 × 2` array with zeros comes back from its matrix, and a `2 × 3`
matrix with a written zero comes back from its dense copy, its columns reading the copy. -/
theorem dense_copies_round_trip_int :
    (ofDense (⟨2, 2, #[1, 0, 0, 3]⟩ : Dense Int)).toDense = .ok ⟨2, 2, #[1, 0, 0, 3]⟩ ∧
    (∃ D, (((zeros 2 3 : SparseMatrix Int).set 1 2 0).set 0 0 5).toDense = .ok D ∧
      (ofDense D).dims = (2, 3) ∧
      (ofDense D).beq (((zeros 2 3 : SparseMatrix Int).set 1 2 0).set 0 0 5) = true) ∧
    ∃ L D, (((zeros 2 3 : SparseMatrix Int).set 1 2 0).set 0 0 5).toColumns = .ok L ∧
      (((zeros 2 3 : SparseMatrix Int).set 1 2 0).set 0 0 5).toDense = .ok D ∧
      ∀ r c, r < 2 → c < 3 → (L[c]?.bind fun col => col[r]?) = D.get? r c := by
  have hzero : ∀ v : Int, Arith.isZero v = true → v = Arith.zero :=
    fun v hv => (ExactArith.isZero_iff v).mp hv
  have hord : KeyOrdered (((zeros 2 3 : SparseMatrix Int).set 1 2 0).set 0 0 5).entries := by
    unfold KeyOrdered
    decide
  have hin : (((zeros 2 3 : SparseMatrix Int).set 1 2 0).set 0 0 5).store.Bounded 0 := by
    unfold Store.Bounded
    decide
  obtain ⟨hdense, hcopy, hcolumns⟩ := (dense_copies_round_trip (α := Int))
  refine ⟨hdense _ rfl (by decide) hzero, hcopy _ hord hin (by decide) rfl (by decide),
    hcolumns _ hord (by decide) (by decide) (by decide)⟩

open Host in
/-- A `2^31 × 2^31` matrix of 64-bit integers, with no cell, has no dense copy: its `2^62`
values of 8 bytes each do not fit one buffer. -/
theorem toDense_too_large :
    (zeros 2147483648 2147483648 : SparseMatrix Int64).store.Bounded 0 ∧
    (zeros 2147483648 2147483648 : SparseMatrix Int64).toDense = .error .capacityOverflow := by
  refine ⟨?_, rfl⟩
  intro kv hkv
  cases hkv

end SparseMatrix
