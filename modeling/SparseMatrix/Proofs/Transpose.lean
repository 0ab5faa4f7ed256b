import SparseMatrix.Proofs.Diagonals

/-!
# Transposes swap the stored cells

The transpose of a matrix whose cells lie inside its bounds, each key once, stores exactly
the swapped cells, written zeros included, in key order, with the swapped size
(`transpose_cells`). Sorting is what puts the swapped cells in order, and a sort of a
reordering of cells already in key order gives them back (`sortCells_eq_of_perm`); so
transposing twice gives back the very list of cells and the size (`transpose_transpose`).

The transpose loops over the columns, so a cancelled token stops it when there is a column
(`transpose_cancelled`), and it faults when the answers of the loop's chunks do not fit their
buffer (`transpose_partials_overflow`).
-/

namespace SparseMatrix

variable {α : Type}

/-! ## Cells in key order are determined by their members -/

/-- Two reorderings of each other both in key order are equal: the order is strict. -/
theorem KeyOrdered.eq_of_perm {l l' : List (Key × α)} (h : KeyOrdered l) (h' : KeyOrdered l')
    (hp : l.Perm l') : l = l' :=
  hp.eq_of_pairwise (fun _ _ _ _ hab hba => absurd hba (by rw [Key.before_asymm hab]; decide)) h h'

theorem sortCells_perm (l : List (Key × α)) : (sortCells l).Perm l :=
  List.mergeSort_perm l _

/-- Sorting a reordering of cells in key order gives them back. -/
theorem sortCells_eq_of_perm {l l' : List (Key × α)} (hp : l.Perm l') (h' : KeyOrdered l') :
    sortCells l = l' := by
  have hnodup : (l.map Prod.fst).Nodup := (hp.map Prod.fst).nodup_iff.mpr h'.nodup
  exact (keyOrdered_sortCells hnodup).eq_of_perm h' ((sortCells_perm l).trans hp)

/-! ## Swapping keys -/

/-- The cell at the swapped key. -/
def swapCell (kv : Key × α) : Key × α :=
  (⟨kv.1.col, kv.1.row⟩, kv.2)

@[simp] theorem swapCell_swapCell (kv : Key × α) : swapCell (swapCell kv) = kv := rfl

theorem mem_map_swapCell {cells : List (Key × α)} {k : Key} {v : α} :
    (k, v) ∈ cells.map swapCell ↔ (⟨k.col, k.row⟩, v) ∈ cells := by
  constructor
  · intro h
    obtain ⟨kv, hkv, hswap⟩ := List.mem_map.mp h
    have hkv' : kv = swapCell (k, v) := by rw [← hswap, swapCell_swapCell]
    rw [hkv'] at hkv
    exact hkv
  · intro h
    exact List.mem_map.mpr ⟨_, h, rfl⟩

theorem map_swapCell_swapCell (cells : List (Key × α)) :
    (cells.map swapCell).map swapCell = cells := by
  rw [List.map_map]
  have hid : swapCell ∘ swapCell = (id : Key × α → Key × α) := funext swapCell_swapCell
  rw [hid, List.map_id]

/-! ## The transpose -/

/-- Inside the bounds the transpose sorts the swapped cells of the matrix. -/
theorem transpose_of_bounded {m : SparseMatrix α} (hin : m.store.Bounded 0)
    (hc : m.range.cancelled = false) (hp : m.range.PartialsFit m.colCount) :
    m.transpose = .ok ((m.derived m.colCount m.rowCount).withCells
      (sortCells (m.entries.map swapCell))) := by
  have hkept : (m.entries.filter fun kv => m.inBounds kv.1) = m.entries := by
    refine List.filter_eq_self.mpr fun kv hkv => ?_
    have hlt := hin kv hkv
    simp only [inBounds, Bool.and_eq_true, decide_eq_true_eq]
    exact ⟨hlt.1, hlt.2⟩
  rw [transpose_eq m hc hp, hkept]
  rfl

/-- The transpose loops over the columns: a cancelled token stops it when there is one. -/
theorem transpose_cancelled {m : SparseMatrix α} (hc : m.range.cancelled = true)
    (hcols : 0 < m.colCount) : m.transpose = .error (.error .cancelled) := by
  unfold transpose
  rw [Range.guard_cancelled hc hcols]
  rfl

/-- Of a matrix whose cells lie inside its bounds, in key order, the transpose has the
swapped size and stores exactly the swapped cells, written zeros included, in key order,
inside its bounds; it keeps the loops of the matrix. -/
theorem transpose_cells {m : SparseMatrix α} (hord : KeyOrdered m.entries)
    (hin : m.store.Bounded 0) (hc : m.range.cancelled = false)
    (hp : m.range.PartialsFit m.colCount) :
    ∃ t, m.transpose = .ok t ∧ t.dims = (m.colCount, m.rowCount) ∧
      t.entries = sortCells (m.entries.map swapCell) ∧
      (∀ k v, (k, v) ∈ t.entries ↔ (⟨k.col, k.row⟩, v) ∈ m.entries) ∧
      KeyOrdered t.entries ∧ t.store.Bounded 0 ∧ t.range = m.range := by
  obtain ⟨t, ht, hcells⟩ : ∃ t, m.transpose = .ok t ∧ t.entries = sortCells (m.entries.map swapCell) :=
    ⟨_, transpose_of_bounded hin hc hp, rfl⟩
  obtain ⟨hrows, hcols⟩ := dims_transpose ht
  have hmem : ∀ k v, (k, v) ∈ t.entries ↔ (⟨k.col, k.row⟩, v) ∈ m.entries := by
    intro k v
    rw [hcells, sortCells, List.mem_mergeSort, mem_map_swapCell]
  refine ⟨t, ht, Prod.ext hrows hcols, hcells, hmem, transpose_ordered hord ht, ?_,
    range_transpose ht⟩
  intro kv hkv
  have hlt := hin _ ((hmem kv.1 kv.2).mp hkv)
  show kv.1.row < t.rowCount + 0 ∧ kv.1.col < t.colCount + 0
  rw [hrows, hcols]
  exact ⟨hlt.2, hlt.1⟩

/-- Transposing twice gives back the size and the very list of cells, when the loops over
the columns and over the rows lay out their chunks' answers. -/
theorem transpose_transpose {m : SparseMatrix α} (hord : KeyOrdered m.entries)
    (hin : m.store.Bounded 0) (hc : m.range.cancelled = false)
    (hp : m.range.PartialsFit m.colCount) (hp' : m.range.PartialsFit m.rowCount) :
    ∃ t t', m.transpose = .ok t ∧ t.transpose = .ok t' ∧ t'.dims = m.dims ∧
      t'.entries = m.entries := by
  obtain ⟨t, ht, htdims, htcells, -, htord, htin, htrange⟩ := transpose_cells hord hin hc hp
  obtain ⟨hrows, hcols⟩ := Prod.mk.inj htdims
  obtain ⟨t', ht', ht'dims, ht'cells, -⟩ :=
    transpose_cells htord htin (htrange ▸ hc) (by rw [htrange, hcols]; exact hp')
  refine ⟨t, t', ht, ht', ?_, ?_⟩
  · rw [ht'dims, hrows, hcols]
    rfl
  · -- swapped back, the sorted swapped cells are a reordering of the cells
    rw [ht'cells, htcells]
    refine sortCells_eq_of_perm ?_ hord
    have hp := (sortCells_perm (m.entries.map swapCell)).map swapCell
    rwa [map_swapCell_swapCell] at hp

/-- **Transposes swap the cells.** Let the cells of a matrix lie inside its bounds, in key
order. When its token is cancelled and it has a column, the transpose fails, and when the
answers of the chunks of its loop over the columns do not fit their buffer, it faults.
Otherwise the transpose has the swapped size and stores exactly the swapped cells, written
zeros included, each key once in key order; when the answers of a loop over the rows fit as
well, transposing it back gives the size and the very cells of the matrix. -/
theorem transpose_swaps_cells {m : SparseMatrix α} (hord : KeyOrdered m.entries)
    (hin : m.store.Bounded 0) :
    (m.range.cancelled = true → 0 < m.colCount → m.transpose = .error (.error .cancelled)) ∧
    (m.range.cancelled = false → ¬m.range.PartialsFit m.colCount →
      m.transpose = .error (.fault .capacityOverflow)) ∧
    (m.range.cancelled = false → m.range.PartialsFit m.colCount →
      ∃ t, m.transpose = .ok t ∧ t.dims = (m.colCount, m.rowCount) ∧
        (∀ k v, (k, v) ∈ t.entries ↔ (⟨k.col, k.row⟩, v) ∈ m.entries) ∧ KeyOrdered t.entries ∧
        (m.range.PartialsFit m.rowCount →
          ∃ t', t.transpose = .ok t' ∧ t'.dims = m.dims ∧ t'.entries = m.entries)) := by
  refine ⟨transpose_cancelled, transpose_partials_overflow, fun hc hp => ?_⟩
  obtain ⟨t, ht, hdims, -, hmem, htord, -⟩ := transpose_cells hord hin hc hp
  refine ⟨t, ht, hdims, hmem, htord, fun hp' => ?_⟩
  obtain ⟨t₁, t', ht₁, ht', hdims', hcells'⟩ := transpose_transpose hord hin hc hp hp'
  rw [ht] at ht₁
  cases ht₁
  exact ⟨t', ht', hdims', hcells'⟩

open Host in
/-- A `2 × 3` matrix with a written zero: its transpose is `3 × 2` and keeps the zero, and
transposing back gives its cells. -/
theorem transpose_swaps_cells_stored_zero :
    KeyOrdered (((zeros 2 3 : SparseMatrix Int).set 0 2 0).set 1 0 5).entries ∧
    (((zeros 2 3 : SparseMatrix Int).set 0 2 0).set 1 0 5).store.Bounded 0 ∧
    ∃ t, (((zeros 2 3 : SparseMatrix Int).set 0 2 0).set 1 0 5).transpose = .ok t ∧
      t.dims = (3, 2) ∧ ((⟨2, 0⟩ : Key), (0 : Int)) ∈ t.entries ∧
      ∃ t', t.transpose = .ok t' ∧ t'.dims = (2, 3) ∧ t'.entries = [(⟨0, 2⟩, 0), (⟨1, 0⟩, 5)] := by
  have hord : KeyOrdered (((zeros 2 3 : SparseMatrix Int).set 0 2 0).set 1 0 5).entries := by
    unfold KeyOrdered
    decide
  have hin : (((zeros 2 3 : SparseMatrix Int).set 0 2 0).set 1 0 5).store.Bounded 0 := by
    unfold Store.Bounded
    decide
  obtain ⟨t, ht, hdims, hmem, -, hback⟩ := (transpose_swaps_cells hord hin).2.2 rfl (by decide)
  obtain ⟨t', ht', hdims', hcells'⟩ := hback (by decide)
  exact ⟨hord, hin, t, ht, hdims, (hmem _ _).mpr (by decide), t', ht', hdims', hcells'⟩

open Host in
/-- With its token cancelled, a matrix with a column is not transposed, though its cells lie
inside its bounds. -/
theorem transpose_cancelled_fails :
    KeyOrdered (((zeros 2 2 : SparseMatrix Int).set 0 1 2).attachToken.cancel).entries ∧
    (((zeros 2 2 : SparseMatrix Int).set 0 1 2).attachToken.cancel).store.Bounded 0 ∧
    (((zeros 2 2 : SparseMatrix Int).set 0 1 2).attachToken.cancel).transpose =
      .error (.error .cancelled) := by
  refine ⟨?_, ?_, transpose_cancelled rfl (by decide)⟩
  · unfold KeyOrdered
    decide
  · unfold Store.Bounded
    decide

end SparseMatrix
