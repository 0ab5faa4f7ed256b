import SparseMatrix.Proofs.Diagonals

/-!
# Minors remove a row and a column

`minor m i j` reports a row index out of range first, then a column index out of range, and
then runs a loop over the rows of the minor, which a cancelled token stops when the minor has
a row, and which faults when the answers of its chunks do not fit their buffer. Otherwise the minor of a matrix whose cells lie inside its bounds is
`(rows - 1) × (cols - 1)` and stores exactly the cells of the matrix outside row `i` and
column `j`, moved up past the removed row and left past the removed column, written zeros
included (`minor_removes_row_and_column`).

The library moves each kept cell from the operand to the minor (`closeIndex`), while a loop
over the minor would read each of its cells back from the operand (`skipIndex`). The two index
maps are inverse away from the removed index, so both describe the same cells
(`mem_minor_iff_skipIndex`).
-/

namespace SparseMatrix

variable {α : Type}

/-! ## Moving indices past a removed one -/

theorem skipIndex_ne (i r : Nat) : skipIndex i r ≠ i := by
  unfold skipIndex
  split <;> omega

theorem closeIndex_skipIndex (i r : Nat) : closeIndex i (skipIndex i r) = r := by
  unfold closeIndex skipIndex
  split <;> split <;> omega

theorem skipIndex_closeIndex {i r : Nat} (h : r ≠ i) : skipIndex i (closeIndex i r) = r := by
  unfold closeIndex skipIndex
  split <;> split <;> omega

/-- A cell of a matrix whose cells lie inside its bounds is inside them. -/
theorem lt_of_mem_entries {m : SparseMatrix α} (hin : m.store.Bounded 0) {r c : Nat} {v : α}
    (h : (⟨r, c⟩, v) ∈ m.entries) : r < m.rowCount ∧ c < m.colCount :=
  hin _ h

/-! ## What `minor` answers -/

theorem minor_of_rowCount_le {m : SparseMatrix α} {i : Nat} (j : Nat) (hi : m.rowCount ≤ i) :
    m.minor i j = .error (.error (.indexOutOfRange .row i m.rowCount)) := by
  unfold minor
  rw [if_pos hi]
  rfl

theorem minor_of_colCount_le {m : SparseMatrix α} {i j : Nat} (hi : i < m.rowCount)
    (hj : m.colCount ≤ j) :
    m.minor i j = .error (.error (.indexOutOfRange .column j m.colCount)) := by
  unfold minor
  rw [if_neg (by omega), if_pos hj]
  rfl

/-- The loop over the rows of the minor stops at once when the token is cancelled and the
minor has a row. -/
theorem minor_cancelled {m : SparseMatrix α} {i j : Nat} (hi : i < m.rowCount)
    (hj : j < m.colCount) (hc : m.range.cancelled = true) (hrows : 1 < m.rowCount) :
    m.minor i j = .error (.error .cancelled) := by
  unfold minor
  rw [if_neg (by omega), if_neg (by omega), Range.guard_cancelled hc (by omega)]
  rfl

/-- The loop over the rows of the minor faults when the answers of its chunks do not fit
their buffer. -/
theorem minor_partials_overflow {m : SparseMatrix α} {i j : Nat} (hi : i < m.rowCount)
    (hj : j < m.colCount) (hc : m.range.cancelled = false)
    (hp : ¬m.range.PartialsFit (m.rowCount - 1)) :
    m.minor i j = .error (.fault .capacityOverflow) := by
  unfold minor
  rw [if_neg (by omega), if_neg (by omega), Range.guard_partials_overflow hc hp]
  rfl

/-- A minor whose loop runs is the derived `(rows - 1) × (cols - 1)` matrix with the kept
cells: those inside the bounds and off row `i` and column `j`, moved up and left. -/
theorem minor_running {m : SparseMatrix α} {i j : Nat} (hi : i < m.rowCount)
    (hj : j < m.colCount) (hrun : m.range.cancelled = false ∨ m.rowCount = 1)
    (hp : m.range.PartialsFit (m.rowCount - 1)) :
    ∃ cells, m.minor i j = .ok ((m.derived (m.rowCount - 1) (m.colCount - 1)).withCells cells) ∧
      ∀ k v, (k, v) ∈ cells ↔ ∃ r c, (⟨r, c⟩, v) ∈ m.entries ∧ r ≠ i ∧ c ≠ j ∧
        r < m.rowCount ∧ c < m.colCount ∧ k = ⟨closeIndex i r, closeIndex j c⟩ := by
  unfold minor
  rw [if_neg (by omega), if_neg (by omega),
    Range.guard_of_running (hrun.imp_right fun h => by omega) hp]
  refine ⟨_, rfl, fun k v => ?_⟩
  rw [List.mem_filterMap]
  constructor
  · rintro ⟨⟨⟨r, c⟩, w⟩, hmem, hkeep⟩
    dsimp only at hkeep
    split at hkeep
    · cases hkeep
    · rename_i hout
      cases hkeep
      exact ⟨r, c, hmem, by omega, by omega, by omega, by omega, rfl⟩
  · rintro ⟨r, c, hmem, hr, hc, hrr, hcc, rfl⟩
    refine ⟨(⟨r, c⟩, v), hmem, ?_⟩
    dsimp only
    rw [if_neg (by omega)]

/-- A minor that is computed had its indices in range and its loop running. -/
theorem minor_ok_inv {m m' : SparseMatrix α} {i j : Nat} (h : m.minor i j = .ok m') :
    i < m.rowCount ∧ j < m.colCount ∧ (m.range.cancelled = false ∨ m.rowCount = 1) ∧
      m.range.PartialsFit (m.rowCount - 1) := by
  by_cases hi : i < m.rowCount
  case neg =>
    rw [minor_of_rowCount_le j (by omega)] at h
    cases h
  by_cases hj : j < m.colCount
  case neg =>
    rw [minor_of_colCount_le hi (by omega)] at h
    cases h
  have hrun : m.range.cancelled = false ∨ m.rowCount = 1 := by
    cases hc : m.range.cancelled
    case false => exact .inl rfl
    case true =>
      by_cases hrows : 1 < m.rowCount
      · rw [minor_cancelled hi hj hc hrows] at h
        cases h
      · exact .inr (by omega)
  refine ⟨hi, hj, hrun, Classical.byContradiction fun hp => ?_⟩
  -- a loop that does not fit runs over some row, so its token is not cancelled
  have hpos := Range.pos_of_not_partialsFit hp
  rw [minor_partials_overflow hi hj (hrun.resolve_right (by omega)) hp] at h
  cases h

/-! ## The cells of a minor -/

/-- Of a matrix whose cells lie inside its bounds, a minor whose loop runs is
`(rows - 1) × (cols - 1)` and stores the cells off row `i` and column `j`, moved up past the
removed row and left past the removed column; it keeps the key order. -/
theorem minor_cells {m : SparseMatrix α} {i j : Nat} (hin : m.store.Bounded 0)
    (hi : i < m.rowCount) (hj : j < m.colCount)
    (hrun : m.range.cancelled = false ∨ m.rowCount = 1)
    (hp : m.range.PartialsFit (m.rowCount - 1)) :
    ∃ m', m.minor i j = .ok m' ∧ m'.dims = (m.rowCount - 1, m.colCount - 1) ∧
      (∀ k v, (k, v) ∈ m'.entries ↔
        ∃ r c, (⟨r, c⟩, v) ∈ m.entries ∧ r ≠ i ∧ c ≠ j ∧ k = ⟨closeIndex i r, closeIndex j c⟩) ∧
      (KeyOrdered m.entries → KeyOrdered m'.entries) := by
  obtain ⟨cells, hm', hcells⟩ := minor_running hi hj hrun hp
  have hmem : ∀ k v, (k, v) ∈ cells ↔
      ∃ r c, (⟨r, c⟩, v) ∈ m.entries ∧ r ≠ i ∧ c ≠ j ∧ k = ⟨closeIndex i r, closeIndex j c⟩ := by
    intro k v
    rw [hcells]
    constructor
    · rintro ⟨r, c, hrc, hr, hc, -, -, rfl⟩
      exact ⟨r, c, hrc, hr, hc, rfl⟩
    · rintro ⟨r, c, hrc, hr, hc, rfl⟩
      obtain ⟨hrr, hcc⟩ := lt_of_mem_entries hin hrc
      exact ⟨r, c, hrc, hr, hc, hrr, hcc, rfl⟩
  have hdims : ((m.derived (m.rowCount - 1) (m.colCount - 1) : SparseMatrix α).withCells
      cells).dims = (m.rowCount - 1, m.colCount - 1) := by
    refine dims_withCells_derived m fun kv hkv => ?_
    obtain ⟨r, c, hrc, hr, hc, hkey⟩ := (hmem kv.1 kv.2).mp hkv
    obtain ⟨hrr, hcc⟩ := lt_of_mem_entries hin hrc
    rw [hkey]
    exact ⟨closeIndex_lt hi hrr hr, closeIndex_lt hj hcc hc⟩
  exact ⟨_, hm', hdims, hmem, fun hord => minor_ordered hord hm'⟩

/-- A minor's cell `(r, c)` is the operand's cell `(skipIndex i r, skipIndex j c)`: the minor
reads as a loop over its own cells that looks each one up in the operand. -/
theorem mem_minor_iff_skipIndex {m m' : SparseMatrix α} {i j : Nat} (hin : m.store.Bounded 0)
    (h : m.minor i j = .ok m') (r c : Nat) (v : α) :
    (⟨r, c⟩, v) ∈ m'.entries ↔
      r < m.rowCount - 1 ∧ c < m.colCount - 1 ∧ (⟨skipIndex i r, skipIndex j c⟩, v) ∈ m.entries := by
  obtain ⟨hi, hj, hrun, hp⟩ := minor_ok_inv h
  obtain ⟨m'', hm'', -, hmem, -⟩ := minor_cells hin hi hj hrun hp
  rw [h] at hm''
  cases hm''
  rw [hmem]
  constructor
  · rintro ⟨r₀, c₀, hrc, hr, hc, hkey⟩
    obtain ⟨rfl, rfl⟩ : r = closeIndex i r₀ ∧ c = closeIndex j c₀ := by
      cases hkey
      exact ⟨rfl, rfl⟩
    obtain ⟨hrr, hcc⟩ := lt_of_mem_entries hin hrc
    rw [skipIndex_closeIndex hr, skipIndex_closeIndex hc]
    exact ⟨closeIndex_lt hi hrr hr, closeIndex_lt hj hcc hc, hrc⟩
  · rintro ⟨-, -, hrc⟩
    exact ⟨_, _, hrc, skipIndex_ne i r, skipIndex_ne j c,
      by rw [closeIndex_skipIndex, closeIndex_skipIndex]⟩

/-- **Minors remove a row and a column.** Let the cells of a matrix lie inside its bounds.
A row index out of range is reported first, then a column index out of range. With both in
range, when the token is cancelled and the minor has a row, the minor fails, and when the
answers of the chunks of its loop over the rows do not fit their buffer, it faults.
Otherwise the minor is `(rows - 1) × (cols - 1)` and stores exactly the cells `(r, c) ↦ v`
of the matrix with `r ≠ i` and `c ≠ j`, written zeros included, moved to
`(r - [r > i], c - [c > j])`; the cells stay in key order. -/
theorem minor_removes_row_and_column {m : SparseMatrix α} (hin : m.store.Bounded 0)
    (i j : Nat) :
    (m.rowCount ≤ i → m.minor i j = .error (.error (.indexOutOfRange .row i m.rowCount))) ∧
    (i < m.rowCount → m.colCount ≤ j →
      m.minor i j = .error (.error (.indexOutOfRange .column j m.colCount))) ∧
    (i < m.rowCount → j < m.colCount → m.range.cancelled = true → 1 < m.rowCount →
      m.minor i j = .error (.error .cancelled)) ∧
    (i < m.rowCount → j < m.colCount → m.range.cancelled = false →
      ¬m.range.PartialsFit (m.rowCount - 1) → m.minor i j = .error (.fault .capacityOverflow)) ∧
    (i < m.rowCount → j < m.colCount → (m.range.cancelled = false ∨ m.rowCount = 1) →
      m.range.PartialsFit (m.rowCount - 1) →
      ∃ m', m.minor i j = .ok m' ∧ m'.dims = (m.rowCount - 1, m.colCount - 1) ∧
        (∀ k v, (k, v) ∈ m'.entries ↔ ∃ r c, (⟨r, c⟩, v) ∈ m.entries ∧ r ≠ i ∧ c ≠ j ∧
          k = ⟨closeIndex i r, closeIndex j c⟩) ∧
        (KeyOrdered m.entries → KeyOrdered m'.entries)) :=
  ⟨minor_of_rowCount_le j, minor_of_colCount_le, minor_cancelled, minor_partials_overflow,
    fun hi hj hrun hp => minor_cells hin hi hj hrun hp⟩

open Host in
/-- The minor of a `3 × 3` matrix without its middle row and column keeps the written zero
of the last cell, moved to `(1, 1)`, and the cell `(0, 0)`. -/
theorem minor_removes_row_and_column_stored_zero :
    (((zeros 3 3 : SparseMatrix Int).set 0 0 1).set 2 2 0).store.Bounded 0 ∧
    ∃ m', (((zeros 3 3 : SparseMatrix Int).set 0 0 1).set 2 2 0).minor 1 1 = .ok m' ∧
      m'.dims = (2, 2) ∧ ((⟨1, 1⟩ : Key), (0 : Int)) ∈ m'.entries ∧
      ((⟨0, 0⟩ : Key), (1 : Int)) ∈ m'.entries := by
  have hin : (((zeros 3 3 : SparseMatrix Int).set 0 0 1).set 2 2 0).store.Bounded 0 := by
    unfold Store.Bounded
    decide
  obtain ⟨-, -, -, -, hrun⟩ := minor_removes_row_and_column hin 1 1
  obtain ⟨m', hm', hdims, hmem, -⟩ := hrun (by decide) (by decide) (.inl rfl) (by decide)
  refine ⟨hin, m', hm', hdims, (hmem _ _).mpr ⟨2, 2, ?_, by omega, by omega, rfl⟩,
    (hmem _ _).mpr ⟨0, 0, ?_, by omega, by omega, rfl⟩⟩
  · decide
  · decide

open Host in
/-- With its token cancelled, a `2 × 2` matrix whose cells lie inside its bounds has no minor:
the loop over the row of the minor stops. -/
theorem minor_cancelled_fails :
    (((zeros 2 2 : SparseMatrix Int).set 0 1 2).attachToken.cancel).store.Bounded 0 ∧
    (((zeros 2 2 : SparseMatrix Int).set 0 1 2).attachToken.cancel).minor 0 0 =
      .error (.error .cancelled) := by
  refine ⟨?_, minor_cancelled (by decide) (by decide) rfl (by decide)⟩
  unfold Store.Bounded
  decide

end SparseMatrix
