import SparseMatrix.Proofs.DiagonalInverse
import SparseMatrix.Proofs.Elementwise

/-!
# Diagonals

`diagVector` reads the diagonal of a square `n × n` matrix into an `n × min n 1` column, and
`diag` writes column zero of a matrix with at most one column onto the diagonal of an
`n × n` matrix. Both copy written cells as they are, zeros included, after a loop that only
a cancelled token can stop, or a fault when the answers of its chunks do not fit their
buffer.

* `diag_eq`, `diagVector_eq`: the cells each writes, through `diagonalCell` and
  `columnCell`; the shape errors are reported exactly for the wrong shapes
  (`diag_invalidShape_iff`, `diagVector_notSquare_iff`).
* `diagVector_bind_diag`: the diagonal of a square matrix written back onto a square matrix
  is its `diagonalPart`, the cells on the diagonal inside its size, as they are; it reads
  the matrix's values on the diagonal and zero elsewhere (`get_diagonalPart`).
* `diagonal_round_trips`: a diagonal matrix comes back from its diagonal, equal under `beq`
  when its diagonal values equal themselves; a column vector comes back from its diagonal
  matrix with its size and its very cells.
* `isDiagonal_eq_isZero_subtract`: the scan of `isDiagonal` agrees with subtracting the
  diagonal part and testing the difference for zero, when each diagonal value minus itself
  is zero (not so for a NaN or an infinite float) and subtracting zero keeps the zero test.
-/

namespace SparseMatrix

variable {α : Type}

/-! ## The cells each operation writes -/

/-- The cell that a cell `kx` of a column gives on the diagonal of an `n × n` matrix: a
cell of column zero above row `n` moves onto the diagonal. -/
def diagonalCell (n : Nat) (kx : Key × α) : Option (Key × α) :=
  if kx.1.col = 0 ∧ kx.1.row < n then some (⟨kx.1.row, kx.1.row⟩, kx.2) else none

/-- The cell that a cell `kx` of an `n × n` matrix gives in its diagonal column: a cell on
the diagonal above row `n` moves to column zero. -/
def columnCell (n : Nat) (kx : Key × α) : Option (Key × α) :=
  if kx.1.row = kx.1.col ∧ kx.1.row < n then some (⟨kx.1.row, 0⟩, kx.2) else none

theorem diagonalCell_lt {n : Nat} {kx ky : Key × α} (h : diagonalCell n kx = some ky) :
    ky.1.row < n ∧ ky.1.col < n := by
  unfold diagonalCell at h
  split at h
  · rename_i hk
    cases h
    exact ⟨hk.2, hk.2⟩
  · cases h

theorem columnCell_lt {n : Nat} {kx ky : Key × α} (h : columnCell n kx = some ky) :
    ky.1.row < n ∧ ky.1.col < min n 1 := by
  unfold columnCell at h
  split at h
  · rename_i hk
    cases h
    exact ⟨hk.2, by dsimp only; omega⟩
  · cases h

section Shapes

variable {v a : SparseMatrix α}

/-- A matrix with more than one column is no column vector. -/
theorem diag_notColumnVector (h : 1 < v.colCount) :
    v.diag = .error (.error (.notColumnVector v.rowCount v.colCount)) := by
  unfold diag
  rw [if_pos h]
  rfl

/-- `diag` on a matrix with at most one column: a loop over its rows that writes nothing,
then column zero above the row count on the diagonal. -/
theorem diag_of_column (hcols : v.colCount ≤ 1) :
    v.diag = v.range.guard 0 v.rowCount >>= fun _ =>
      pure ((v.derived v.rowCount v.rowCount).withCells
        (v.entries.filterMap (diagonalCell v.rowCount))) := by
  unfold diag
  rw [if_neg (by omega)]
  rfl

/-- The diagonal matrix of a column, when its loop runs. -/
theorem diag_eq (hcols : v.colCount ≤ 1) (hc : v.range.cancelled = false ∨ v.rowCount = 0)
    (hp : v.range.PartialsFit v.rowCount) :
    v.diag = pure ((v.derived v.rowCount v.rowCount).withCells
      (v.entries.filterMap (diagonalCell v.rowCount))) := by
  rw [diag_of_column hcols, Range.guard_of_running hc hp, pure_bind]

/-- A cancelled token stops `diag` on a column with rows. -/
theorem diag_cancelled (hcols : v.colCount ≤ 1) (hc : v.range.cancelled = true)
    (hm : 0 < v.rowCount) : v.diag = .error (.error .cancelled) := by
  rw [diag_of_column hcols, Range.guard_cancelled hc hm]
  rfl

/-- A column whose loop cannot lay out its chunks' answers faults. -/
theorem diag_partials_overflow (hcols : v.colCount ≤ 1) (hc : v.range.cancelled = false)
    (hp : ¬v.range.PartialsFit v.rowCount) : v.diag = .error (.fault .capacityOverflow) := by
  rw [diag_of_column hcols, Range.guard_partials_overflow hc hp]
  rfl

/-- A column is refused only by a cancelled token, or by the fault of its loop. -/
theorem diag_failsWith (hcols : v.colCount ≤ 1) :
    FailsWith (fun e => e = .error .cancelled ∨ e = .fault .capacityOverflow) v.diag := by
  rw [diag_of_column hcols]
  exact FailsWith.bind (Range.guard_failsWith _ _ _) fun _ _ => failsWith_ok _

/-- `diag` reports a bad shape exactly for a matrix with more than one column. -/
theorem diag_invalidShape_iff :
    (∃ e, v.diag = .error (.error e) ∧ e.kind = "InvalidShape") ↔ 1 < v.colCount := by
  constructor
  · rintro ⟨e, he, hkind⟩
    by_contra hcols
    rcases diag_failsWith (Nat.le_of_not_lt hcols) _ he with h | h <;> cases h
    simp [Error.kind] at hkind
  · intro h
    exact ⟨_, diag_notColumnVector h, rfl⟩

/-- A matrix that is not square has no diagonal column. -/
theorem diagVector_notSquare (h : a.isSquare = false) :
    a.diagVector = .error (.error (.notSquare a.rowCount a.colCount)) := by
  unfold diagVector ensureSquare
  rw [if_neg (by simp [h])]
  rfl

theorem rowCount_eq_colCount_of_isSquare (hsq : a.isSquare = true) : a.rowCount = a.colCount := by
  simpa [isSquare] using hsq

/-- `diagVector` on a square matrix: a loop over its rows that writes nothing, then the
diagonal above the row count in column zero. -/
theorem diagVector_of_isSquare (hsq : a.isSquare = true) :
    a.diagVector = a.range.guard 0 a.rowCount >>= fun _ =>
      pure ((a.derived a.rowCount (min a.rowCount 1)).withCells
        (a.entries.filterMap (columnCell a.rowCount))) := by
  unfold diagVector
  rw [ensureSquare_eq rfl (rowCount_eq_colCount_of_isSquare hsq).symm, liftError_pure, pure_bind]
  rfl

/-- The diagonal column of a square matrix, when its loop runs. -/
theorem diagVector_eq (hsq : a.isSquare = true) (hc : a.range.cancelled = false ∨ a.rowCount = 0)
    (hp : a.range.PartialsFit a.rowCount) :
    a.diagVector = pure ((a.derived a.rowCount (min a.rowCount 1)).withCells
      (a.entries.filterMap (columnCell a.rowCount))) := by
  rw [diagVector_of_isSquare hsq, Range.guard_of_running hc hp, pure_bind]

/-- A cancelled token stops `diagVector` on a square matrix with rows. -/
theorem diagVector_cancelled (hsq : a.isSquare = true) (hc : a.range.cancelled = true)
    (hm : 0 < a.rowCount) : a.diagVector = .error (.error .cancelled) := by
  rw [diagVector_of_isSquare hsq, Range.guard_cancelled hc hm]
  rfl

/-- A square matrix whose loop cannot lay out its chunks' answers faults. -/
theorem diagVector_partials_overflow (hsq : a.isSquare = true) (hc : a.range.cancelled = false)
    (hp : ¬a.range.PartialsFit a.rowCount) :
    a.diagVector = .error (.fault .capacityOverflow) := by
  rw [diagVector_of_isSquare hsq, Range.guard_partials_overflow hc hp]
  rfl

/-- A square matrix is refused only by a cancelled token, or by the fault of its loop. -/
theorem diagVector_failsWith (hsq : a.isSquare = true) :
    FailsWith (fun e => e = .error .cancelled ∨ e = .fault .capacityOverflow) a.diagVector := by
  rw [diagVector_of_isSquare hsq]
  exact FailsWith.bind (Range.guard_failsWith _ _ _) fun _ _ => failsWith_ok _

/-- `diagVector` reports a matrix that is not square exactly when it is not. -/
theorem diagVector_notSquare_iff :
    (∃ e, a.diagVector = .error (.error e) ∧ e.kind = "NotSquare") ↔ a.isSquare = false := by
  constructor
  · rintro ⟨e, he, hkind⟩
    cases hsq : a.isSquare with
    | false => rfl
    | true =>
      rcases diagVector_failsWith hsq _ he with h | h <;> cases h
      simp [Error.kind] at hkind
  · intro h
    exact ⟨_, diagVector_notSquare h, rfl⟩

end Shapes

/-! ## The diagonal part of a square matrix -/

/-- The cells of `a` on the diagonal inside its rows, as they are, on a square matrix of its
row count. -/
def diagonalPart (a : SparseMatrix α) : SparseMatrix α :=
  (a.derived a.rowCount a.rowCount).withCells
    (a.entries.filter fun kx => kx.1.row = kx.1.col ∧ kx.1.row < a.rowCount)

/-- Moving the diagonal into column zero and back onto the diagonal keeps exactly the
diagonal cells inside the rows. -/
theorem filterMap_columnCell_diagonalCell (n : Nat) (cells : List (Key × α)) :
    (cells.filterMap (columnCell n)).filterMap (diagonalCell n) =
      cells.filter fun kx => kx.1.row = kx.1.col ∧ kx.1.row < n := by
  rw [List.filterMap_filterMap, ← List.filterMap_eq_filter]
  refine List.filterMap_congr fun kx _ => ?_
  obtain ⟨⟨r, c⟩, x⟩ := kx
  by_cases h : r = c ∧ r < n
  · obtain ⟨rfl, hr⟩ := h
    simp [columnCell, diagonalCell, hr]
  · simp only [columnCell, h, if_false, Option.bind_none, Option.guard, decide_eq_true_eq]

/-- Moving the cells of a column onto the diagonal and back into column zero gives the
column back, when its cells lie in column zero inside the rows. -/
theorem filterMap_diagonalCell_columnCell {n : Nat} {cells : List (Key × α)}
    (h : ∀ kx ∈ cells, kx.1.col = 0 ∧ kx.1.row < n) :
    (cells.filterMap (diagonalCell n)).filterMap (columnCell n) = cells := by
  rw [List.filterMap_filterMap]
  conv => rhs; rw [← List.filterMap_some (l := cells)]
  refine List.filterMap_congr fun kx hkx => ?_
  obtain ⟨hc, hr⟩ := h kx hkx
  obtain ⟨⟨r, c⟩, x⟩ := kx
  dsimp only at hc hr
  subst hc
  simp [columnCell, diagonalCell, hr]

theorem mem_diagonalPart {a : SparseMatrix α} {kx : Key × α} :
    kx ∈ a.diagonalPart.entries ↔
      kx ∈ a.entries ∧ kx.1.row = kx.1.col ∧ kx.1.row < a.rowCount := by
  simp [diagonalPart]

theorem dims_diagonalPart (a : SparseMatrix α) : a.diagonalPart.dims = (a.rowCount, a.rowCount) :=
  dims_derived_withCells a fun kx hkx => by
    simp only [List.mem_filter, decide_eq_true_eq] at hkx
    exact ⟨hkx.2.2, hkx.2.1 ▸ hkx.2.2⟩

@[simp] theorem range_diagonalPart (a : SparseMatrix α) : a.diagonalPart.range = a.range := by
  simp [diagonalPart]

/-- The diagonal column of a square matrix written back onto the diagonal is its diagonal
part, when the loops run. -/
theorem diagVector_bind_diag {a : SparseMatrix α} (hsq : a.isSquare = true)
    (hc : a.range.cancelled = false ∨ a.rowCount = 0) (hp : a.range.PartialsFit a.rowCount) :
    ∃ V, a.diagVector = .ok V ∧ V.diag = .ok a.diagonalPart := by
  refine ⟨_, diagVector_eq hsq hc hp, ?_⟩
  have hlt : ∀ kx ∈ a.entries.filterMap (columnCell a.rowCount),
      kx.1.row < a.rowCount ∧ kx.1.col < min a.rowCount 1 := by
    intro kx hkx
    obtain ⟨ky, -, hky⟩ := List.mem_filterMap.mp hkx
    exact columnCell_lt hky
  have hrows := rowCount_withCells (m := a.derived a.rowCount (min a.rowCount 1))
    fun kx hkx => (hlt kx hkx).1
  have hcols := colCount_withCells (m := a.derived a.rowCount (min a.rowCount 1))
    fun kx hkx => (hlt kx hkx).2
  simp only [rowCount_derived, colCount_derived] at hrows hcols
  rw [diag_eq (by omega) (by rw [hrows]; simpa using hc) (by rw [hrows]; simpa using hp), hrows,
    entries_withCells,
    filterMap_columnCell_diagonalCell]
  rfl

/-- Among cells kept by a condition on their key, the cell found at a key is the one found
among all cells when the key meets the condition, and none otherwise. -/
theorem find?_filter_key (cells : List (Key × α)) (P : Key → Prop) [DecidablePred P] (k : Key) :
    (cells.filter fun kx => decide (P kx.1)).find? (·.1 == k) =
      if P k then cells.find? (·.1 == k) else none := by
  rw [List.find?_filter]
  split
  · rename_i hk
    congr 1
    funext kx
    by_cases hkx : kx.1 = k
    · simp [hkx, hk]
    · simp [hkx]
  · rename_i hk
    refine List.find?_eq_none.mpr fun kx _ hkx => ?_
    simp only [decide_eq_true_eq, beq_iff_eq] at hkx
    exact hk (hkx.2 ▸ hkx.1)

section Values

variable [Arith α]

/-- The diagonal part reads the matrix's value on the diagonal inside the rows, and zero
elsewhere. -/
theorem get_diagonalPart (a : SparseMatrix α) (r c : Nat) :
    a.diagonalPart.get r c = if r = c ∧ r < a.rowCount then a.get r c else Arith.zero := by
  show (((a.entries.filter fun kx => decide (kx.1.row = kx.1.col ∧ kx.1.row < a.rowCount)).find?
    (·.1 == ⟨r, c⟩)).map (·.2)).getD Arith.zero = _
  rw [find?_filter_key a.entries (fun k => k.row = k.col ∧ k.row < a.rowCount)]
  split <;> rfl

/-- A matrix is diagonal when it is square and each written cell off the diagonal passes
the zero test. -/
theorem isDiagonal_iff {a : SparseMatrix α} :
    a.isDiagonal = true ↔
      a.isSquare = true ∧ ∀ k x, (k, x) ∈ a.entries → k.row ≠ k.col → Arith.isZero x = true := by
  simp only [isDiagonal, Bool.and_eq_true, List.all_eq_true, Bool.or_eq_true, beq_iff_eq,
    Prod.forall]
  exact and_congr_right fun _ => forall₂_congr fun _ _ =>
    imp_congr_right fun _ => or_iff_not_imp_left

/-- With distinct keys inside the bounds and a zero that passes the zero test, the written
cells off the diagonal pass the zero test exactly when every value read off the diagonal
inside the size does. -/
theorem offDiagonal_isZero_iff {a : SparseMatrix α} (hnd : (a.entries.map Prod.fst).Nodup)
    (hin : a.store.Bounded 0) (hz : Arith.isZero (Arith.zero : α) = true) :
    (∀ k x, (k, x) ∈ a.entries → k.row ≠ k.col → Arith.isZero x = true) ↔
      ∀ r c, r < a.rowCount → c < a.colCount → r ≠ c → Arith.isZero (a.get r c) = true := by
  constructor
  · intro h r c _ _ hrc
    by_cases hw : ∃ x, ((⟨r, c⟩ : Key), x) ∈ a.entries
    · obtain ⟨x, hx⟩ := hw
      rw [get_of_mem hnd hx]
      exact h _ _ hx hrc
    · rw [get_of_not_mem fun x hx => hw ⟨x, hx⟩]
      exact hz
  · intro h k x hkx hrc
    have hlt := hin _ hkx
    simp only [Nat.add_zero] at hlt
    rw [← get_of_mem hnd hkx]
    exact h _ _ hlt.1 hlt.2 hrc

end Values

/-! ## Round trips -/

section RoundTrips

variable [Arith α]

/-- A diagonal matrix comes back from its diagonal column with its size, and equal under
`beq` when its written diagonal values equal themselves, when its cells lie inside its
bounds, each key once. -/
theorem diag_diagVector_of_isDiagonal {a : SparseMatrix α} (hdiag : a.isDiagonal = true)
    (hc : a.range.cancelled = false ∨ a.rowCount = 0) (hp : a.range.PartialsFit a.rowCount)
    (hnd : (a.entries.map Prod.fst).Nodup)
    (hin : a.store.Bounded 0)
    (hrefl : ∀ k x, (k, x) ∈ a.entries → k.row = k.col → Arith.eq x x = true) :
    ∃ V D, a.diagVector = .ok V ∧ V.diag = .ok D ∧ D.dims = a.dims ∧ D.beq a = true := by
  obtain ⟨hsq, hoff⟩ := isDiagonal_iff.mp hdiag
  obtain ⟨V, hV, hD⟩ := diagVector_bind_diag hsq hc hp
  have hdims : a.diagonalPart.dims = a.dims := by
    rw [dims_diagonalPart, dims, rowCount_eq_colCount_of_isSquare hsq]
  refine ⟨V, a.diagonalPart, hV, hD, hdims, ?_⟩
  simp only [beq, Bool.and_eq_true, List.all_eq_true, beq_iff_eq]
  refine ⟨⟨hdims, ?_⟩, ?_⟩
  · -- a cell of the diagonal part is a diagonal cell of `a`, read back as it is
    rintro ⟨k, x⟩ hkx
    obtain ⟨hkx, hrc, -⟩ := mem_diagonalPart.mp hkx
    rw [get_of_mem hnd hkx]
    exact hrefl _ _ hkx hrc
  · -- a cell of `a` is read back from the diagonal part on the diagonal, and is zero off it
    rintro ⟨k, x⟩ hkx
    have hlt : k.row < a.rowCount := (hin _ hkx).1
    rw [get_diagonalPart]
    split
    · rename_i h
      rw [get_of_mem hnd hkx]
      exact hrefl _ _ hkx h.1
    · rename_i h
      exact hoff _ _ hkx fun hrc => h ⟨hrc, hlt⟩

omit [Arith α] in
/-- A column vector with rows comes back from its diagonal matrix with its size and its
very cells, written zeros included, when its cells lie inside its bounds. -/
theorem diagVector_diag_of_column {v : SparseMatrix α} (hcols : v.colCount = 1)
    (hrows : 0 < v.rowCount) (hc : v.range.cancelled = false)
    (hp : v.range.PartialsFit v.rowCount) (hin : v.store.Bounded 0) :
    ∃ D W, v.diag = .ok D ∧ D.diagVector = .ok W ∧ W.dims = v.dims ∧ W.entries = v.entries := by
  have hcol : ∀ kx ∈ v.entries, kx.1.col = 0 ∧ kx.1.row < v.rowCount := by
    intro kx hkx
    have hlt := hin kx hkx
    simp only [Nat.add_zero] at hlt
    have hlt' : kx.1.col < v.colCount := hlt.2
    exact ⟨by omega, hlt.1⟩
  have hD : ((v.derived v.rowCount v.rowCount).withCells
      (v.entries.filterMap (diagonalCell v.rowCount))).dims = (v.rowCount, v.rowCount) :=
    dims_derived_withCells v fun kx hkx => by
      obtain ⟨ky, -, hky⟩ := List.mem_filterMap.mp hkx
      exact diagonalCell_lt hky
  simp only [dims, Prod.mk.injEq] at hD
  refine ⟨_, _, diag_eq (by omega) (.inl hc) hp,
    diagVector_eq (by simp [isSquare, hD.1, hD.2]) (.inl (by simpa using hc))
      (by rw [hD.1]; simpa using hp), ?_, ?_⟩
  · rw [hD.1, entries_withCells, filterMap_diagonalCell_columnCell hcol,
      dims_withCells_derived _ fun kx hkx => ⟨(hcol kx hkx).2, by
        rw [(hcol kx hkx).1]
        exact Nat.lt_min.mpr ⟨hrows, Nat.one_pos⟩⟩,
      dims, hcols, Nat.min_eq_right hrows]
  · rw [hD.1, entries_withCells, entries_withCells, filterMap_diagonalCell_columnCell hcol]

/-- The round trips between a square matrix and its diagonal column, and the shape errors.
A diagonal matrix whose token does not stop the loops, whose loops lay out their chunks'
answers, whose cells lie inside its bounds with each key once, and whose written diagonal
values equal themselves comes back from its diagonal column with its size and equal under
`beq`. A column vector with rows whose token does not stop the loops, whose loops lay out
their chunks' answers and whose cells lie inside its bounds comes back from its diagonal
matrix with its size and its very cells, written zeros included. A cancelled token stops
both operations on a matrix with rows, and loops that cannot lay out their chunks' answers
fault. `diag` reports a bad shape exactly for more than one column, `diagVector` a matrix
that is not square exactly when it is not. -/
theorem diagonal_round_trips (a v : SparseMatrix α) :
    (a.isDiagonal = true → (a.token.any (·.cancelled) = false ∨ a.rowCount = 0) →
      a.range.PartialsFit a.rowCount → (a.entries.map Prod.fst).Nodup → a.store.Bounded 0 →
      (∀ k x, (k, x) ∈ a.entries → k.row = k.col → Arith.eq x x = true) →
      ∃ V D, a.diagVector = .ok V ∧ V.diag = .ok D ∧ D.dims = a.dims ∧ D.beq a = true) ∧
    (v.colCount = 1 → 0 < v.rowCount → v.token.any (·.cancelled) = false →
      v.range.PartialsFit v.rowCount → v.store.Bounded 0 →
      ∃ D W, v.diag = .ok D ∧ D.diagVector = .ok W ∧ W.dims = v.dims ∧ W.entries = v.entries) ∧
    (a.isSquare = true → a.token.any (·.cancelled) = true → 0 < a.rowCount →
      a.diagVector = .error (.error .cancelled)) ∧
    (v.colCount ≤ 1 → v.token.any (·.cancelled) = true → 0 < v.rowCount →
      v.diag = .error (.error .cancelled)) ∧
    (a.isSquare = true → a.token.any (·.cancelled) = false → ¬a.range.PartialsFit a.rowCount →
      a.diagVector = .error (.fault .capacityOverflow)) ∧
    (v.colCount ≤ 1 → v.token.any (·.cancelled) = false → ¬v.range.PartialsFit v.rowCount →
      v.diag = .error (.fault .capacityOverflow)) ∧
    ((∃ e, v.diag = .error (.error e) ∧ e.kind = "InvalidShape") ↔ 1 < v.colCount) ∧
    ((∃ e, a.diagVector = .error (.error e) ∧ e.kind = "NotSquare") ↔ a.isSquare = false) :=
  ⟨fun hdiag hc hp hnd hin hrefl => diag_diagVector_of_isDiagonal hdiag hc hp hnd hin hrefl,
    fun hcols hrows hc hp hin => diagVector_diag_of_column hcols hrows hc hp hin,
    diagVector_cancelled, diag_cancelled, diagVector_partials_overflow, diag_partials_overflow,
    diag_invalidShape_iff, diagVector_notSquare_iff⟩

open Host in
/-- The round trips on the diagonal integer matrix `[[1, 0], [0, 1]]` with a zero written
off the diagonal, and on the column `[3, 0]` with its zero written. -/
theorem diagonal_round_trips_written_zeros :
    ((identity 2 : SparseMatrix Int).set 0 1 0).isDiagonal = true ∧
    (∃ V D, ((identity 2 : SparseMatrix Int).set 0 1 0).diagVector = .ok V ∧ V.diag = .ok D ∧
      D.dims = ((identity 2 : SparseMatrix Int).set 0 1 0).dims ∧
      D.beq ((identity 2 : SparseMatrix Int).set 0 1 0) = true) ∧
    ∃ D W, (((zeros 2 1 : SparseMatrix Int).set 0 0 3).set 1 0 0).diag = .ok D ∧
      D.diagVector = .ok W ∧
      W.dims = (((zeros 2 1 : SparseMatrix Int).set 0 0 3).set 1 0 0).dims ∧
      W.entries = (((zeros 2 1 : SparseMatrix Int).set 0 0 3).set 1 0 0).entries := by
  have h := diagonal_round_trips ((identity 2 : SparseMatrix Int).set 0 1 0)
    (((zeros 2 1 : SparseMatrix Int).set 0 0 3).set 1 0 0)
  have hin : ((identity 2 : SparseMatrix Int).set 0 1 0).store.Bounded 0 := by
    unfold Store.Bounded
    decide
  have hin' : (((zeros 2 1 : SparseMatrix Int).set 0 0 3).set 1 0 0).store.Bounded 0 := by
    unfold Store.Bounded
    decide
  exact ⟨by decide,
    h.1 (by decide) (.inl rfl) (by decide) (by decide) hin fun _ x _ _ => beq_self_eq_true x,
    h.2.1 (by decide) (by decide) rfl (by decide) hin'⟩

open Host in
/-- Three inputs on which the round trips fail. With a cancelled token, the `1 × 1`
identity is diagonal but its diagonal column stops with `cancelled`. A cell written at the
largest index lies on the saturated bounds, outside the rows the loops read: the matrix
with one cell there is diagonal, yet its diagonal written back has no cell and differs
from it; the column with one cell in its last row comes back with no cell. -/
theorem diagonal_round_trips_cancelled_saturated :
    ((identity 1 : SparseMatrix Int).attachToken.cancel.isDiagonal = true ∧
      (identity 1 : SparseMatrix Int).attachToken.cancel.diagVector =
        .error (.error .cancelled)) ∧
    ((new : SparseMatrix Int).set Text.wordMax Text.wordMax 1).isDiagonal = true ∧
    (∃ V D, ((new : SparseMatrix Int).set Text.wordMax Text.wordMax 1).diagVector = .ok V ∧
      V.diag = .ok D ∧ D.beq ((new : SparseMatrix Int).set Text.wordMax Text.wordMax 1) = false) ∧
    ((new : SparseMatrix Int).set Text.wordMax 0 1).colCount = 1 ∧
    ∃ D W, ((new : SparseMatrix Int).set Text.wordMax 0 1).diag = .ok D ∧
      D.diagVector = .ok W ∧ W.entries ≠ ((new : SparseMatrix Int).set Text.wordMax 0 1).entries := by
  refine ⟨⟨by decide, diagVector_cancelled (by decide) rfl (by decide)⟩, by decide, ?_, by decide,
    ?_⟩
  · obtain ⟨V, hV, hD⟩ := diagVector_bind_diag
      (a := (new : SparseMatrix Int).set Text.wordMax Text.wordMax 1) (by decide) (.inl rfl)
      (by decide)
    exact ⟨V, _, hV, hD, by decide⟩
  · exact ⟨_, _, diag_eq (by decide) (.inl rfl) (by decide),
      diagVector_eq (by decide) (.inl rfl) (by decide), by decide⟩

end RoundTrips

/-! ## The diagonal test against the difference from the diagonal part -/

section Difference

variable [Arith α]

/-- Subtracting its diagonal part from a square matrix leaves a matrix that is zero exactly
when the matrix is diagonal, when each diagonal value minus itself and zero pass the zero
test, subtracting zero keeps the zero test of each value off the diagonal, and the cells lie
inside the bounds, each key once. -/
theorem isDiagonal_eq_isZero_subtract_diagonalPart {a : SparseMatrix α}
    (hsq : a.isSquare = true) (hrows : a.rowCount ≤ Text.wordMax)
    (hc : a.range.cancelled = false ∨ a.rowCount = 0) (hp : a.range.PartialsFit a.rowCount)
    (hnd : (a.entries.map Prod.fst).Nodup) (hin : a.store.Bounded 0)
    (hz : Arith.isZero (Arith.zero : α) = true)
    (hself : ∀ r, r < a.rowCount →
      ∃ d, Arith.sub (a.get r r) (a.get r r) = .ok d ∧ Arith.isZero d = true)
    (hoff : ∀ r c, r < a.rowCount → c < a.rowCount → r ≠ c →
      ∃ d, Arith.sub (a.get r c) Arith.zero = .ok d ∧ Arith.isZero d = Arith.isZero (a.get r c)) :
    ∃ S, a.subtract a.diagonalPart = .ok S ∧ a.isDiagonal = S.isZero := by
  have hsq' := rowCount_eq_colCount_of_isSquare hsq
  have hdims : a.dims = a.diagonalPart.dims := by rw [dims_diagonalPart, dims, ← hsq']
  -- each index computes a difference: one passing the zero test on the diagonal, and one as
  -- zero as the value of `a` off it
  have hcell : ∀ r c, r < a.rowCount → c < a.colCount →
      ∃ d, Arith.sub (a.get r c) (a.diagonalPart.get r c) = .ok d ∧
        (Arith.isZero d = true ↔ (r ≠ c → Arith.isZero (a.get r c) = true)) := by
    intro r c hr hc'
    rw [get_diagonalPart]
    by_cases hrc : r = c
    · subst hrc
      obtain ⟨d, hd, hzd⟩ := hself r hr
      exact ⟨d, by rw [if_pos ⟨rfl, hr⟩, hd], by simp [hzd]⟩
    · obtain ⟨d, hd, hzd⟩ := hoff r c hr (by omega) hrc
      refine ⟨d, by rw [if_neg fun h => hrc h.1, hd], ?_⟩
      rw [hzd]
      exact ⟨fun h _ => h, fun h => h hrc⟩
  obtain ⟨S, hS, hT⟩ : ∃ S, a.subtract a.diagonalPart = .ok S ∧
      Tabulates S a.rowCount a.colCount _ :=
    zipWith_tabulates_of_ok hdims hrows hc hp fun r c hr hc' =>
      (hcell r c hr hc').imp fun _ h => h.1
  refine ⟨S, hS, Bool.eq_iff_iff.mpr ?_⟩
  rw [isDiagonal_iff, hT.isZero_iff, offDiagonal_isZero_iff hnd hin hz]
  simp only [hsq, true_and]
  refine forall₄_congr fun r c hr hc' => ?_
  obtain ⟨d, hd, hzd⟩ := hcell r c hr hc'
  simp only [hd, Except.toOption, Option.getD_some]
  exact hzd.symm

/-- The diagonal test of a square matrix against subtracting the diagonal written back from
its diagonal column and testing the difference for zero. With a cancelled token and rows,
`diagVector` stops with `cancelled`, and it faults when its loop cannot lay out its chunks'
answers. Otherwise both sides agree when the cells lie inside the bounds, each key once,
zero and each diagonal value minus itself pass the zero test (every value but a NaN or an
infinite float), and subtracting zero keeps the zero test of each value off the diagonal. -/
theorem isDiagonal_eq_isZero_subtract (a : SparseMatrix α) (hsq : a.isSquare = true)
    (hrows : a.rowCount ≤ Text.wordMax) :
    (a.token.any (·.cancelled) = true → 0 < a.rowCount →
      a.diagVector = .error (.error .cancelled)) ∧
    (a.token.any (·.cancelled) = false → ¬a.range.PartialsFit a.rowCount →
      a.diagVector = .error (.fault .capacityOverflow)) ∧
    ((a.token.any (·.cancelled) = false ∨ a.rowCount = 0) → a.range.PartialsFit a.rowCount →
      (a.entries.map Prod.fst).Nodup → a.store.Bounded 0 →
      Arith.isZero (Arith.zero : α) = true →
      (∀ r, r < a.rowCount →
        ∃ d, Arith.sub (a.get r r) (a.get r r) = .ok d ∧ Arith.isZero d = true) →
      (∀ r c, r < a.rowCount → c < a.rowCount → r ≠ c →
        ∃ d, Arith.sub (a.get r c) Arith.zero = .ok d ∧
          Arith.isZero d = Arith.isZero (a.get r c)) →
      ∃ V D S, a.diagVector = .ok V ∧ V.diag = .ok D ∧ a.subtract D = .ok S ∧
        a.isDiagonal = S.isZero) := by
  refine ⟨diagVector_cancelled hsq, diagVector_partials_overflow hsq,
    fun hc hp hnd hin hz hself hoff => ?_⟩
  obtain ⟨V, hV, hD⟩ := diagVector_bind_diag hsq hc hp
  obtain ⟨S, hS, hiff⟩ :=
    isDiagonal_eq_isZero_subtract_diagonalPart hsq hrows hc hp hnd hin hz hself hoff
  exact ⟨V, _, S, hV, hD, hS, hiff⟩

open Host in
/-- The test on the integer shear `[[1, 3], [0, 1]]`, which is not diagonal. -/
theorem isDiagonal_eq_isZero_subtract_shear :
    ((identity 2 : SparseMatrix Int).set 0 1 3).isSquare = true ∧
    ((identity 2 : SparseMatrix Int).set 0 1 3).rowCount ≤ Text.wordMax ∧
    ∃ V D S, ((identity 2 : SparseMatrix Int).set 0 1 3).diagVector = .ok V ∧ V.diag = .ok D ∧
      ((identity 2 : SparseMatrix Int).set 0 1 3).subtract D = .ok S ∧
      ((identity 2 : SparseMatrix Int).set 0 1 3).isDiagonal = S.isZero := by
  have h := isDiagonal_eq_isZero_subtract ((identity 2 : SparseMatrix Int).set 0 1 3)
    (by decide) (by decide)
  have hin : ((identity 2 : SparseMatrix Int).set 0 1 3).store.Bounded 0 := by
    unfold Store.Bounded
    decide
  refine ⟨by decide, by decide, h.2.2 (.inl rfl) (by decide) (by decide) hin rfl
    (fun _ _ => ⟨_, ExactArith.sub_eq _ _, by rw [sub_self]; rfl⟩)
    (fun _ _ _ _ _ => ⟨_, ExactArith.sub_eq _ _, by rw [ExactArith.zero_eq, sub_zero]⟩)⟩

open Host in
/-- Two inputs on which the diagonal test and the difference disagree. With a cancelled
token, the `1 × 1` identity is diagonal but its diagonal column stops with `cancelled`. A
cell written at the largest row lies on the saturated bounds, outside the rows the loops
read: the square matrix with the value `5` there, off the diagonal, is not diagonal, yet
the difference from its diagonal part is zero. -/
theorem isDiagonal_cancelled_or_saturated :
    ((identity 1 : SparseMatrix Int).attachToken.cancel.isDiagonal = true ∧
      (identity 1 : SparseMatrix Int).attachToken.cancel.diagVector =
        .error (.error .cancelled)) ∧
    ((new : SparseMatrix Int).set Text.wordMax (Text.wordMax - 1) 5).isSquare = true ∧
    ((new : SparseMatrix Int).set Text.wordMax (Text.wordMax - 1) 5).isDiagonal = false ∧
    ∃ V D S, ((new : SparseMatrix Int).set Text.wordMax (Text.wordMax - 1) 5).diagVector =
        .ok V ∧ V.diag = .ok D ∧
      ((new : SparseMatrix Int).set Text.wordMax (Text.wordMax - 1) 5).subtract D = .ok S ∧
      S.isZero = true := by
  refine ⟨⟨by decide, diagVector_cancelled (by decide) rfl (by decide)⟩, by decide, by decide, ?_⟩
  generalize hA : (new : SparseMatrix Int).set Text.wordMax (Text.wordMax - 1) 5 = A
  have hrows : A.rowCount = Text.wordMax := by
    rw [← hA]
    decide
  have hcols : A.colCount = Text.wordMax := by
    rw [← hA]
    decide
  -- the one cell lies in the last row, so every index inside the size reads zero
  have hget : ∀ r c, r < Text.wordMax → A.get r c = 0 := by
    intro r c hr
    refine get_of_not_mem fun x hx => ?_
    rw [← hA] at hx
    have hrow := congrArg (·.1.row) (List.mem_singleton.mp hx)
    simp only at hrow
    omega
  have hp : ∀ len, A.range.PartialsFit len :=
    Range.partialsFit_of_degree_le_one (by rw [← hA]; decide)
  obtain ⟨V, hV, hD⟩ := diagVector_bind_diag (a := A) (by simp [isSquare, hrows, hcols])
    (.inl (by rw [← hA]; rfl)) (hp _)
  obtain ⟨S, hS, hT⟩ : ∃ S, A.subtract A.diagonalPart = .ok S ∧
      Tabulates S A.rowCount A.colCount fun _ _ => 0 :=
    zipWith_tabulates (by rw [dims_diagonalPart, dims, hcols, hrows]) (Nat.le_of_eq hrows)
      (.inl (by rw [← hA]; rfl)) (hp _) fun r c hr _ => by
        rw [get_diagonalPart, hget r c (hrows ▸ hr)]
        split <;> rfl
  exact ⟨V, _, S, hV, hD, hS, hT.isZero_iff.mpr fun _ _ _ _ => rfl⟩

end Difference

end SparseMatrix
