import SparseMatrix.Proofs.Deletion

/-!
# Inserting empty rows and columns

`Store.insertRow index` refuses an index past the row count, naming the axis, the index
and the count, and gives no store. An index at most the count opens an empty row there:
every cell at or below it moves down one row, and the row count grows by one.

The row count is a machine word. A store whose row count is already the largest word
(`zeros`, `withBounds`, or a write that saturated the bounds) cannot grow, and inserting
a row into it faults with `addOverflow` before any result is given; the same holds of a
cell in the last possible row, which cannot move down. Columns behave alike.

A re-keying through a one-to-one map keeps every cell under its new key, so it keeps the
number of cells and their distinct keys (`rekey_of_injective`). Inserting a row re-keys
through `shiftRow`, one-to-one, so the store it gives holds exactly the cells above the
index as they were and the cells from the index on one row further down, and nothing in
the new row (`insertRow_shifts_cells`). `insert_shifts_cells` puts the three outcomes
of both axes together.
-/

namespace SparseMatrix

namespace Store

variable {α : Type} {s : Store α}

/-! ## Re-keying through a one-to-one map -/

/-- A re-keying through a one-to-one map `f` holds each cell under its image, keeps every
cell, and keeps the keys distinct. -/
theorem rekey_of_injective {g : Key → Option Key} {f : Key → Key} (hg : ∀ k, g k = some (f k))
    (hf : Function.Injective f) (hs : (s.cells.map Prod.fst).Nodup) :
    (∀ k v, (k, v) ∈ s.rekey g ↔ ∃ k₀, (k₀, v) ∈ s.cells ∧ f k₀ = k) ∧
      (s.rekey g).length = s.cells.length ∧ ((s.rekey g).map Prod.fst).Nodup := by
  refine ⟨fun k v => ?_, ?_, ?_⟩
  · rw [mem_rekey_iff]
    simp only [hg, Option.some.injEq]
  · rw [length_rekey]
    exact List.countP_eq_length.mpr fun kv _ => by simp [hg]
  · -- the new keys are the images of the old ones, in order
    have hkeys : (s.rekey g).map Prod.fst = (s.cells.map Prod.fst).map f := by
      rw [rekey, List.map_filterMap, List.map_map]
      refine List.filterMap_eq_map_iff_forall_eq_some.mpr fun kv _ => ?_
      obtain ⟨k, v⟩ := kv
      show ((g k).map fun k' => (k', v)).map Prod.fst = some (f k)
      rw [hg]
      rfl
    rw [hkeys]
    exact hs.map hf

/-- The cells that a key map sends to `k`, when its preimages are told apart by cases: a
cell lands at `k` exactly when it stood at `k` with `P k`, or at `g k` with `Q k`. -/
theorem exists_mem_map_eq_iff {f g : Key → Key} {P Q : Key → Prop}
    (hpre : ∀ k₀ k, f k₀ = k ↔ (P k ∧ k₀ = k) ∨ (Q k ∧ k₀ = g k))
    (k : Key) (v : α) :
    (∃ k₀, (k₀, v) ∈ s.cells ∧ f k₀ = k) ↔
      (P k ∧ (k, v) ∈ s.cells) ∨ (Q k ∧ (g k, v) ∈ s.cells) := by
  constructor
  · rintro ⟨k₀, hk₀, hmap⟩
    rcases (hpre k₀ k).mp hmap with ⟨hp, rfl⟩ | ⟨hq, rfl⟩
    · exact .inl ⟨hp, hk₀⟩
    · exact .inr ⟨hq, hk₀⟩
  · rintro (⟨hp, hk⟩ | ⟨hq, hk⟩)
    · exact ⟨k, hk, (hpre k k).mpr (.inl ⟨hp, rfl⟩)⟩
    · exact ⟨g k, hk, (hpre (g k) k).mpr (.inr ⟨hq, rfl⟩)⟩

/-! ## Shifting keys past an index -/

/-- The key a cell moves to when an empty row opens at `index`. -/
def shiftRow (index : Nat) (k : Key) : Key :=
  if index ≤ k.row then ⟨k.row + 1, k.col⟩ else k

/-- The key a cell moves to when an empty column opens at `index`. -/
def shiftColumn (index : Nat) (k : Key) : Key :=
  if index ≤ k.col then ⟨k.row, k.col + 1⟩ else k

theorem shiftRow_injective (index : Nat) : Function.Injective (shiftRow index) := by
  intro ⟨r₁, c₁⟩ ⟨r₂, c₂⟩ h
  unfold shiftRow at h
  dsimp only at h
  split_ifs at h <;> simp only [Key.mk.injEq] at h ⊢ <;> omega

theorem shiftColumn_injective (index : Nat) : Function.Injective (shiftColumn index) := by
  intro ⟨r₁, c₁⟩ ⟨r₂, c₂⟩ h
  unfold shiftColumn at h
  dsimp only at h
  split_ifs at h <;> simp only [Key.mk.injEq] at h ⊢ <;> omega

/-- A key reached by the row shift lies above the index and was not moved, or lies
below it and came from the row above; none lies in the row at the index. -/
theorem shiftRow_eq_iff {index : Nat} {k₀ k : Key} :
    shiftRow index k₀ = k ↔
      (k.row < index ∧ k₀ = k) ∨ (index < k.row ∧ k₀ = ⟨k.row - 1, k.col⟩) := by
  obtain ⟨r₀, c₀⟩ := k₀
  obtain ⟨r, c⟩ := k
  unfold shiftRow
  dsimp only
  split_ifs with h <;> simp only [Key.mk.injEq] <;> omega

theorem shiftColumn_eq_iff {index : Nat} {k₀ k : Key} :
    shiftColumn index k₀ = k ↔
      (k.col < index ∧ k₀ = k) ∨ (index < k.col ∧ k₀ = ⟨k.row, k.col - 1⟩) := by
  obtain ⟨r₀, c₀⟩ := k₀
  obtain ⟨r, c⟩ := k
  unfold shiftColumn
  dsimp only
  split_ifs with h <;> simp only [Key.mk.injEq] <;> omega

/-! ## The three outcomes of an insertion -/

/-- An index past the row count is refused with the axis, the index and the count. -/
theorem insertRow_of_lt {index : Nat} (h : s.rows < index) :
    s.insertRow index = .error (.error (.indexOutOfRange .row index s.rows)) :=
  if_pos h

theorem insertColumn_of_lt {index : Nat} (h : s.cols < index) :
    s.insertColumn index = .error (.error (.indexOutOfRange .column index s.cols)) :=
  if_pos h

/-- A row count at the largest word cannot grow: inserting a row faults. -/
theorem insertRow_of_rows_eq_wordMax {index : Nat} (h : index ≤ s.rows)
    (hw : s.rows = Text.wordMax) : s.insertRow index = .error (.fault .addOverflow) := by
  unfold insertRow
  split
  · omega
  split
  · rfl
  · rename_i hno
    exact absurd (Or.inr hw) hno

theorem insertColumn_of_cols_eq_wordMax {index : Nat} (h : index ≤ s.cols)
    (hw : s.cols = Text.wordMax) : s.insertColumn index = .error (.fault .addOverflow) := by
  unfold insertColumn
  split
  · omega
  split
  · rfl
  · rename_i hno
    exact absurd (Or.inr hw) hno

/-- With its cells inside or on its bounds and a row count below the largest word, a
store takes an empty row at any index up to the count: the row count grows by one and
the cells are re-keyed through `shiftRow`. -/
theorem insertRow_of_le (hb : s.Bounded 1) {index : Nat} (h : index ≤ s.rows)
    (hw : s.rows < Text.wordMax) :
    s.insertRow index = .ok ⟨s.rows + 1, s.cols, s.rekey fun k => some (shiftRow index k)⟩ := by
  unfold insertRow
  split
  · omega
  split
  · -- no cell lies in the last possible row, which is past the bounds
    rename_i hfault
    rcases hfault with hany | hrows
    · obtain ⟨⟨k, v⟩, hmem, hk⟩ := List.any_eq_true.mp hany
      have hin : k.row < s.rows + 1 := (hb _ hmem).1
      simp only [decide_eq_true_eq] at hk
      omega
    · omega
  · -- the model's re-keying is `shiftRow` written branch by branch
    refine congrArg (fun g : Key → Option Key =>
      (Except.ok ⟨s.rows + 1, s.cols, s.rekey g⟩ : Except Failure (Store α)))
      (funext fun k => ?_)
    unfold shiftRow
    split <;> rfl

theorem insertColumn_of_le (hb : s.Bounded 1) {index : Nat} (h : index ≤ s.cols)
    (hw : s.cols < Text.wordMax) :
    s.insertColumn index = .ok ⟨s.rows, s.cols + 1, s.rekey fun k => some (shiftColumn index k)⟩ := by
  unfold insertColumn
  split
  · omega
  split
  · rename_i hfault
    rcases hfault with hany | hcols
    · obtain ⟨⟨k, v⟩, hmem, hk⟩ := List.any_eq_true.mp hany
      have hin : k.col < s.cols + 1 := (hb _ hmem).2
      simp only [decide_eq_true_eq] at hk
      omega
    · omega
  · refine congrArg (fun g : Key → Option Key =>
      (Except.ok ⟨s.rows, s.cols + 1, s.rekey g⟩ : Except Failure (Store α)))
      (funext fun k => ?_)
    unfold shiftColumn
    split <;> rfl

/-! ## What an insertion keeps -/

/-- Inserting a row at an index up to the count of a store with distinct keys, its cells
inside or on its bounds and a row count below the largest word: the row count grows by
one and the column count stays; the cells above the index stay, every cell from the index
on moves down one row, no cell is lost and none lands in the new row, and the keys stay
distinct. -/
theorem insertRow_shifts_cells (hs : (s.cells.map Prod.fst).Nodup) (hb : s.Bounded 1)
    {index : Nat} (h : index ≤ s.rows) (hw : s.rows < Text.wordMax) :
    ∃ s', s.insertRow index = .ok s' ∧ s'.rows = s.rows + 1 ∧ s'.cols = s.cols ∧
      (∀ k v, (k, v) ∈ s'.cells ↔ (k.row < index ∧ (k, v) ∈ s.cells) ∨
        (index < k.row ∧ ((⟨k.row - 1, k.col⟩ : Key), v) ∈ s.cells)) ∧
      s'.nnz = s.nnz ∧ (s'.cells.map Prod.fst).Nodup := by
  obtain ⟨hmem, hlen, hnd⟩ := rekey_of_injective (fun _ => rfl) (shiftRow_injective index) hs
  refine ⟨_, insertRow_of_le hb h hw, rfl, rfl, fun k v => ?_, hlen, hnd⟩
  dsimp only
  rw [hmem]
  exact exists_mem_map_eq_iff (fun _ _ => shiftRow_eq_iff) k v

/-- Inserting a column at an index up to the count: the column count grows by one, the
cells left of the index stay, every cell from the index on moves right one column, no cell
is lost and none lands in the new column, and the keys stay distinct. -/
theorem insertColumn_shifts_cells (hs : (s.cells.map Prod.fst).Nodup) (hb : s.Bounded 1)
    {index : Nat} (h : index ≤ s.cols) (hw : s.cols < Text.wordMax) :
    ∃ s', s.insertColumn index = .ok s' ∧ s'.rows = s.rows ∧ s'.cols = s.cols + 1 ∧
      (∀ k v, (k, v) ∈ s'.cells ↔ (k.col < index ∧ (k, v) ∈ s.cells) ∨
        (index < k.col ∧ ((⟨k.row, k.col - 1⟩ : Key), v) ∈ s.cells)) ∧
      s'.nnz = s.nnz ∧ (s'.cells.map Prod.fst).Nodup := by
  obtain ⟨hmem, hlen, hnd⟩ := rekey_of_injective (fun _ => rfl) (shiftColumn_injective index) hs
  refine ⟨_, insertColumn_of_le hb h hw, rfl, rfl, fun k v => ?_, hlen, hnd⟩
  dsimp only
  rw [hmem]
  exact exists_mem_map_eq_iff (fun _ _ => shiftColumn_eq_iff) k v

/-- Inserting an empty row or column into a store with distinct keys whose cells lie
inside or on its bounds, as in every store a program makes. An index past the count is
refused with the axis, the index and the count, and no store comes back. An index up to
the count, while the count is below the largest word, gives a store whose count is one
more and whose other count stays, holding the cells before the index as they were and the
cells from the index on moved on by one, none lost and none in the new row or column, each
key once. At a count equal to the largest word the count cannot grow, and the insertion
faults with `addOverflow`. -/
theorem insert_shifts_cells (s : Store α) (index : Nat) (hs : (s.cells.map Prod.fst).Nodup)
    (hb : s.Bounded 1) :
    (s.rows < index → s.insertRow index = .error (.error (.indexOutOfRange .row index s.rows))) ∧
    (index ≤ s.rows → s.rows < Text.wordMax → ∃ s', s.insertRow index = .ok s' ∧
      s'.rows = s.rows + 1 ∧ s'.cols = s.cols ∧
      (∀ k v, (k, v) ∈ s'.cells ↔ (k.row < index ∧ (k, v) ∈ s.cells) ∨
        (index < k.row ∧ ((⟨k.row - 1, k.col⟩ : Key), v) ∈ s.cells)) ∧
      s'.nnz = s.nnz ∧ (s'.cells.map Prod.fst).Nodup) ∧
    (index ≤ s.rows → s.rows = Text.wordMax → s.insertRow index = .error (.fault .addOverflow)) ∧
    (s.cols < index →
      s.insertColumn index = .error (.error (.indexOutOfRange .column index s.cols))) ∧
    (index ≤ s.cols → s.cols < Text.wordMax → ∃ s', s.insertColumn index = .ok s' ∧
      s'.rows = s.rows ∧ s'.cols = s.cols + 1 ∧
      (∀ k v, (k, v) ∈ s'.cells ↔ (k.col < index ∧ (k, v) ∈ s.cells) ∨
        (index < k.col ∧ ((⟨k.row, k.col - 1⟩ : Key), v) ∈ s.cells)) ∧
      s'.nnz = s.nnz ∧ (s'.cells.map Prod.fst).Nodup) ∧
    (index ≤ s.cols → s.cols = Text.wordMax →
      s.insertColumn index = .error (.fault .addOverflow)) :=
  ⟨insertRow_of_lt, insertRow_shifts_cells hs hb, insertRow_of_rows_eq_wordMax,
    insertColumn_of_lt, insertColumn_shifts_cells hs hb, insertColumn_of_cols_eq_wordMax⟩

/-- Opening row and column one of a `2 × 3` store with cells at `(0, 0)` and `(1, 2)`. -/
theorem insert_shifts_cells_middle :
    ((⟨2, 3, [(⟨0, 0⟩, 1), (⟨1, 2⟩, 2)]⟩ : Store Int).cells.map Prod.fst).Nodup ∧
    (⟨2, 3, [(⟨0, 0⟩, 1), (⟨1, 2⟩, 2)]⟩ : Store Int).Bounded 1 ∧
    ((⟨2, 3, [(⟨0, 0⟩, 1), (⟨1, 2⟩, 2)]⟩ : Store Int).rows < 1 →
      (⟨2, 3, [(⟨0, 0⟩, 1), (⟨1, 2⟩, 2)]⟩ : Store Int).insertRow 1 =
        .error (.error (.indexOutOfRange .row 1 2))) ∧
    (1 ≤ (⟨2, 3, [(⟨0, 0⟩, 1), (⟨1, 2⟩, 2)]⟩ : Store Int).rows →
      (⟨2, 3, [(⟨0, 0⟩, 1), (⟨1, 2⟩, 2)]⟩ : Store Int).rows < Text.wordMax → ∃ s',
      (⟨2, 3, [(⟨0, 0⟩, 1), (⟨1, 2⟩, 2)]⟩ : Store Int).insertRow 1 = .ok s' ∧
      s'.rows = 2 + 1 ∧ s'.cols = 3 ∧
      (∀ k v, (k, v) ∈ s'.cells ↔
        (k.row < 1 ∧ (k, v) ∈ [((⟨0, 0⟩ : Key), (1 : Int)), (⟨1, 2⟩, 2)]) ∨
        (1 < k.row ∧ ((⟨k.row - 1, k.col⟩ : Key), v) ∈ [((⟨0, 0⟩ : Key), (1 : Int)), (⟨1, 2⟩, 2)])) ∧
      s'.nnz = 2 ∧ (s'.cells.map Prod.fst).Nodup) ∧
    (1 ≤ (⟨2, 3, [(⟨0, 0⟩, 1), (⟨1, 2⟩, 2)]⟩ : Store Int).rows →
      (⟨2, 3, [(⟨0, 0⟩, 1), (⟨1, 2⟩, 2)]⟩ : Store Int).rows = Text.wordMax →
      (⟨2, 3, [(⟨0, 0⟩, 1), (⟨1, 2⟩, 2)]⟩ : Store Int).insertRow 1 = .error (.fault .addOverflow)) ∧
    ((⟨2, 3, [(⟨0, 0⟩, 1), (⟨1, 2⟩, 2)]⟩ : Store Int).cols < 1 →
      (⟨2, 3, [(⟨0, 0⟩, 1), (⟨1, 2⟩, 2)]⟩ : Store Int).insertColumn 1 =
        .error (.error (.indexOutOfRange .column 1 3))) ∧
    (1 ≤ (⟨2, 3, [(⟨0, 0⟩, 1), (⟨1, 2⟩, 2)]⟩ : Store Int).cols →
      (⟨2, 3, [(⟨0, 0⟩, 1), (⟨1, 2⟩, 2)]⟩ : Store Int).cols < Text.wordMax → ∃ s',
      (⟨2, 3, [(⟨0, 0⟩, 1), (⟨1, 2⟩, 2)]⟩ : Store Int).insertColumn 1 = .ok s' ∧
      s'.rows = 2 ∧ s'.cols = 3 + 1 ∧
      (∀ k v, (k, v) ∈ s'.cells ↔
        (k.col < 1 ∧ (k, v) ∈ [((⟨0, 0⟩ : Key), (1 : Int)), (⟨1, 2⟩, 2)]) ∨
        (1 < k.col ∧ ((⟨k.row, k.col - 1⟩ : Key), v) ∈ [((⟨0, 0⟩ : Key), (1 : Int)), (⟨1, 2⟩, 2)])) ∧
      s'.nnz = 2 ∧ (s'.cells.map Prod.fst).Nodup) ∧
    (1 ≤ (⟨2, 3, [(⟨0, 0⟩, 1), (⟨1, 2⟩, 2)]⟩ : Store Int).cols →
      (⟨2, 3, [(⟨0, 0⟩, 1), (⟨1, 2⟩, 2)]⟩ : Store Int).cols = Text.wordMax →
      (⟨2, 3, [(⟨0, 0⟩, 1), (⟨1, 2⟩, 2)]⟩ : Store Int).insertColumn 1 =
        .error (.fault .addOverflow)) := by
  have hs : ((⟨2, 3, [(⟨0, 0⟩, 1), (⟨1, 2⟩, 2)]⟩ : Store Int).cells.map Prod.fst).Nodup := by
    decide
  have hb : (⟨2, 3, [(⟨0, 0⟩, 1), (⟨1, 2⟩, 2)]⟩ : Store Int).Bounded 1 := by
    intro kv hkv
    simp only [List.mem_cons, List.not_mem_nil, or_false] at hkv
    rcases hkv with rfl | rfl <;> decide
  exact ⟨hs, hb, insert_shifts_cells _ 1 hs hb⟩

/-- A store whose row count is the largest word, as `withBounds` or `zeros` make it,
cannot take an empty row even at the start: the count cannot grow past the word. -/
theorem insertRow_at_word_count_faults :
    (withBounds Text.wordMax 0 : Store Int).insertRow 0 = .error (.fault .addOverflow) :=
  insertRow_of_rows_eq_wordMax (Nat.zero_le _) rfl

end Store

end SparseMatrix
