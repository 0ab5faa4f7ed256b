import SparseMatrix.Proofs.Bounds

/-!
# Deleting rows and columns

`Store.deleteRow index` refuses an index at or past the row count, naming the axis, the
index and the count; a refused deletion gives no store, so the store stays as it was.
Otherwise it re-keys every cell in one pass (`Store.rekey`): the cells of row `index` are
dropped, the cells of later rows move up by one, the others stay, and the row count drops
by one. Columns behave alike.

A re-keying through `g` is read off the keys the cells come from. When `g` undoes a
one-to-one `src`, that is a cell at `k₀` goes to `k` exactly when `k₀ = src k`, each new
key `k` holds the value `src k` held, a cell is dropped exactly when `g` has no key for
it, and distinct keys stay distinct (`rekey_of_inverse`): no cell is lost or written
twice. Deleting a row re-keys through the inverse of the map that keeps the keys above
the row and moves the others one row down (`deleteRow_of_lt`); deleting a column is the
same along the other axis (`deleteColumn_of_lt`).
-/

namespace SparseMatrix

namespace Store

variable {α : Type} {s : Store α} {g : Key → Option Key}

/-! ## Re-keying through an inverse -/

/-- A re-keying holds a cell at `k` exactly when some old key maps to `k` with that value. -/
theorem mem_rekey_iff {k : Key} {v : α} :
    (k, v) ∈ s.rekey g ↔ ∃ k₀, (k₀, v) ∈ s.cells ∧ g k₀ = some k := by
  constructor
  · exact mem_rekey
  · rintro ⟨k₀, hmem, hk⟩
    exact List.mem_filterMap.mpr ⟨(k₀, v), hmem, by simp [hk]⟩

/-- A re-keying keeps exactly the cells whose key it maps. -/
theorem length_rekey : (s.rekey g).length = s.cells.countP fun kv => (g kv.1).isSome := by
  rw [rekey, List.length_filterMap_eq_countP]
  refine List.countP_congr fun ⟨k, v⟩ _ => ?_
  dsimp only
  cases g k <;> rfl

/-- A re-keying through the inverse of a one-to-one `src`: each new key `k` holds what
`src k` held, the cells it drops are those of the keys it does not map, and distinct keys
stay distinct. -/
theorem rekey_of_inverse {src : Key → Key} {drop : Key → Bool}
    (hinv : ∀ k₀ k, g k₀ = some k ↔ k₀ = src k) (hdrop : ∀ k₀, (g k₀).isSome = !drop k₀)
    (hs : (s.cells.map Prod.fst).Nodup) :
    (∀ k v, (k, v) ∈ s.rekey g ↔ (src k, v) ∈ s.cells) ∧
      (s.rekey g).length + s.cells.countP (fun kv => drop kv.1) = s.cells.length ∧
      ((s.rekey g).map Prod.fst).Nodup := by
  refine ⟨fun k v => ?_, ?_, ?_⟩
  · rw [mem_rekey_iff]
    constructor
    · rintro ⟨k₀, hmem, hk⟩
      rwa [(hinv k₀ k).mp hk] at hmem
    · intro hmem
      exact ⟨src k, hmem, (hinv _ k).mpr rfl⟩
  · -- the kept cells and the dropped ones split the list
    rw [length_rekey, List.length_eq_countP_add_countP fun kv => drop kv.1, Nat.add_comm]
    congr 1
    refine List.countP_congr fun kv _ => ?_
    simp [hdrop]
  · have hkeys : (s.rekey g).map Prod.fst = (s.cells.map Prod.fst).filterMap g := by
      rw [rekey, List.map_filterMap, List.filterMap_map]
      refine List.filterMap_congr fun ⟨k, v⟩ _ => ?_
      show ((g k).map fun k' => (k', v)).map Prod.fst = g k
      cases g k <;> rfl
    rw [hkeys]
    -- two old keys that reach one new key are both its source
    refine hs.filterMap fun k₁ k₂ k h₁ h₂ => ?_
    rw [(hinv k₁ k).mp h₁, (hinv k₂ k).mp h₂]

/-! ## Deleting a row or a column -/

/-- Deleting a row inside the bounds keeps the column count, lowers the row count by one,
and re-keys the cells through the inverse of the map that keeps the keys above the row
and moves the others one row down; it drops exactly the cells of the row. -/
theorem deleteRow_of_lt {index : Nat} (h : index < s.rows) : ∃ g : Key → Option Key,
    s.deleteRow index = .ok ⟨s.rows - 1, s.cols, s.rekey g⟩ ∧
      (∀ k₀ k, g k₀ = some k ↔ k₀ = if k.row < index then k else ⟨k.row + 1, k.col⟩) ∧
      ∀ k₀, (g k₀).isSome = !(k₀.row == index) := by
  refine ⟨_, if_neg (Nat.not_le.mpr h), fun ⟨r₀, c₀⟩ ⟨r, c⟩ => ?_, fun ⟨r₀, c₀⟩ => ?_⟩
  · -- each branch of the re-keying against each side of the row
    dsimp only
    by_cases hr : r < index <;> split_ifs <;> simp [Key.mk.injEq] <;> omega
  · dsimp only
    split_ifs <;> simp_all

/-- Deleting a column inside the bounds keeps the row count, lowers the column count by
one, and re-keys the cells through the inverse of the map that keeps the keys left of the
column and moves the others one column right; it drops exactly the cells of the column. -/
theorem deleteColumn_of_lt {index : Nat} (h : index < s.cols) : ∃ g : Key → Option Key,
    s.deleteColumn index = .ok ⟨s.rows, s.cols - 1, s.rekey g⟩ ∧
      (∀ k₀ k, g k₀ = some k ↔ k₀ = if k.col < index then k else ⟨k.row, k.col + 1⟩) ∧
      ∀ k₀, (g k₀).isSome = !(k₀.col == index) := by
  refine ⟨_, if_neg (Nat.not_le.mpr h), fun ⟨r₀, c₀⟩ ⟨r, c⟩ => ?_, fun ⟨r₀, c₀⟩ => ?_⟩
  · -- each branch of the re-keying against each side of the column
    dsimp only
    by_cases hc : c < index <;> split_ifs <;> simp [Key.mk.injEq] <;> omega
  · dsimp only
    split_ifs <;> simp_all

/-! ## What a deletion keeps -/

/-- Deleting a row inside the bounds of a store with distinct keys: the row count drops by
one and the column count stays; the cells above the row stay, each cell below it moves up
one row, the cells of the row are dropped and no other, and the keys stay distinct. -/
theorem deleteRow_shifts_cells (hs : (s.cells.map Prod.fst).Nodup) {index : Nat}
    (h : index < s.rows) :
    ∃ s', s.deleteRow index = .ok s' ∧ s'.rows + 1 = s.rows ∧ s'.cols = s.cols ∧
      (∀ k v, (k, v) ∈ s'.cells ↔ (k.row < index ∧ (k, v) ∈ s.cells) ∨
        (index ≤ k.row ∧ ((⟨k.row + 1, k.col⟩ : Key), v) ∈ s.cells)) ∧
      s'.nnz + s.cells.countP (fun kv => kv.1.row == index) = s.nnz ∧
      (s'.cells.map Prod.fst).Nodup := by
  obtain ⟨g, hdel, hinv, hdrop⟩ := deleteRow_of_lt h
  obtain ⟨hmem, hlen, hnd⟩ := rekey_of_inverse hinv hdrop hs
  refine ⟨_, hdel, by dsimp only; omega, rfl, fun k v => ?_, hlen, hnd⟩
  show (k, v) ∈ s.rekey g ↔ _
  rw [hmem]
  by_cases hk : k.row < index
  · simp [hk]
  · simp [hk, Nat.le_of_not_lt hk]

/-- Deleting a column inside the bounds of a store with distinct keys: the column count
drops by one and the row count stays; the cells left of the column stay, each cell right
of it moves left one column, the cells of the column are dropped and no other, and the
keys stay distinct. -/
theorem deleteColumn_shifts_cells (hs : (s.cells.map Prod.fst).Nodup) {index : Nat}
    (h : index < s.cols) :
    ∃ s', s.deleteColumn index = .ok s' ∧ s'.rows = s.rows ∧ s'.cols + 1 = s.cols ∧
      (∀ k v, (k, v) ∈ s'.cells ↔ (k.col < index ∧ (k, v) ∈ s.cells) ∨
        (index ≤ k.col ∧ ((⟨k.row, k.col + 1⟩ : Key), v) ∈ s.cells)) ∧
      s'.nnz + s.cells.countP (fun kv => kv.1.col == index) = s.nnz ∧
      (s'.cells.map Prod.fst).Nodup := by
  obtain ⟨g, hdel, hinv, hdrop⟩ := deleteColumn_of_lt h
  obtain ⟨hmem, hlen, hnd⟩ := rekey_of_inverse hinv hdrop hs
  refine ⟨_, hdel, rfl, by dsimp only; omega, fun k v => ?_, hlen, hnd⟩
  show (k, v) ∈ s.rekey g ↔ _
  rw [hmem]
  by_cases hk : k.col < index
  · simp [hk]
  · simp [hk, Nat.le_of_not_lt hk]

/-- Deleting a row or a column of a store with distinct keys. An index at or past the
count is refused with the axis, the index and the count, and no store comes back.
Otherwise that count drops by one and the other stays; the cells before the index stay,
each cell after it moves back by one, the cells at the index are dropped and no other, so
the number of cells drops by the number at the index, and the keys stay distinct. -/
theorem delete_shifts_cells (s : Store α) (index : Nat) (hs : (s.cells.map Prod.fst).Nodup) :
    (s.rows ≤ index → s.deleteRow index = .error (.indexOutOfRange .row index s.rows)) ∧
    (index < s.rows → ∃ s', s.deleteRow index = .ok s' ∧ s'.rows + 1 = s.rows ∧
      s'.cols = s.cols ∧
      (∀ k v, (k, v) ∈ s'.cells ↔ (k.row < index ∧ (k, v) ∈ s.cells) ∨
        (index ≤ k.row ∧ ((⟨k.row + 1, k.col⟩ : Key), v) ∈ s.cells)) ∧
      s'.nnz + s.cells.countP (fun kv => kv.1.row == index) = s.nnz ∧
      (s'.cells.map Prod.fst).Nodup) ∧
    (s.cols ≤ index → s.deleteColumn index = .error (.indexOutOfRange .column index s.cols)) ∧
    (index < s.cols → ∃ s', s.deleteColumn index = .ok s' ∧ s'.rows = s.rows ∧
      s'.cols + 1 = s.cols ∧
      (∀ k v, (k, v) ∈ s'.cells ↔ (k.col < index ∧ (k, v) ∈ s.cells) ∨
        (index ≤ k.col ∧ ((⟨k.row, k.col + 1⟩ : Key), v) ∈ s.cells)) ∧
      s'.nnz + s.cells.countP (fun kv => kv.1.col == index) = s.nnz ∧
      (s'.cells.map Prod.fst).Nodup) :=
  ⟨fun h => if_pos h, deleteRow_shifts_cells hs, fun h => if_pos h, deleteColumn_shifts_cells hs⟩

/-- Deleting row or column one of a `3 × 2` store with a cell in each row. -/
theorem delete_shifts_cells_middle :
    ((⟨3, 2, [(⟨0, 0⟩, 1), (⟨1, 1⟩, 2), (⟨2, 0⟩, 3)]⟩ : Store Int).cells.map Prod.fst).Nodup ∧
    ((⟨3, 2, [(⟨0, 0⟩, 1), (⟨1, 1⟩, 2), (⟨2, 0⟩, 3)]⟩ : Store Int).rows ≤ 1 →
      (⟨3, 2, [(⟨0, 0⟩, 1), (⟨1, 1⟩, 2), (⟨2, 0⟩, 3)]⟩ : Store Int).deleteRow 1 =
        .error (.indexOutOfRange .row 1
          (⟨3, 2, [(⟨0, 0⟩, 1), (⟨1, 1⟩, 2), (⟨2, 0⟩, 3)]⟩ : Store Int).rows)) ∧
    (1 < (⟨3, 2, [(⟨0, 0⟩, 1), (⟨1, 1⟩, 2), (⟨2, 0⟩, 3)]⟩ : Store Int).rows → ∃ s',
      (⟨3, 2, [(⟨0, 0⟩, 1), (⟨1, 1⟩, 2), (⟨2, 0⟩, 3)]⟩ : Store Int).deleteRow 1 = .ok s' ∧
      s'.rows + 1 = (⟨3, 2, [(⟨0, 0⟩, 1), (⟨1, 1⟩, 2), (⟨2, 0⟩, 3)]⟩ : Store Int).rows ∧
      s'.cols = (⟨3, 2, [(⟨0, 0⟩, 1), (⟨1, 1⟩, 2), (⟨2, 0⟩, 3)]⟩ : Store Int).cols ∧
      (∀ k v, (k, v) ∈ s'.cells ↔
        (k.row < 1 ∧ (k, v) ∈ (⟨3, 2, [(⟨0, 0⟩, 1), (⟨1, 1⟩, 2), (⟨2, 0⟩, 3)]⟩ : Store Int).cells) ∨
        (1 ≤ k.row ∧ ((⟨k.row + 1, k.col⟩ : Key), v) ∈
          (⟨3, 2, [(⟨0, 0⟩, 1), (⟨1, 1⟩, 2), (⟨2, 0⟩, 3)]⟩ : Store Int).cells)) ∧
      s'.nnz + (⟨3, 2, [(⟨0, 0⟩, 1), (⟨1, 1⟩, 2), (⟨2, 0⟩, 3)]⟩ : Store Int).cells.countP
          (fun kv => kv.1.row == 1) =
        (⟨3, 2, [(⟨0, 0⟩, 1), (⟨1, 1⟩, 2), (⟨2, 0⟩, 3)]⟩ : Store Int).nnz ∧
      (s'.cells.map Prod.fst).Nodup) ∧
    ((⟨3, 2, [(⟨0, 0⟩, 1), (⟨1, 1⟩, 2), (⟨2, 0⟩, 3)]⟩ : Store Int).cols ≤ 1 →
      (⟨3, 2, [(⟨0, 0⟩, 1), (⟨1, 1⟩, 2), (⟨2, 0⟩, 3)]⟩ : Store Int).deleteColumn 1 =
        .error (.indexOutOfRange .column 1
          (⟨3, 2, [(⟨0, 0⟩, 1), (⟨1, 1⟩, 2), (⟨2, 0⟩, 3)]⟩ : Store Int).cols)) ∧
    (1 < (⟨3, 2, [(⟨0, 0⟩, 1), (⟨1, 1⟩, 2), (⟨2, 0⟩, 3)]⟩ : Store Int).cols → ∃ s',
      (⟨3, 2, [(⟨0, 0⟩, 1), (⟨1, 1⟩, 2), (⟨2, 0⟩, 3)]⟩ : Store Int).deleteColumn 1 = .ok s' ∧
      s'.rows = (⟨3, 2, [(⟨0, 0⟩, 1), (⟨1, 1⟩, 2), (⟨2, 0⟩, 3)]⟩ : Store Int).rows ∧
      s'.cols + 1 = (⟨3, 2, [(⟨0, 0⟩, 1), (⟨1, 1⟩, 2), (⟨2, 0⟩, 3)]⟩ : Store Int).cols ∧
      (∀ k v, (k, v) ∈ s'.cells ↔
        (k.col < 1 ∧ (k, v) ∈ (⟨3, 2, [(⟨0, 0⟩, 1), (⟨1, 1⟩, 2), (⟨2, 0⟩, 3)]⟩ : Store Int).cells) ∨
        (1 ≤ k.col ∧ ((⟨k.row, k.col + 1⟩ : Key), v) ∈
          (⟨3, 2, [(⟨0, 0⟩, 1), (⟨1, 1⟩, 2), (⟨2, 0⟩, 3)]⟩ : Store Int).cells)) ∧
      s'.nnz + (⟨3, 2, [(⟨0, 0⟩, 1), (⟨1, 1⟩, 2), (⟨2, 0⟩, 3)]⟩ : Store Int).cells.countP
          (fun kv => kv.1.col == 1) =
        (⟨3, 2, [(⟨0, 0⟩, 1), (⟨1, 1⟩, 2), (⟨2, 0⟩, 3)]⟩ : Store Int).nnz ∧
      (s'.cells.map Prod.fst).Nodup) :=
  ⟨by decide, delete_shifts_cells _ 1 (by decide)⟩

end Store

end SparseMatrix
