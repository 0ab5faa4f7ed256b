import SparseMatrix.Basic
import SparseMatrix.Operations
import SparseMatrix.Proofs.Exact
import SparseMatrix.Proofs.Loop
import Mathlib.Data.List.Nodup

/-!
# Cell lists and the values they hold

A matrix reads a cell through `Store.find?`, the first cell with its key. When the keys of
a cell list are distinct, every cell is the one found at its key (`Store.find?_of_mem`),
and a key with no cell reads as zero.

`CellsOf cells f` says that a cell list holds the values `f`: its keys are distinct, each
written value is `f` at its key, and `f` is zero wherever nothing is written. A matrix
with such cells reads `f` at every cell (`CellsOf.get_withCells`), and keeps its bounds
when the cells lie inside them (`rowCount_withCells`); bounds that are machine words stay
so whatever the cells (`rowCount_withCells_le`). The lists the algorithms build are
of this kind:

* the values of a function that are not zero, over distinct keys off which it vanishes
  (`nonzeroCells`, `cellsOf_nonzeroCells`), as the product and the inverse write them;
* a diagonal (`cellsOf_diagonal`), as `identity` writes it;
* any reordering of such a list (`CellsOf.perm`), as `sortCells` makes.

Over exact arithmetic, two matrices of one size whose cells hold the same values are
equal (`beq_withCells`).
-/

namespace SparseMatrix

variable {α : Type}

/-! ## Looking up a key -/

namespace Store

theorem find?_cells_of_mem {cells : List (Key × α)} {k : Key} {v : α}
    (hnd : (cells.map Prod.fst).Nodup) (hmem : (k, v) ∈ cells) :
    cells.find? (·.1 == k) = some (k, v) := by
  induction cells with
  | nil => cases hmem
  | cons kv rest ih =>
    rw [List.map_cons, List.nodup_cons] at hnd
    rcases List.mem_cons.mp hmem with rfl | hrest
    · simp
    · have hne : kv.1 ≠ k := fun h => hnd.1 (List.mem_map.mpr ⟨(k, v), hrest, h.symm⟩)
      simp [hne, ih hnd.2 hrest]

/-- With distinct keys, a written cell is the one found at its key. -/
theorem find?_of_mem {s : Store α} {k : Key} {v : α} (hnd : (s.cells.map Prod.fst).Nodup)
    (hmem : (k, v) ∈ s.cells) : s.find? k = some v := by
  rw [find?, find?_cells_of_mem hnd hmem]
  rfl

theorem find?_eq_none {s : Store α} {k : Key} (h : ∀ v, (k, v) ∉ s.cells) : s.find? k = none := by
  rw [find?, Option.map_eq_none_iff, List.find?_eq_none]
  rintro ⟨k', v⟩ hmem hk
  have hkk : k' = k := beq_iff_eq.mp hk
  exact h v (hkk ▸ hmem)

theorem mem_of_find?_eq_some {s : Store α} {k : Key} {v : α} (h : s.find? k = some v) :
    (k, v) ∈ s.cells := by
  obtain ⟨kv, hkv, rfl⟩ := Option.map_eq_some_iff.mp h
  have hp := List.find?_some hkv
  have hk : kv.1 = k := by simpa using hp
  rw [← hk]
  exact List.mem_of_find?_eq_some hkv

/-- A written cell is the first cell found at its key: the cells before it have other keys. -/
theorem find?_insertCell_self (k : Key) (v : α) (cells : List (Key × α)) :
    (insertCell k v cells).find? (·.1 == k) = some (k, v) := by
  induction cells with
  | nil => simp [insertCell]
  | cons kv rest ih =>
    unfold insertCell
    split
    · simp
    · split
      · simp
      · rename_i hne
        rw [List.find?_cons_of_neg (by simpa using Ne.symm hne), ih]

theorem mem_insertCell (k : Key) (v : α) (cells : List (Key × α)) : (k, v) ∈ insertCell k v cells :=
  List.mem_of_find?_eq_some (find?_insertCell_self k v cells)

/-- Writing a cell leaves the cells found at other keys. -/
theorem find?_insertCell_ne {k k' : Key} (hne : k ≠ k') (v : α) (cells : List (Key × α)) :
    (insertCell k v cells).find? (·.1 == k') = cells.find? (·.1 == k') := by
  induction cells with
  | nil => simp [insertCell, hne]
  | cons kv rest ih =>
    unfold insertCell
    split
    · rw [List.find?_cons_of_neg (by simpa using hne)]
    · split
      · rename_i heq
        subst heq
        rw [List.find?_cons_of_neg (by simpa using hne), List.find?_cons_of_neg (by simpa using hne)]
      · by_cases hkv : kv.1 = k'
        · rw [List.find?_cons_of_pos (by simpa using hkv), List.find?_cons_of_pos (by simpa using hkv)]
        · rw [List.find?_cons_of_neg (by simpa using hkv), List.find?_cons_of_neg (by simpa using hkv),
            ih]

/-- After a write, its key reads the value written and every other key reads as before. -/
theorem find?_set (s : Store α) (k k' : Key) (v : α) :
    (s.set k v).find? k' = if k = k' then some v else s.find? k' := by
  unfold find?
  split
  · rename_i heq
    subst heq
    rw [show (s.set k v).cells = insertCell k v s.cells from rfl, find?_insertCell_self]
    rfl
  · rename_i hne
    rw [show (s.set k v).cells = insertCell k v s.cells from rfl, find?_insertCell_ne hne]

end Store

theorem entries_set (m : SparseMatrix α) (r c : Nat) (v : α) :
    (m.set r c v).entries = Store.insertCell ⟨r, c⟩ v m.entries :=
  rfl

@[simp] theorem rowCount_set (m : SparseMatrix α) (r c : Nat) (v : α) :
    (m.set r c v).rowCount = max m.rowCount (Store.succSat r) :=
  rfl

@[simp] theorem colCount_set (m : SparseMatrix α) (r c : Nat) (v : α) :
    (m.set r c v).colCount = max m.colCount (Store.succSat c) :=
  rfl

/-- After `set r c v` the cell `(r, c)` reads `v` and every other cell reads as before. -/
theorem get_set [Arith α] (m : SparseMatrix α) (r c r' c' : Nat) (v : α) :
    (m.set r c v).get r' c' = if r = r' ∧ c = c' then v else m.get r' c' := by
  unfold get
  rw [show (m.set r c v).store = m.store.set ⟨r, c⟩ v from rfl, Store.find?_set]
  by_cases h : r = r' ∧ c = c'
  · obtain ⟨rfl, rfl⟩ := h
    simp
  · have hk : (⟨r, c⟩ : Key) ≠ ⟨r', c'⟩ := fun hk => h ⟨congrArg Key.row hk, congrArg Key.col hk⟩
    rw [if_neg hk, if_neg h]

/-! ## Bounds of a matrix given its cells -/

@[simp] theorem entries_withCells (m : SparseMatrix α) (cells : List (Key × α)) :
    (m.withCells cells).entries = cells :=
  rfl

@[simp] theorem range_withCells (m : SparseMatrix α) (cells : List (Key × α)) :
    (m.withCells cells).range = m.range :=
  rfl

@[simp] theorem rowCount_derived {β : Type} (m : SparseMatrix β) (rows cols : Nat) :
    (m.derived rows cols : SparseMatrix α).rowCount = rows :=
  rfl

@[simp] theorem colCount_derived {β : Type} (m : SparseMatrix β) (rows cols : Nat) :
    (m.derived rows cols : SparseMatrix α).colCount = cols :=
  rfl

@[simp] theorem range_derived {β : Type} (m : SparseMatrix β) (rows cols : Nat) :
    (m.derived rows cols : SparseMatrix α).range = m.range :=
  rfl

/-- A copy holds the cells of the matrix as they are: its chunks cover the list of cells once,
in order (`copyChunks_chunkCount_ok`). -/
theorem clone_eq (m : SparseMatrix α) :
    m.clone = { (m.derived m.rowCount m.colCount : SparseMatrix α) with
      device := m.device }.withCells m.entries := by
  unfold clone
  dsimp only
  split
  · rename_i cells hcopy
    rw [copyChunks_chunkCount_ok hcopy]
  · rfl

@[simp] theorem entries_clone (m : SparseMatrix α) : m.clone.entries = m.entries := by
  rw [clone_eq]
  rfl

@[simp] theorem get_clone [Arith α] (m : SparseMatrix α) : m.clone.get = m.get := by
  rw [clone_eq]
  rfl

theorem foldl_max_of_le {γ : Type} {l : List γ} {g : γ → Nat} {b : Nat}
    (h : ∀ x ∈ l, g x ≤ b) : l.foldl (fun r x => max r (g x)) b = b := by
  induction l with
  | nil => rfl
  | cons x l ih =>
    rw [List.foldl_cons, Nat.max_eq_left (h x (List.mem_cons_self ..))]
    exact ih fun y hy => h y (List.mem_cons_of_mem x hy)

theorem succSat_le {r n : Nat} (h : r < n) : Store.succSat r ≤ n := by
  unfold Store.succSat
  omega

/-- Cells inside the bounds leave the row count as it is. -/
theorem rowCount_withCells {m : SparseMatrix α} {cells : List (Key × α)}
    (h : ∀ kv ∈ cells, kv.1.row < m.rowCount) : (m.withCells cells).rowCount = m.rowCount :=
  foldl_max_of_le fun kv hkv => succSat_le (h kv hkv)

/-- Cells inside the bounds leave the column count as it is. -/
theorem colCount_withCells {m : SparseMatrix α} {cells : List (Key × α)}
    (h : ∀ kv ∈ cells, kv.1.col < m.colCount) : (m.withCells cells).colCount = m.colCount :=
  foldl_max_of_le fun kv hkv => succSat_le (h kv hkv)

/-- Cells inside `rows × cols` leave a matrix derived as `rows × cols` of that size. -/
theorem dims_withCells_derived {β : Type} (m : SparseMatrix β) {rows cols : Nat}
    {cells : List (Key × α)} (h : ∀ kx ∈ cells, kx.1.row < rows ∧ kx.1.col < cols) :
    ((m.derived rows cols : SparseMatrix α).withCells cells).dims = (rows, cols) := by
  rw [dims, rowCount_withCells (m := m.derived rows cols) fun kx hkx => (h kx hkx).1,
    colCount_withCells (m := m.derived rows cols) fun kx hkx => (h kx hkx).2]
  rfl

theorem foldl_max_le {γ : Type} {l : List γ} {g : γ → Nat} {b B : Nat} (hb : b ≤ B)
    (hg : ∀ x ∈ l, g x ≤ B) : l.foldl (fun r x => max r (g x)) b ≤ B := by
  induction l generalizing b with
  | nil => exact hb
  | cons x l ih =>
    rw [List.foldl_cons]
    exact ih (Nat.max_le.mpr ⟨hb, hg x (List.mem_cons_self ..)⟩) fun y hy =>
      hg y (List.mem_cons_of_mem x hy)

theorem succSat_le_wordMax (r : Nat) : Store.succSat r ≤ Text.wordMax :=
  Nat.min_le_right _ _

/-- Bounds that are machine words stay machine words, whatever the cells. -/
theorem rowCount_withCells_le {m : SparseMatrix α} (cells : List (Key × α))
    (h : m.rowCount ≤ Text.wordMax) : (m.withCells cells).rowCount ≤ Text.wordMax :=
  foldl_max_le h fun kv _ => succSat_le_wordMax kv.1.row

theorem colCount_withCells_le {m : SparseMatrix α} (cells : List (Key × α))
    (h : m.colCount ≤ Text.wordMax) : (m.withCells cells).colCount ≤ Text.wordMax :=
  foldl_max_le h fun kv _ => succSat_le_wordMax kv.1.col

/-! ## Cell lists that hold a function -/

section CellsOf

variable [Arith α]

/-- A cell list that holds the values `f`: its keys are distinct, each written value is
`f` at its key, and `f` is zero at every key with no cell. -/
structure CellsOf (cells : List (Key × α)) (f : Nat → Nat → α) : Prop where
  nodup : (cells.map Prod.fst).Nodup
  value : ∀ kv ∈ cells, kv.2 = f kv.1.row kv.1.col
  absent : ∀ r c, (∀ v, ((⟨r, c⟩ : Key), v) ∉ cells) → f r c = Arith.zero

namespace CellsOf

variable {cells cells' : List (Key × α)} {f : Nat → Nat → α}

/-- A matrix reads the values its cells hold. -/
theorem get_withCells (h : CellsOf cells f) (m : SparseMatrix α) (r c : Nat) :
    (m.withCells cells).get r c = f r c := by
  by_cases hmem : ∃ v, ((⟨r, c⟩ : Key), v) ∈ cells
  · obtain ⟨v, hv⟩ := hmem
    have hfind : (m.withCells cells).store.find? ⟨r, c⟩ = some v := Store.find?_of_mem h.nodup hv
    rw [get, hfind, Option.getD_some]
    exact h.value _ hv
  · have hnone : ∀ v, ((⟨r, c⟩ : Key), v) ∉ cells := fun v hv => hmem ⟨v, hv⟩
    have hfind : (m.withCells cells).store.find? ⟨r, c⟩ = none := Store.find?_eq_none hnone
    rw [get, hfind, Option.getD_none, h.absent r c hnone]

/-- Reordering the cells keeps the values they hold. -/
theorem perm (h : CellsOf cells f) (hp : cells.Perm cells') : CellsOf cells' f where
  nodup := (hp.map Prod.fst).nodup_iff.mp h.nodup
  value kv hkv := h.value kv (hp.mem_iff.mpr hkv)
  absent r c hr := h.absent r c fun v hv => hr v (hp.mem_iff.mp hv)

end CellsOf

/-- The cells of a diagonal, one per index below `n`, written whatever their value. -/
theorem cellsOf_diagonal (n : Nat) (g : Nat → α) :
    CellsOf ((List.range n).map fun i => ((⟨i, i⟩ : Key), g i))
      (fun r c => if r = c ∧ r < n then g r else Arith.zero) where
  nodup := by
    rw [List.map_map]
    refine List.Nodup.map ?_ List.nodup_range
    intro i j hij
    simpa using hij
  value kv hkv := by
    obtain ⟨i, hi, rfl⟩ := List.mem_map.mp hkv
    simp [List.mem_range.mp hi]
  absent r c hr := by
    rw [if_neg]
    rintro ⟨rfl, hlt⟩
    exact hr (g r) (List.mem_map.mpr ⟨r, List.mem_range.mpr hlt, rfl⟩)

theorem identity_eq [Host] (n : Nat) :
    (identity n : SparseMatrix α) =
      (zeros n n : SparseMatrix α).withCells ((List.range n).map fun i => ((⟨i, i⟩ : Key), Arith.one)) :=
  rfl

/-- The identity reads one on its diagonal and zero elsewhere. -/
theorem get_identity [Host] (n r c : Nat) :
    (identity n : SparseMatrix α).get r c = if r = c ∧ r < n then Arith.one else Arith.zero := by
  rw [identity_eq]
  exact (cellsOf_diagonal n fun _ => Arith.one).get_withCells _ r c

/-- The values of the identity, as a function, on every host. -/
theorem get_identity_eq [Host] (n : Nat) :
    (identity n : SparseMatrix α).get = fun r c => if r = c ∧ r < n then Arith.one else Arith.zero :=
  funext₂ (get_identity n)

omit [Arith α] in
theorem diagonal_cells_lt {n : Nat} (g : Nat → α) :
    ∀ kv ∈ (List.range n).map (fun i => ((⟨i, i⟩ : Key), g i)), kv.1.row < n ∧ kv.1.col < n := by
  intro kv hkv
  obtain ⟨i, hi, rfl⟩ := List.mem_map.mp hkv
  exact ⟨List.mem_range.mp hi, List.mem_range.mp hi⟩

@[simp] theorem rowCount_identity [Host] (n : Nat) : (identity n : SparseMatrix α).rowCount = n :=
  rowCount_withCells fun kv hkv => (diagonal_cells_lt _ kv hkv).1

@[simp] theorem colCount_identity [Host] (n : Nat) : (identity n : SparseMatrix α).colCount = n :=
  colCount_withCells fun kv hkv => (diagonal_cells_lt _ kv hkv).2

/-- The cells of the values of `f` at `keys` that are not zero, in the order of `keys`. -/
def nonzeroCells (keys : List Key) (f : Nat → Nat → α) : List (Key × α) :=
  keys.filterMap fun k => if Arith.isZero (f k.row k.col) then none else some (k, f k.row k.col)

theorem key_mem_of_mem_nonzeroCells {keys : List Key} {f : Nat → Nat → α} {kv : Key × α}
    (h : kv ∈ nonzeroCells keys f) : kv.1 ∈ keys := by
  obtain ⟨k, hk, hkv⟩ := List.mem_filterMap.mp h
  split at hkv
  · cases hkv
  · cases hkv
    exact hk

/-- Over distinct keys, the nonzero cells have distinct keys. -/
theorem nonzeroCells_nodup {keys : List Key} (hk : keys.Nodup) (f : Nat → Nat → α) :
    ((nonzeroCells keys f).map Prod.fst).Nodup := by
  rw [nonzeroCells, List.map_filterMap]
  refine List.Nodup.filterMap (fun k k' x hx hx' => ?_) hk
  split at hx <;> split at hx' <;> simp_all

/-- The nonzero values of `f` over distinct keys off which `f` is zero hold `f`, when the
zero test holds of zero alone. -/
theorem cellsOf_nonzeroCells_of_isZero {keys : List Key} (hk : keys.Nodup) {f : Nat → Nat → α}
    (hzero : ∀ {v : α}, Arith.isZero v = true → v = Arith.zero)
    (hf : ∀ r c, (⟨r, c⟩ : Key) ∉ keys → f r c = Arith.zero) : CellsOf (nonzeroCells keys f) f where
  nodup := nonzeroCells_nodup hk f
  value kv hkv := by
    obtain ⟨k, -, hkv⟩ := List.mem_filterMap.mp hkv
    split at hkv
    · cases hkv
    · cases hkv
      rfl
  absent r c hr := by
    by_cases hmem : (⟨r, c⟩ : Key) ∈ keys
    · by_cases hz : Arith.isZero (f r c) = true
      · exact hzero hz
      · refine absurd (List.mem_filterMap.mpr ⟨⟨r, c⟩, hmem, ?_⟩) (hr (f r c))
        simp [hz]
    · exact hf r c hmem

end CellsOf

/-! ## Exact values -/

section Exact

variable [CommRing α] [Arith α] [Width α] [ExactArith α]

/-- The nonzero values of `f` over distinct keys off which `f` vanishes hold `f`. -/
theorem cellsOf_nonzeroCells {keys : List Key} (hk : keys.Nodup) {f : Nat → Nat → α}
    (hf : ∀ r c, (⟨r, c⟩ : Key) ∉ keys → f r c = 0) : CellsOf (nonzeroCells keys f) f :=
  cellsOf_nonzeroCells_of_isZero hk (ExactArith.reading α).eq_zero_of_isZero
    fun r c hrc => (hf r c hrc).trans ExactArith.zero_eq.symm

/-- Two matrices of one size whose cells hold the same values are equal. -/
theorem beq_withCells {a b : SparseMatrix α} {cells cells' : List (Key × α)} {f : Nat → Nat → α}
    (ha : CellsOf cells f) (hb : CellsOf cells' f)
    (hdims : (a.withCells cells).dims = (b.withCells cells').dims) :
    (a.withCells cells).beq (b.withCells cells') = true := by
  have hentry : ∀ {cs : List (Key × α)} (m : SparseMatrix α), CellsOf cs f →
      (∀ r c, m.get r c = f r c) → ∀ kv ∈ cs, Arith.eq kv.2 (m.get kv.1.row kv.1.col) = true := by
    intro cs m hcs hm kv hkv
    rw [ExactArith.eq_iff, hm]
    exact hcs.value kv hkv
  simp only [beq, hdims, beq_self_eq_true, Bool.true_and, Bool.and_eq_true, List.all_eq_true,
    entries_withCells]
  exact ⟨hentry _ ha (hb.get_withCells b), hentry _ hb (ha.get_withCells a)⟩

end Exact

end SparseMatrix
