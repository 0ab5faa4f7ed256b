import SparseMatrix.Accelerator
import SparseMatrix.Document
import SparseMatrix.Sheet
import SparseMatrix.Proofs.Degree

/-!
# Written cells lie inside the bounds

A store's bounds are one past the largest row and column ever written, saturating at the
largest word (`Store.succSat`). `Store.Bounded slack s` says that every written cell of
`s` lies less than `slack` past its bounds: inside them when `slack` is zero, inside or on
them when it is one.

Every way of making a matrix keeps this (`Reachable.cells_within_bounds`): the
constructors and the readers give cells inside their bounds, the structural edits move
the cells with the bounds, and the operations build their results inside the size they
give them. Writes are the one place where the slack matters. A write below the largest
word grows the bounds past the cell; a write at the largest word cannot, as the bounds saturate there,
and leaves a cell on the bound (`set_last_row_saturates`). So the cells of a matrix lie
inside its bounds when no write reached the largest word, and inside or on them always.
-/

namespace SparseMatrix

variable {α β : Type}

namespace Store

/-- Every written cell lies less than `slack` past the bounds. -/
def Bounded (slack : Nat) (s : Store α) : Prop :=
  ∀ kv ∈ s.cells, kv.1.row < s.rows + slack ∧ kv.1.col < s.cols + slack

theorem bounded_withBounds (slack rows cols : Nat) :
    (withBounds rows cols : Store α).Bounded slack := by
  intro kv hkv
  cases hkv

/-- Fewer cells in larger bounds, with more slack, stay bounded. -/
theorem Bounded.mono {slack slack' : Nat} {s s' : Store α} (h : s.Bounded slack)
    (hcells : ∀ kv ∈ s'.cells, kv ∈ s.cells) (hrows : s.rows ≤ s'.rows) (hcols : s.cols ≤ s'.cols)
    (hslack : slack ≤ slack') : s'.Bounded slack' := by
  intro kv hkv
  have hin := h kv (hcells kv hkv)
  omega

theorem Bounded.of_zero {slack : Nat} {s : Store α} (h : s.Bounded 0) : s.Bounded slack :=
  h.mono (fun _ hkv => hkv) le_rfl le_rfl (Nat.zero_le slack)

/-! ## Writes -/

theorem mem_of_mem_insertCell {k : Key} {v : α} {cells : List (Key × α)} {kv : Key × α}
    (h : kv ∈ insertCell k v cells) : kv = (k, v) ∨ kv ∈ cells := by
  induction cells with
  | nil => simpa [insertCell] using h
  | cons c cells ih =>
    unfold insertCell at h
    split at h
    · simpa using h
    · split at h
      · rcases List.mem_cons.mp h with rfl | h
        · exact .inl rfl
        · exact .inr (List.mem_cons_of_mem c h)
      · rcases List.mem_cons.mp h with rfl | h
        · exact .inr (List.mem_cons_self ..)
        · rcases ih h with rfl | h
          · exact .inl rfl
          · exact .inr (List.mem_cons_of_mem c h)

/-- A write keeps the cells bounded when the written key lies within the bounds after
the write. -/
theorem Bounded.set_of_mem {slack : Nat} {s : Store α} {k : Key} (v : α) (h : s.Bounded slack)
    (hk : k.row < (s.set k v).rows + slack ∧ k.col < (s.set k v).cols + slack) :
    (s.set k v).Bounded slack := by
  intro kv hkv
  rcases mem_of_mem_insertCell hkv with rfl | hold
  · exact hk
  · have hin := h kv hold
    have hrows : s.rows ≤ (s.set k v).rows := Nat.le_max_left _ _
    have hcols : s.cols ≤ (s.set k v).cols := Nat.le_max_left _ _
    omega

/-- An index below the largest word, with slack, lies below the saturated successor. -/
theorem lt_succSat_add {slack r : Nat} (h : r < Text.wordMax + slack) : r < succSat r + slack := by
  unfold succSat
  omega

/-- A write at any key within the largest word, with slack, keeps the cells bounded: the
bounds grow past the key, up to the largest word. -/
theorem Bounded.set {slack : Nat} {s : Store α} {k : Key} (v : α) (h : s.Bounded slack)
    (hr : k.row < Text.wordMax + slack) (hc : k.col < Text.wordMax + slack) :
    (s.set k v).Bounded slack := by
  refine h.set_of_mem v ⟨?_, ?_⟩
  · exact Nat.lt_of_lt_of_le (lt_succSat_add hr) (Nat.add_le_add_right (Nat.le_max_right _ _) _)
  · exact Nat.lt_of_lt_of_le (lt_succSat_add hc) (Nat.add_le_add_right (Nat.le_max_right _ _) _)

/-- A write inside the bounds keeps the cells bounded. -/
theorem Bounded.set_of_lt {slack : Nat} {s : Store α} {k : Key} (v : α) (h : s.Bounded slack)
    (hr : k.row < s.rows) (hc : k.col < s.cols) : (s.set k v).Bounded slack := by
  refine h.set_of_mem v ⟨?_, ?_⟩
  · exact Nat.lt_of_lt_of_le hr (Nat.le_trans (Nat.le_max_left _ _) (Nat.le_add_right _ _))
  · exact Nat.lt_of_lt_of_le hc (Nat.le_trans (Nat.le_max_left _ _) (Nat.le_add_right _ _))

theorem Bounded.ensureBounds {slack : Nat} {s : Store α} (h : s.Bounded slack) (rows cols : Nat) :
    (s.ensureBounds rows cols).Bounded slack :=
  h.mono (fun _ hkv => hkv) (Nat.le_max_left _ _) (Nat.le_max_left _ _) le_rfl

theorem bounded_clear (slack : Nat) (s : Store α) : s.clear.Bounded slack :=
  bounded_withBounds slack 0 0

/-! ## Structural edits -/

theorem mem_rekey {s : Store α} {f : Key → Option Key} {kv : Key × α} (h : kv ∈ s.rekey f) :
    ∃ k, (k, kv.2) ∈ s.cells ∧ f k = some kv.1 := by
  obtain ⟨⟨k, v⟩, hmem, hf⟩ := List.mem_filterMap.mp h
  cases hk : f k with
  | none => simp [hk] at hf
  | some k' =>
    simp only [hk, Option.map_some, Option.some.injEq] at hf
    subst hf
    exact ⟨k, hmem, hk⟩

/-- Re-keyed cells are bounded when the new key of every cell lies within the new
bounds. -/
theorem Bounded.rekey {slack rows cols : Nat} {s : Store α} {f : Key → Option Key}
    (hf : ∀ k k' v, (k, v) ∈ s.cells → f k = some k' →
      k'.row < rows + slack ∧ k'.col < cols + slack) :
    (⟨rows, cols, s.rekey f⟩ : Store α).Bounded slack := by
  intro kv hkv
  obtain ⟨k, hmem, hk⟩ := mem_rekey hkv
  exact hf k kv.1 kv.2 hmem hk

theorem Bounded.deleteRow {slack index : Nat} {s s' : Store α} (h : s.Bounded slack)
    (hdel : s.deleteRow index = .ok s') : s'.Bounded slack := by
  unfold Store.deleteRow at hdel
  split at hdel
  · cases hdel
  · rename_i hindex
    cases hdel
    refine Bounded.rekey fun k k' v hmem hk => ?_
    have hin : k.row < s.rows + slack ∧ k.col < s.cols + slack := h _ hmem
    by_cases heq : k.row = index
    · simp [heq] at hk
    · by_cases hgt : k.row > index
      · simp only [heq, hgt, if_false, if_true, Option.some.injEq] at hk
        subst hk
        dsimp only
        omega
      · simp only [heq, hgt, if_false, Option.some.injEq] at hk
        subst hk
        omega

theorem Bounded.deleteColumn {slack index : Nat} {s s' : Store α} (h : s.Bounded slack)
    (hdel : s.deleteColumn index = .ok s') : s'.Bounded slack := by
  unfold Store.deleteColumn at hdel
  split at hdel
  · cases hdel
  · rename_i hindex
    cases hdel
    refine Bounded.rekey fun k k' v hmem hk => ?_
    have hin : k.row < s.rows + slack ∧ k.col < s.cols + slack := h _ hmem
    by_cases heq : k.col = index
    · simp [heq] at hk
    · by_cases hgt : k.col > index
      · simp only [heq, hgt, if_false, if_true, Option.some.injEq] at hk
        subst hk
        dsimp only
        omega
      · simp only [heq, hgt, if_false, Option.some.injEq] at hk
        subst hk
        omega

theorem Bounded.insertRow {slack index : Nat} {s s' : Store α} (h : s.Bounded slack)
    (hins : s.insertRow index = .ok s') : s'.Bounded slack := by
  unfold Store.insertRow at hins
  split at hins
  · cases hins
  split at hins
  · cases hins
  cases hins
  refine Bounded.rekey fun k k' v hmem hk => ?_
  have hin : k.row < s.rows + slack ∧ k.col < s.cols + slack := h _ hmem
  by_cases hle : index ≤ k.row
  · simp only [hle, if_true, Option.some.injEq] at hk
    subst hk
    dsimp only
    omega
  · simp only [hle, if_false, Option.some.injEq] at hk
    subst hk
    omega

theorem Bounded.insertColumn {slack index : Nat} {s s' : Store α} (h : s.Bounded slack)
    (hins : s.insertColumn index = .ok s') : s'.Bounded slack := by
  unfold Store.insertColumn at hins
  split at hins
  · cases hins
  split at hins
  · cases hins
  cases hins
  refine Bounded.rekey fun k k' v hmem hk => ?_
  have hin : k.row < s.rows + slack ∧ k.col < s.cols + slack := h _ hmem
  by_cases hle : index ≤ k.col
  · simp only [hle, if_true, Option.some.injEq] at hk
    subst hk
    dsimp only
    omega
  · simp only [hle, if_false, Option.some.injEq] at hk
    subst hk
    omega

end Store

/-! ## Matrices built from their cells -/

theorem le_foldl_max {γ : Type} (l : List γ) (g : γ → Nat) (b : Nat) :
    b ≤ l.foldl (fun r x => max r (g x)) b := by
  induction l generalizing b with
  | nil => exact Nat.le_refl b
  | cons x l ih => exact Nat.le_trans (Nat.le_max_left _ _) (ih _)

/-- Cells within the bounds of the matrix they are given to, with slack, stay so: the
bounds only grow. -/
theorem bounded_withCells {slack : Nat} {m : SparseMatrix α} {cells : List (Key × α)}
    (h : ∀ kv ∈ cells, kv.1.row < m.rowCount + slack ∧ kv.1.col < m.colCount + slack) :
    (m.withCells cells).store.Bounded slack := by
  intro kv hkv
  have hin := h kv hkv
  have hrows : m.rowCount ≤ (m.withCells cells).store.rows := le_foldl_max _ _ _
  have hcols : m.colCount ≤ (m.withCells cells).store.cols := le_foldl_max _ _ _
  omega

theorem bounded_new [Host] (slack : Nat) : (new : SparseMatrix α).store.Bounded slack :=
  Store.bounded_withBounds slack 0 0

theorem bounded_zeros [Host] (slack rows cols : Nat) :
    (zeros rows cols : SparseMatrix α).store.Bounded slack :=
  Store.bounded_withBounds slack rows cols

theorem bounded_clone {slack : Nat} {m : SparseMatrix α} (h : m.store.Bounded slack) :
    m.clone.store.Bounded slack := by
  rw [clone_eq]
  exact bounded_withCells h

/-- A diagonal of size `n` written into an `n × n` matrix lies inside it. -/
theorem bounded_diagonal {slack n : Nat} {m : SparseMatrix α} (hrows : m.rowCount = n)
    (hcols : m.colCount = n) (g : Nat → α) :
    (m.withCells ((List.range n).map fun i => ((⟨i, i⟩ : Key), g i))).store.Bounded slack :=
  bounded_withCells fun kv hkv => by
    obtain ⟨hr, hc⟩ := diagonal_cells_lt g kv hkv
    exact ⟨hrows ▸ Nat.lt_add_right _ hr, hcols ▸ Nat.lt_add_right _ hc⟩

section Values

variable [Arith α]

theorem bounded_identity [Host] (slack n : Nat) : (identity n : SparseMatrix α).store.Bounded slack :=
  bounded_diagonal rfl rfl _

theorem bounded_ofDense [Host] (slack : Nat) (d : Dense α) : (ofDense d).store.Bounded slack := by
  refine bounded_withCells fun kv hkv => ?_
  obtain ⟨r, hr, hkv⟩ := List.mem_flatMap.mp hkv
  obtain ⟨c, hc, hkc⟩ := List.mem_filterMap.mp hkv
  have hkey : kv.1 = ⟨r, c⟩ := by
    split at hkc
    · split at hkc
      · cases hkc
      · cases hkc
        rfl
    · cases hkc
  rw [hkey]
  exact ⟨Nat.lt_add_right _ (List.mem_range.mp hr), Nat.lt_add_right _ (List.mem_range.mp hc)⟩

theorem bounded_ofRows [Host] [Width α] {slack : Nat} {rows : List (List α)} {m : SparseMatrix α}
    (h : ofRows rows = .ok m) : m.store.Bounded slack := by
  unfold ofRows at h
  obtain ⟨d, -, h⟩ := bind_eq_ok h
  cases h
  exact bounded_ofDense slack d

theorem zipWith_bounded {a b m : SparseMatrix α} {op : String} {f : α → α → Except Fault α}
    (h : zipWith a b op f = .ok m) : m.store.Bounded 0 := by
  unfold zipWith at h
  split at h
  · cases h
  obtain ⟨rows, hrows, h⟩ := bind_eq_ok h
  cases h
  exact bounded_withCells (flatten_rows_lt (fun _ _ hi => rowOf_ok_keys hi) hrows)

theorem mapAll_bounded {a m : SparseMatrix α} {f : α → Except Fault α}
    (h : mapAll a f = .ok m) : m.store.Bounded 0 := by
  unfold mapAll at h
  obtain ⟨rows, hrows, h⟩ := bind_eq_ok h
  cases h
  exact bounded_withCells (flatten_rows_lt (fun _ _ hi => rowOf_ok_keys hi) hrows)

theorem dotProduct_bounded [Width α] {a b m : SparseMatrix α} (h : a.dotProduct b = .ok m) :
    m.store.Bounded 0 := by
  unfold dotProduct at h
  split at h
  · cases h
  obtain ⟨rows, hrows, h⟩ := bind_eq_ok h
  cases h
  refine bounded_withCells (flatten_rows_lt (fun i cells hi => ?_) hrows)
  obtain ⟨_, -, hi⟩ := bind_eq_ok hi
  exact rowOf_ok_keys hi

theorem timesPower_bounded [Width α] {slack : Nat} {m : SparseMatrix α} (k : Nat)
    {acc r : SparseMatrix α} (hacc : acc.store.Bounded slack) (h : timesPower m k acc = .ok r) :
    r.store.Bounded slack := by
  induction k generalizing acc with
  | zero =>
    cases h
    exact hacc
  | succ k ih =>
    rw [timesPower] at h
    obtain ⟨next, hnext, h⟩ := bind_eq_ok h
    exact ih (dotProduct_bounded hnext).of_zero h

/-- A power keeps the cells bounded: the zeroth is an identity, the first a copy, and the
others products. -/
theorem power_bounded [Width α] {slack e : Nat} {m r : SparseMatrix α} (hm : m.store.Bounded slack)
    (h : m.power e = .ok r) : r.store.Bounded slack := by
  unfold power at h
  obtain ⟨n, -, h⟩ := bind_eq_ok h
  by_cases he : e = 0
  · simp only [he, if_true] at h
    cases h
    exact bounded_diagonal rfl rfl _
  · simp only [he, if_false] at h
    exact timesPower_bounded _ (bounded_clone hm) h

/-- The inverse writes its cells inside `n × n`: one cell on the empty or `1 × 1` paths,
the diagonal on the diagonal path, and the cell `(k % n, k / n)` for each `k < n * n` on
the adjugate path. -/
theorem inverse_bounded [Width α] {m r : SparseMatrix α} (h : m.inverse = .ok r) :
    r.store.Bounded 0 := by
  unfold inverse at h
  obtain ⟨n, -, h⟩ := bind_eq_ok h
  obtain ⟨d, -, h⟩ := bind_eq_ok h
  by_cases hz : Arith.isZero d = true
  · simp only [hz, if_true] at h
    cases h
  simp only [hz, Bool.false_eq_true, if_false] at h
  by_cases h0 : n = 0
  · simp only [h0, if_true] at h
    cases h
    exact Store.bounded_withBounds 0 0 0
  simp only [h0, if_false] at h
  by_cases h1 : n = 1
  · subst h1
    simp only [if_true] at h
    obtain ⟨v, -, h⟩ := bind_eq_ok h
    cases h
    exact (Store.bounded_withBounds 0 1 1).set_of_lt v Nat.zero_lt_one Nat.zero_lt_one
  simp only [h1, if_false] at h
  by_cases hdiag : m.isDiagonal = true
  · simp only [hdiag, if_true] at h
    obtain ⟨cells, hcells, h⟩ := bind_eq_ok h
    cases h
    refine bounded_withCells fun kv hkv => ?_
    obtain ⟨i, -, hi, hbody⟩ := Range.mem_of_tryMap_ok hcells kv hkv
    obtain ⟨v, -, hbody⟩ := bind_eq_ok hbody
    injection hbody with hbody
    subst hbody
    exact ⟨hi, hi⟩
  simp only [hdiag, Bool.false_eq_true, if_false] at h
  obtain ⟨count, hcount, h⟩ := bind_eq_ok h
  obtain ⟨cells, hcells, h⟩ := bind_eq_ok h
  cases h
  obtain rfl := Size.fit_ok (liftFault_ok hcount)
  refine bounded_withCells fun kv hkv => ?_
  rw [sortCells, List.mem_mergeSort] at hkv
  obtain ⟨o, ho, hokv⟩ := List.mem_filterMap.mp hkv
  obtain ⟨k, -, hk, hbody⟩ := Range.mem_of_tryMap_ok hcells o ho
  obtain ⟨_, -, hbody⟩ := bind_eq_ok hbody
  obtain ⟨_, -, hbody⟩ := bind_eq_ok hbody
  obtain ⟨v, -, hbody⟩ := bind_eq_ok hbody
  injection hbody with hbody
  subst hbody
  split at hokv
  · cases hokv
  · cases hokv
    have hn : 0 < n := Nat.pos_of_ne_zero h0
    exact ⟨Nat.mod_lt k hn, Nat.div_lt_of_lt_mul hk⟩

end Values

/-- `select` keeps the keys of the cells it maps, in a matrix of the same bounds. -/
theorem select_bounded {slack : Nat} {m : SparseMatrix α} {f : α → Except Fault β}
    {m' : SparseMatrix β} (hm : m.store.Bounded slack) (h : m.select f = .ok m') :
    m'.store.Bounded slack := by
  unfold select at h
  obtain ⟨cells, hcells, h⟩ := bind_eq_ok h
  cases h
  refine bounded_withCells fun kv hkv => ?_
  obtain ⟨⟨k, v⟩, hmem, hkv'⟩ := mem_of_mapM_ok hcells kv hkv
  obtain ⟨w, -, hw⟩ := bind_eq_ok hkv'
  injection hw with hw
  subst hw
  exact hm _ hmem

theorem transpose_bounded {m m' : SparseMatrix α} (h : m.transpose = .ok m') :
    m'.store.Bounded 0 := by
  unfold transpose at h
  obtain ⟨_, -, h⟩ := bind_eq_ok h
  cases h
  refine bounded_withCells fun kv hkv => ?_
  rw [sortCells, List.mem_mergeSort] at hkv
  obtain ⟨⟨k, v⟩, hk, rfl⟩ := List.mem_map.mp hkv
  have hin : k.row < m.rowCount ∧ k.col < m.colCount := by
    simpa [inBounds] using (List.mem_filter.mp hk).2
  exact ⟨hin.2, hin.1⟩

theorem diag_bounded {v m : SparseMatrix α} (h : v.diag = .ok m) : m.store.Bounded 0 := by
  unfold diag at h
  split at h
  · cases h
  obtain ⟨_, -, h⟩ := bind_eq_ok h
  cases h
  refine bounded_withCells fun kv hkv => ?_
  obtain ⟨⟨k, x⟩, -, hkx⟩ := List.mem_filterMap.mp hkv
  dsimp only at hkx
  split at hkx
  · rename_i hk
    cases hkx
    exact ⟨hk.2, hk.2⟩
  · cases hkx

theorem diagVector_bounded {a m : SparseMatrix α} (h : a.diagVector = .ok m) :
    m.store.Bounded 0 := by
  unfold diagVector at h
  obtain ⟨n, hn, h⟩ := bind_eq_ok h
  obtain ⟨_, -, h⟩ := bind_eq_ok h
  cases h
  refine bounded_withCells fun kv hkv => ?_
  obtain ⟨⟨k, x⟩, -, hkx⟩ := List.mem_filterMap.mp hkv
  dsimp only at hkx
  split at hkx
  · rename_i hk
    cases hkx
    refine ⟨hk.2, ?_⟩
    show 0 < min n 1
    omega
  · cases hkx

theorem closeIndex_lt {i r n : Nat} (hi : i < n) (hr : r < n) (hne : r ≠ i) :
    closeIndex i r < n - 1 := by
  unfold closeIndex
  split <;> omega

theorem minor_bounded {m m' : SparseMatrix α} {i j : Nat} (h : m.minor i j = .ok m') :
    m'.store.Bounded 0 := by
  unfold minor at h
  by_cases hi : m.rowCount ≤ i
  · simp only [hi, if_true] at h
    cases h
  by_cases hj : m.colCount ≤ j
  · simp only [hi, hj, if_true, if_false] at h
    cases h
  simp only [hi, hj, if_false] at h
  obtain ⟨_, -, h⟩ := bind_eq_ok h
  cases h
  refine bounded_withCells fun kv hkv => ?_
  obtain ⟨⟨k, x⟩, -, hkx⟩ := List.mem_filterMap.mp hkv
  dsimp only at hkx
  split at hkx
  · cases hkx
  · rename_i hk
    cases hkx
    obtain ⟨hki, hkj, hkr, hkc⟩ :
        k.row ≠ i ∧ k.col ≠ j ∧ k.row < m.rowCount ∧ k.col < m.colCount := by
      omega
    exact ⟨closeIndex_lt (by omega) hkr hki, closeIndex_lt (by omega) hkc hkj⟩

/-! ## Operations -/

theorem map_eq_ok_cells {γ : Type} {g : γ → Outcome α} {x : Except Failure γ} {s : Store α}
    (h : g <$> x = .ok (.cells s)) : ∃ y, x = .ok y ∧ g y = .cells s := by
  cases x with
  | error e => cases h
  | ok y =>
    injection h with h
    exact ⟨y, rfl, h⟩

/-- The matrix an operation answers holds its cells within its bounds, with the slack of
its first operand: only `clone` and the first power copy the operand's cells. -/
theorem Op.run_bounded [Host] [Arith α] [Width α] {slack : Nat} (op : Op α) {a b : SparseMatrix α}
    {s : Store α} (ha : a.store.Bounded slack) (h : op.run a b = .ok (.cells s)) :
    s.Bounded slack := by
  cases op <;> simp only [Op.run] at h
  case clone =>
    injection h with h
    injection h with h
    exact h ▸ bounded_clone ha
  all_goals
    obtain ⟨y, hy, hs⟩ := map_eq_ok_cells h
    cases hs
  case add => exact (zipWith_bounded hy).of_zero
  case subtract => exact (zipWith_bounded hy).of_zero
  case multiplyScalar => exact (mapAll_bounded hy).of_zero
  case addScalar => exact (mapAll_bounded hy).of_zero
  case conjugate => exact (mapAll_bounded hy).of_zero
  case transpose => exact (transpose_bounded hy).of_zero
  case dotProduct => exact (dotProduct_bounded hy).of_zero
  case diag => exact (diag_bounded hy).of_zero
  case diagVector => exact (diagVector_bounded hy).of_zero
  case minor => exact (minor_bounded hy).of_zero
  case inverse => exact (inverse_bounded hy).of_zero
  case power => exact power_bounded ha hy

/-! ## Readers -/

/-- The cells of a sheet while record `r` of `n` fields is read: those of earlier records
inside the bounds so far, those of record `r` in its row, below its field count. -/
def SheetCells (r n : Nat) (s : Store α) : Prop :=
  ∀ kv ∈ s.cells, (kv.1.row < s.rows ∧ kv.1.col < s.cols) ∨ (kv.1.row = r ∧ kv.1.col < n)

theorem SheetCells.set {r n c : Nat} {s : Store α} (h : SheetCells r n s) (hc : c < n) (v : α) :
    SheetCells r n (s.set ⟨r, c⟩ v) := by
  intro kv hkv
  rcases Store.mem_of_mem_insertCell hkv with rfl | hold
  · exact .inr ⟨rfl, hc⟩
  · have hrows : s.rows ≤ (s.set ⟨r, c⟩ v).rows := Nat.le_max_left _ _
    have hcols : s.cols ≤ (s.set ⟨r, c⟩ v).cols := Nat.le_max_left _ _
    rcases h kv hold with ⟨hr, hc⟩ | hrec
    · exact .inl ⟨by omega, by omega⟩
    · exact .inr hrec

/-- Growing the bounds past the record's row and fields leaves every cell inside. -/
theorem SheetCells.ensureBounds {r n : Nat} {s : Store α} (h : SheetCells r n s) :
    (s.ensureBounds (r + 1) n).Bounded 0 := by
  intro kv hkv
  have hrows : s.rows ≤ (s.ensureBounds (r + 1) n).rows := Nat.le_max_left _ _
  have hcols : s.cols ≤ (s.ensureBounds (r + 1) n).cols := Nat.le_max_left _ _
  have hr : r + 1 ≤ (s.ensureBounds (r + 1) n).rows := Nat.le_max_right _ _
  have hn : n ≤ (s.ensureBounds (r + 1) n).cols := Nat.le_max_right _ _
  rcases h kv hkv with ⟨hkr, hkc⟩ | ⟨hkr, hkc⟩
  · exact ⟨by omega, by omega⟩
  · exact ⟨by omega, by omega⟩

section Readers

variable [Element α]

/-- A document's cells lie inside its declared size, which the matrix keeps: each cell is
checked against the size before it is written. -/
theorem ofDocument_bounded [Host] {lib : Json.Library} {text : String} {m : SparseMatrix α}
    (h : ofDocument lib text = .ok m) :
    m.store.Bounded 0 := by
  unfold ofDocument at h
  obtain ⟨_, -, h⟩ := bind_eq_ok h
  obtain ⟨⟨rows, cols, cells⟩, -, h⟩ := bind_eq_ok h
  dsimp only at h
  refine (foldlM_ok_invariant
    (P := fun t : SparseMatrix α => t.store.Bounded 0 ∧ rows ≤ t.rowCount ∧ cols ≤ t.colCount)
    ?step ?start h).1
  case start => exact ⟨Store.bounded_withBounds 0 rows cols, Nat.le_refl rows, Nat.le_refl cols⟩
  intro cell _ t t' ⟨ht, hrows, hcols⟩ hstep
  obtain ⟨k, -, hstep⟩ := bind_eq_ok hstep
  by_cases hkr : rows ≤ k.row
  · simp only [hkr, if_true] at hstep
    cases hstep
  by_cases hkc : cols ≤ k.col
  · simp only [hkr, hkc, if_true, if_false] at hstep
    cases hstep
  simp only [hkr, hkc, if_false] at hstep
  split at hstep
  · rename_i x _
    cases hstep
    refine ⟨ht.set_of_lt x (Nat.lt_of_lt_of_le (Nat.lt_of_not_le hkr) hrows)
      (Nat.lt_of_lt_of_le (Nat.lt_of_not_le hkc) hcols), ?_, ?_⟩
    · exact Nat.le_trans hrows (Nat.le_max_left _ _)
    · exact Nat.le_trans hcols (Nat.le_max_left _ _)
  · cases hstep

/-- A sheet's cells lie inside its bounds: a record writes only in its own row and below
its field count, and its bounds then grow to cover both. -/
theorem ofSheetText_bounded [Host] {csv : Csv.Library} {text : String} {m : SparseMatrix α}
    (h : ofSheetText csv text = .ok m) :
    m.store.Bounded 0 := by
  unfold ofSheetText at h
  dsimp only at h
  refine foldlM_ok_invariant (P := fun t : SparseMatrix α => t.store.Bounded 0) ?_ (bounded_new 0) h
  intro ⟨fields, r⟩ _ t t' ht hrec
  obtain ⟨u, hfields, hrec⟩ := bind_eq_ok hrec
  cases hrec
  refine SheetCells.ensureBounds (foldlM_ok_invariant
    (P := fun u : SparseMatrix α => SheetCells r fields.length u.store) ?_
    (fun kv hkv => .inl (ht kv hkv)) hfields)
  intro ⟨raw, c⟩ hc u u' hu hfield
  have hcn : c < fields.length := by
    have := (List.mem_zipIdx hc).2.1
    dsimp only at this
    omega
  dsimp only at hfield
  split at hfield
  · cases hfield
    exact hu
  · obtain ⟨o, -, hfield⟩ := bind_eq_ok hfield
    cases o with
    | none => cases hfield
    | some v =>
      cases hfield
      split
      · exact hu
      · exact hu.set hcn v

theorem loadSheet_bounded [Host] {csv : Csv.Library} {fs : FileSystem} {name : String}
    {contents : Option String} {m : SparseMatrix α} (h : loadSheet csv fs name contents = .ok m) : m.store.Bounded 0 := by
  unfold loadSheet at h
  obtain ⟨_, -, h⟩ := bind_eq_ok h
  obtain ⟨_, -, h⟩ := bind_eq_ok h
  split at h
  · cases h
  · exact ofSheetText_bounded h

/-- A device answers as a dense array does: one value per cell of its size. -/
def Device.WellFormed (d : Device α) : Prop :=
  ∀ x y p, d.matmul x y = .ok p → p.data.size = p.rows * p.cols

/-- The answer of a device lies inside its size when it holds one value per cell: value
`idx` is the cell `(idx / cols, idx % cols)`. -/
theorem ofDeviceAnswer_bounded (a : SparseMatrix α) {p : Dense α}
    (hp : p.data.size = p.rows * p.cols) : (ofDeviceAnswer a p).store.Bounded 0 := by
  refine bounded_withCells fun kv hkv => ?_
  obtain ⟨⟨v, idx⟩, hmem, hkv⟩ := List.mem_filterMap.mp hkv
  dsimp only at hkv
  split at hkv
  · cases hkv
  · cases hkv
    have hidx : idx < p.rows * p.cols := by
      have := (List.mem_zipIdx hmem).2.1
      rw [Array.length_toList, hp] at this
      omega
    have hcols : 0 < p.cols := Nat.pos_of_ne_zero fun h0 => by
      rw [h0, Nat.mul_zero] at hidx
      exact Nat.not_lt_zero _ hidx
    exact ⟨Nat.div_lt_of_lt_mul (by rw [Nat.mul_comm]; exact hidx), Nat.mod_lt idx hcols⟩

theorem dotProductWith_bounded {a b m : SparseMatrix α} {d : Device α} (hd : d.WellFormed)
    (h : (a.dotProductWith b d).2 = .ok m) : m.store.Bounded 0 := by
  unfold dotProductWith at h
  split at h
  · cases h
  split at h
  · cases h
  split at h
  · cases h
  · cases h
  · rename_i x y _ _
    obtain ⟨p, hp, h⟩ := bind_eq_ok h
    by_cases hdims : p.dims = (a.rowCount, b.colCount)
    · simp only [hdims, ne_eq, not_true_eq_false, if_false] at h
      cases h
      exact ofDeviceAnswer_bounded a (hd x y p hp)
    · simp only [hdims, ne_eq, not_false_eq_true, if_true] at h
      cases h

theorem dotProductBound_bounded {a b m : SparseMatrix α}
    (hd : ∀ d, a.device = some d → d.WellFormed) (h : (a.dotProductBound b).2 = .ok m) :
    m.store.Bounded 0 := by
  unfold dotProductBound at h
  split at h
  · cases h
  · rename_i d hdev
    exact dotProductWith_bounded (hd d hdev) h

end Readers

/-! ## Every matrix a program makes -/

/-- The stores of the matrices a program can make: from the constructors and the readers,
through writes, structural edits, `clear`, the operations, `select` and the products on a
device that answers as dense arrays do. A write reaches less than `slack` past the largest
word: with `slack = 1` any word is an index, with `slack = 0` the largest word is never
written. The configuration, token and device of a matrix leave its store as it is, so
the operands of an operation are any matrices with reachable stores. -/
inductive Reachable [Host] (slack : Nat) : {α : Type} → [Element α] → Store α → Prop where
  | new {α : Type} [Element α] : Reachable slack (new : SparseMatrix α).store
  | zeros {α : Type} [Element α] (rows cols : Nat) :
      Reachable slack (zeros rows cols : SparseMatrix α).store
  | identity {α : Type} [Element α] (n : Nat) : Reachable slack (identity n : SparseMatrix α).store
  | ofRows {α : Type} [Element α] {rows : List (List α)} {m : SparseMatrix α}
      (h : ofRows rows = .ok m) : Reachable slack m.store
  | ofDense {α : Type} [Element α] (d : Dense α) : Reachable slack (ofDense d).store
  | ofDocument {α : Type} [Element α] (lib : Json.Library) {text : String} {m : SparseMatrix α}
      (h : ofDocument lib text = .ok m) : Reachable slack m.store
  | loadSheet {α : Type} [Element α] (csv : Csv.Library) (fs : FileSystem) {name : String}
      {contents : Option String} {m : SparseMatrix α} (h : loadSheet csv fs name contents = .ok m) :
      Reachable slack m.store
  | set {α : Type} [Element α] {s : Store α} (k : Key) (v : α) (hs : Reachable slack s)
      (hr : k.row < Text.wordMax + slack) (hc : k.col < Text.wordMax + slack) :
      Reachable slack (s.set k v)
  | deleteRow {α : Type} [Element α] {s s' : Store α} {index : Nat} (hs : Reachable slack s)
      (h : s.deleteRow index = .ok s') : Reachable slack s'
  | deleteColumn {α : Type} [Element α] {s s' : Store α} {index : Nat} (hs : Reachable slack s)
      (h : s.deleteColumn index = .ok s') : Reachable slack s'
  | insertRow {α : Type} [Element α] {s s' : Store α} {index : Nat} (hs : Reachable slack s)
      (h : s.insertRow index = .ok s') : Reachable slack s'
  | insertColumn {α : Type} [Element α] {s s' : Store α} {index : Nat} (hs : Reachable slack s)
      (h : s.insertColumn index = .ok s') : Reachable slack s'
  | clear {α : Type} [Element α] {s : Store α} (hs : Reachable slack s) : Reachable slack s.clear
  | run {α : Type} [Element α] {a b : SparseMatrix α} {s : Store α} (op : Op α)
      (ha : Reachable slack a.store) (hb : Reachable slack b.store)
      (h : op.run a b = .ok (.cells s)) : Reachable slack s
  | select {α β : Type} [Element α] [Element β] {m : SparseMatrix α} {f : α → Except Fault β}
      {m' : SparseMatrix β} (hm : Reachable slack m.store) (h : m.select f = .ok m') :
      Reachable slack m'.store
  | dotProductWith {α : Type} [Element α] {a b m : SparseMatrix α} {d : Device α}
      (hd : d.WellFormed) (ha : Reachable slack a.store) (hb : Reachable slack b.store)
      (h : (a.dotProductWith b d).2 = .ok m) : Reachable slack m.store
  | dotProductBound {α : Type} [Element α] {a b m : SparseMatrix α}
      (hd : ∀ d, a.device = some d → d.WellFormed) (ha : Reachable slack a.store)
      (hb : Reachable slack b.store) (h : (a.dotProductBound b).2 = .ok m) : Reachable slack m.store

/-- Every matrix a program makes holds its cells less than `slack` past its bounds, when
its writes reach less than `slack` past the largest word: inside the bounds when no write
reached the largest word, and inside or on them whatever the writes. -/
theorem Reachable.cells_within_bounds [Host] {slack : Nat} {α : Type} [Element α] {s : Store α}
    (h : Reachable slack s) : s.Bounded slack := by
  induction h with
  | new => exact bounded_new slack
  | zeros rows cols => exact bounded_zeros slack rows cols
  | identity n => exact bounded_identity slack n
  | ofRows h => exact bounded_ofRows h
  | ofDense d => exact bounded_ofDense slack d
  | ofDocument _ h => exact (ofDocument_bounded h).of_zero
  | loadSheet _ _ h => exact (loadSheet_bounded h).of_zero
  | set k v _ hr hc ih => exact ih.set v hr hc
  | deleteRow _ h ih => exact ih.deleteRow h
  | deleteColumn _ h ih => exact ih.deleteColumn h
  | insertRow _ h ih => exact ih.insertRow h
  | insertColumn _ h ih => exact ih.insertColumn h
  | clear _ _ => exact Store.bounded_clear slack _
  | run op _ _ h iha _ => exact op.run_bounded iha h
  | select _ h ih => exact select_bounded ih h
  | dotProductWith hd _ _ h _ _ => exact (dotProductWith_bounded hd h).of_zero
  | dotProductBound hd _ _ h _ _ => exact (dotProductBound_bounded hd h).of_zero

open Host in
/-- A write at the largest row leaves its cell on the row bound, which saturates there. -/
theorem cells_within_bounds_last_row :
    Reachable 1 ((new : SparseMatrix Int64).store.set ⟨Text.wordMax, 0⟩ 1) ∧
      ((new : SparseMatrix Int64).store.set ⟨Text.wordMax, 0⟩ 1).Bounded 1 :=
  have h : Reachable 1 ((new : SparseMatrix Int64).store.set ⟨Text.wordMax, 0⟩ 1) :=
    .set _ _ .new (Nat.lt_succ_self _) (Nat.succ_pos _)
  ⟨h, Reachable.cells_within_bounds h⟩

open Host in
/-- Writing the cell at the largest row of a new matrix leaves it on the row bound, not
inside it: the bound saturates at the largest word. -/
theorem set_last_row_saturates :
    Reachable 1 ((new : SparseMatrix Int64).store.set ⟨Text.wordMax, 0⟩ 1) ∧
      ¬((new : SparseMatrix Int64).store.set ⟨Text.wordMax, 0⟩ 1).Bounded 0 := by
  refine ⟨.set _ _ .new (Nat.lt_succ_self _) (Nat.succ_pos _), fun h => ?_⟩
  have hcell : Text.wordMax < ((new : SparseMatrix Int64).store.set ⟨Text.wordMax, 0⟩ 1).rows + 0 :=
    (h (⟨Text.wordMax, 0⟩, 1) (List.mem_singleton_self _)).1
  have hrows : ((new : SparseMatrix Int64).store.set ⟨Text.wordMax, 0⟩ 1).rows = Text.wordMax := by
    decide
  rw [hrows, Nat.add_zero] at hcell
  exact Nat.lt_irrefl _ hcell

end SparseMatrix
