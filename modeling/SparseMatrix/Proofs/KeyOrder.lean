import SparseMatrix.Proofs.Bounds
import Mathlib.Data.List.Forall2

/-!
# Cells in row-major key order

A store lists its cells in row-major key order, each key once: their keys strictly
increase (`KeyOrdered`). Every store a program makes is so (`Reachable.cells_ordered`).

The algorithms produce their cells in a few ways, and each keeps the order:

* an insertion at its place (`KeyOrdered.insertCell`), and a re-keying that keeps the order
  of the keys it keeps (`KeyOrdered.filterMap`), as the structural
  edits, `diag`, `diagVector` and `minor` do;
* rows computed one by one by a loop, each in its own row and in column order
  (`keyOrdered_flatten_rows`): a loop answers the body's results in index order, whatever
  its chunks (`Range.forall₂_tryMap`);
* a sort of cells whose keys are distinct (`keyOrdered_sortCells`), as the transpose and the
  adjugate do;
* a diagonal, a dense array read row by row, and the values of a device's answer by
  position (`keyOrdered_ofDeviceAnswer`).
-/

namespace SparseMatrix

variable {α β γ ε : Type}

/-! ## Row-major order -/

namespace Key

theorem before_iff {a b : Key} :
    a.before b = true ↔ a.row < b.row ∨ (a.row = b.row ∧ a.col < b.col) := by
  simp [before]

theorem before_irrefl (a : Key) : a.before a = false := by
  simp [before]

theorem before_trans {a b c : Key} (hab : a.before b = true) (hbc : b.before c = true) :
    a.before c = true := by
  rw [before_iff] at hab hbc ⊢
  omega

theorem before_asymm {a b : Key} (h : a.before b = true) : b.before a = false := by
  rw [← Bool.not_eq_true, before_iff]
  rw [before_iff] at h
  omega

theorem ne_of_before {a b : Key} (h : a.before b = true) : a ≠ b := by
  rintro rfl
  rw [before_irrefl] at h
  cases h

/-- Two distinct keys come one before the other. -/
theorem before_or_before {a b : Key} (h : a ≠ b) : a.before b = true ∨ b.before a = true := by
  rw [before_iff, before_iff]
  obtain ⟨ar, ac⟩ := a
  obtain ⟨br, bc⟩ := b
  simp only [ne_eq, Key.mk.injEq] at h ⊢
  omega

end Key

/-- Cells whose keys strictly increase in row-major order: sorted, each key once. -/
def KeyOrdered (cells : List (Key × α)) : Prop :=
  cells.Pairwise fun a b => a.1.before b.1 = true

theorem keyOrdered_nil : KeyOrdered ([] : List (Key × α)) :=
  List.Pairwise.nil

/-- Cells in key order have distinct keys. -/
theorem KeyOrdered.nodup {cells : List (Key × α)} (h : KeyOrdered cells) :
    (cells.map Prod.fst).Nodup :=
  List.pairwise_map.mpr (h.imp Key.ne_of_before)

/-! ## Results in the order of their indices -/

/-- A relation between two lists carries the order of the first to the second. -/
theorem pairwise_of_forall₂ {R : γ → β → Prop} {P : γ → γ → Prop} {Q : β → β → Prop}
    {l : List γ} {xs : List β} (h : List.Forall₂ R l xs) (hl : l.Pairwise P)
    (hPQ : ∀ a b x y, R a x → R b y → P a b → Q x y) : xs.Pairwise Q := by
  induction h with
  | nil => exact List.Pairwise.nil
  | @cons a x l xs hax hrest ih =>
    obtain ⟨ha, hl⟩ := List.pairwise_cons.mp hl
    refine List.pairwise_cons.mpr ⟨fun y hy => ?_, ih hl⟩
    obtain ⟨b, hb, hby⟩ : ∃ b ∈ l, R b y := by
      obtain ⟨i, hi, rfl⟩ := List.getElem_of_mem hy
      have hlen := hrest.length_eq
      exact ⟨l[i], List.getElem_mem _, List.forall₂_iff_get.mp hrest |>.2 i (by omega) hi⟩
    exact hPQ a b x y hax hby (ha b hb)

theorem forall₂_mapM {l : List γ} {f : γ → Except ε β} {xs : List β} (h : l.mapM f = .ok xs) :
    List.Forall₂ (fun a x => f a = .ok x) l xs := by
  induction l generalizing xs with
  | nil =>
    cases h
    exact List.Forall₂.nil
  | cons a l ih =>
    rw [List.mapM_cons] at h
    obtain ⟨y, hy, h⟩ := bind_eq_ok h
    obtain ⟨ys, hys, h⟩ := bind_eq_ok h
    cases h
    exact List.Forall₂.cons hy (ih hys)

/-- The results of a `filterMapM` that succeeds are those the function keeps, in order, on a
sublist of its elements. -/
theorem forall₂_filterMapM {l : List γ} {g : γ → Except ε (Option β)} {ys : List β}
    (h : l.filterMapM g = .ok ys) :
    ∃ l', List.Sublist l' l ∧ List.Forall₂ (fun a y => g a = .ok (some y)) l' ys := by
  induction l generalizing ys with
  | nil =>
    cases h
    exact ⟨[], List.Sublist.slnil, List.Forall₂.nil⟩
  | cons a l ih =>
    rw [List.filterMapM_cons] at h
    obtain ⟨o, ho, h⟩ := bind_eq_ok h
    cases o with
    | none =>
      obtain ⟨l', hl', hys⟩ := ih h
      exact ⟨l', hl'.cons a, hys⟩
    | some z =>
      obtain ⟨zs, hzs, h⟩ := bind_eq_ok h
      cases h
      obtain ⟨l', hl', hzs'⟩ := ih hzs
      exact ⟨a :: l', hl'.cons_cons a, List.Forall₂.cons ho hzs'⟩

namespace Range

/-- A loop that succeeds answers the body's results in index order, on the indices of a
prefix of its range: all of them once its degree is positive. -/
theorem forall₂_tryMap {r : Range} {width start stop : Nat} {body : Nat → Except Failure β}
    {xs : List β} (h : r.tryMap width start stop body = .ok xs) :
    ∃ idx, List.Sublist idx (List.range' start (stop - start)) ∧
      List.Forall₂ (fun i x => body i = .ok x) idx xs := by
  rcases tryMap_ok_inv h with rfl | ⟨ys, hys, rfl⟩
  · exact ⟨[], List.nil_sublist _, List.Forall₂.nil⟩
  have hrun : List.Forall₂ (List.Forall₂ fun i x => body i = .ok x)
      ((List.range (r.chunkCount (stop - start))).map
        (chunkIndices start (stop - start) (r.chunkCount (stop - start)))) ys := by
    rw [List.forall₂_map_left_iff]
    exact (forall₂_mapM hys).imp fun c y hc => forall₂_mapM hc
  refine ⟨_, ?_, List.rel_flatten hrun⟩
  rw [chunks_flatten]
  refine List.range'_sublist_right.mpr ?_
  by_cases hc : 0 < r.chunkCount (stop - start)
  · exact chunkStart_le hc (Nat.le_refl _)
  · rw [Nat.eq_zero_of_not_pos hc, chunkStart_zero]
    exact Nat.zero_le _

/-- A loop that succeeds answers results related as the indices they come from are. -/
theorem pairwise_tryMap {r : Range} {width start stop : Nat} {body : Nat → Except Failure β}
    {xs : List β} {Q : β → β → Prop} (h : r.tryMap width start stop body = .ok xs)
    (hQ : ∀ i j x y, i < j → body i = .ok x → body j = .ok y → Q x y) : xs.Pairwise Q := by
  obtain ⟨idx, hsub, hfa⟩ := forall₂_tryMap h
  exact pairwise_of_forall₂ hfa (List.Pairwise.sublist hsub List.pairwise_lt_range')
    fun i j x y hx hy hij => hQ i j x y hij hx hy

end Range

/-! ## Writes and re-keyings -/

/-- Writing a cell keeps the cells in key order: it goes in at its place, or replaces the
cell of its key. -/
theorem KeyOrdered.insertCell {cells : List (Key × α)} (h : KeyOrdered cells) (k : Key) (v : α) :
    KeyOrdered (Store.insertCell k v cells) := by
  induction cells with
  | nil => exact List.pairwise_singleton _ _
  | cons c cells ih =>
    obtain ⟨k', v'⟩ := c
    obtain ⟨hc, hcells⟩ := List.pairwise_cons.mp h
    unfold Store.insertCell
    split
    · rename_i hkk'
      refine List.pairwise_cons.mpr ⟨fun b hb => ?_, h⟩
      rcases List.mem_cons.mp hb with rfl | hb
      · exact hkk'
      · exact Key.before_trans hkk' (hc b hb)
    split
    · rename_i hkk'
      subst hkk'
      exact List.pairwise_cons.mpr ⟨hc, hcells⟩
    · -- the new key comes after this cell's
      rename_i hkk' hne
      have hk'k : k'.before k = true :=
        (Key.before_or_before hne).resolve_left (by simpa using hkk')
      refine List.pairwise_cons.mpr ⟨fun b hb => ?_, ih hcells⟩
      rcases Store.mem_of_mem_insertCell hb with rfl | hb
      · exact hk'k
      · exact hc b hb

/-- Mapping cells to cells keeps the key order when the map keeps the order of the cells it
keeps. -/
theorem KeyOrdered.filterMap {cells : List (Key × α)} (h : KeyOrdered cells)
    {f : Key × α → Option (Key × β)}
    (hf : ∀ a b, a.1.before b.1 = true → ∀ a', f a = some a' → ∀ b', f b = some b' →
      a'.1.before b'.1 = true) :
    KeyOrdered (cells.filterMap f) :=
  List.Pairwise.filterMap f hf h

/-! ## Sorting -/

/-- The order `sortCells` sorts by: a cell comes no later than another unless its key
comes after the other's. -/
theorem sortCells_order_trans (a b c : Key × α) (hab : (!b.1.before a.1) = true)
    (hbc : (!c.1.before b.1) = true) : (!c.1.before a.1) = true := by
  simp only [Key.before, Bool.not_eq_true', Bool.or_eq_false_iff, Bool.and_eq_false_iff,
    decide_eq_false_iff_not, beq_eq_false_iff_ne, ne_eq] at hab hbc ⊢
  omega

theorem sortCells_order_total (a b : Key × α) : ((!b.1.before a.1) || !a.1.before b.1) = true := by
  simp only [Key.before, Bool.or_eq_true, Bool.not_eq_true', Bool.or_eq_false_iff,
    Bool.and_eq_false_iff, decide_eq_false_iff_not, beq_eq_false_iff_ne, ne_eq]
  omega

/-- Sorting cells of distinct keys puts them in key order. -/
theorem keyOrdered_sortCells {cells : List (Key × α)} (h : (cells.map Prod.fst).Nodup) :
    KeyOrdered (sortCells cells) := by
  have hle : (sortCells cells).Pairwise fun a b => (!b.1.before a.1) = true :=
    List.pairwise_mergeSort sortCells_order_trans sortCells_order_total cells
  have hnd : ((sortCells cells).map Prod.fst).Nodup :=
    (((List.mergeSort_perm cells _).map Prod.fst).nodup_iff).mpr h
  refine (hle.and (List.pairwise_map.mp hnd)).imp fun ⟨hba, hne⟩ => ?_
  exact (Key.before_or_before hne).resolve_right (by simpa using hba)

/-! ## Rows -/

/-- Rows computed one by one by a loop over the row indices, each in its own row and in
key order, are in key order one after another. -/
theorem keyOrdered_flatten_rows {r : Range} {width n : Nat}
    {body : Nat → Except Failure (List (Key × α))} {rows : List (List (Key × α))}
    (hbody : ∀ i cells, body i = .ok cells → KeyOrdered cells ∧ ∀ kv ∈ cells, kv.1.row = i)
    (h : r.tryMap width 0 n body = .ok rows) : KeyOrdered rows.flatten := by
  refine List.pairwise_flatten.mpr ⟨fun cells hcells => ?_, ?_⟩
  · obtain ⟨i, -, -, hi⟩ := Range.mem_of_tryMap_ok h cells hcells
    exact (hbody i cells hi).1
  · refine Range.pairwise_tryMap h fun i j x y hij hx hy a ha b hb => ?_
    rw [Key.before_iff, (hbody i x hx).2 a ha, (hbody j y hy).2 b hb]
    exact .inl hij

/-- The cell `rowOf` keeps at column `c` of row `r` has the key `(r, c)`. -/
theorem rowOf_body_key [Arith α] {r c : Nat} {f : Nat → Except Fault α} {z : Key × α}
    (h : (liftM (f c) >>= fun v =>
      pure (if Arith.isZero v = true then none else some ((⟨r, c⟩ : Key), v)) :
        Except Failure (Option (Key × α))) = .ok (some z)) :
    z.1 = ⟨r, c⟩ := by
  obtain ⟨v, -, hv⟩ := bind_eq_ok h
  injection hv with hv
  split at hv
  · cases hv
  · cases hv
    rfl

/-- A row computed by `rowOf` is in its row, in column order. -/
theorem rowOf_ok_ordered [Arith α] {r cols : Nat} {f : Nat → Except Fault α}
    {cells : List (Key × α)} (h : rowOf r cols f = .ok cells) :
    KeyOrdered cells ∧ ∀ kv ∈ cells, kv.1.row = r := by
  refine ⟨?_, fun kv hkv => (rowOf_ok_keys h kv hkv).1⟩
  obtain ⟨cs, hsub, hfa⟩ := forall₂_filterMapM h
  refine pairwise_of_forall₂ hfa (List.Pairwise.sublist hsub List.pairwise_lt_range)
    fun c c' x y hx hy hcc' => ?_
  rw [rowOf_body_key hx, rowOf_body_key hy, Key.before_iff]
  exact .inr ⟨rfl, hcc'⟩

/-! ## Diagonals, dense arrays and device answers -/

theorem keyOrdered_diagonal (n : Nat) (g : Nat → α) :
    KeyOrdered ((List.range n).map fun i => ((⟨i, i⟩ : Key), g i)) :=
  List.pairwise_map.mpr (List.pairwise_lt_range.imp fun hij => Key.before_iff.mpr (.inl hij))

/-- Cells read row by row, each row in column order, where the cell read at `(r, c)` has
that key, come in key order. -/
theorem keyOrdered_grid {rows cols : Nat} {f : Nat → Nat → Option (Key × α)}
    (hf : ∀ r c kv, f r c = some kv → kv.1 = ⟨r, c⟩) :
    KeyOrdered ((List.range rows).flatMap fun r => (List.range cols).filterMap (f r)) := by
  refine List.pairwise_flatMap.mpr ⟨fun r _ => ?_, ?_⟩
  · refine List.pairwise_lt_range.filterMap _ fun c c' hcc' kv hkv kv' hkv' => ?_
    rw [hf r c kv hkv, hf r c' kv' hkv', Key.before_iff]
    exact .inr ⟨rfl, hcc'⟩
  · refine List.pairwise_lt_range.imp fun {r r'} hrr' kv hkv kv' hkv' => ?_
    obtain ⟨c, -, hc⟩ := List.mem_filterMap.mp hkv
    obtain ⟨c', -, hc'⟩ := List.mem_filterMap.mp hkv'
    rw [hf r c kv hc, hf r' c' kv' hc', Key.before_iff]
    exact .inl hrr'

/-- The cells of a dense array, read row by row and in column order in each row. -/
theorem keyOrdered_ofDense [Host] [Arith α] (d : Dense α) : KeyOrdered (ofDense d).store.cells := by
  refine keyOrdered_grid fun r c kv h => ?_
  split at h
  · split at h
    · cases h
    · cases h
      rfl
  · cases h

theorem pairwise_zipIdx (l : List α) (k : Nat) : (l.zipIdx k).Pairwise fun a b => a.2 < b.2 := by
  induction l generalizing k with
  | nil => exact List.Pairwise.nil
  | cons a l ih =>
    rw [List.zipIdx_cons]
    refine List.pairwise_cons.mpr ⟨fun b hb => ?_, ih (k + 1)⟩
    have := (List.mem_zipIdx (x := b.1) (i := b.2) hb).1
    dsimp only
    omega

/-- Position `idx` of a row-major array of rows `n` long is the key `(idx / n, idx % n)`:
later positions have later keys, whatever `n`. -/
theorem key_before_of_lt {n idx idx' : Nat} (h : idx < idx') :
    (⟨idx / n, idx % n⟩ : Key).before ⟨idx' / n, idx' % n⟩ = true := by
  rw [Key.before_iff]
  dsimp only
  by_cases hq : idx / n = idx' / n
  · have h1 := Nat.div_add_mod idx n
    have h2 := Nat.div_add_mod idx' n
    rw [hq] at h1
    omega
  · have := Nat.div_le_div_right (c := n) (Nat.le_of_lt h)
    omega

theorem keyOrdered_ofDeviceAnswer [Element α] (a : SparseMatrix α) (p : Dense α) :
    KeyOrdered (ofDeviceAnswer a p).store.cells := by
  refine (pairwise_zipIdx p.data.toList 0).filterMap _ fun x y hxy kx hx ky hy => ?_
  dsimp only at hx hy
  split at hx
  · cases hx
  split at hy
  · cases hy
  cases hx
  cases hy
  exact key_before_of_lt hxy

/-! ## Operations -/

theorem key_of_ite_some {c : Bool} {k : Key} {v : α} {a : Key × α}
    (h : (if c = true then none else some (k, v)) = some a) : a.1 = k := by
  split at h
  · cases h
  · cases h
    rfl

section Values

variable [Arith α] {a b m : SparseMatrix α}

theorem keyOrdered_identity [Host] (n : Nat) : KeyOrdered (identity n : SparseMatrix α).store.cells :=
  keyOrdered_diagonal n _

theorem zipWith_ordered {op : String} {f : α → α → Except Fault α} (h : zipWith a b op f = .ok m) :
    KeyOrdered m.store.cells := by
  unfold zipWith at h
  split at h
  · cases h
  obtain ⟨rows, hrows, h⟩ := bind_eq_ok h
  cases h
  exact keyOrdered_flatten_rows (fun _ _ hi => rowOf_ok_ordered hi) hrows

theorem mapAll_ordered {f : α → Except Fault α} (h : mapAll a f = .ok m) :
    KeyOrdered m.store.cells := by
  unfold mapAll at h
  obtain ⟨rows, hrows, h⟩ := bind_eq_ok h
  cases h
  exact keyOrdered_flatten_rows (fun _ _ hi => rowOf_ok_ordered hi) hrows

theorem dotProduct_ordered [Width α] (h : a.dotProduct b = .ok m) : KeyOrdered m.store.cells := by
  unfold dotProduct at h
  split at h
  · cases h
  obtain ⟨rows, hrows, h⟩ := bind_eq_ok h
  cases h
  refine keyOrdered_flatten_rows (fun i cells hi => ?_) hrows
  obtain ⟨_, -, hi⟩ := bind_eq_ok hi
  exact rowOf_ok_ordered hi

theorem timesPower_ordered [Width α] (k : Nat) {acc r : SparseMatrix α}
    (hacc : KeyOrdered acc.store.cells) (h : timesPower m k acc = .ok r) : KeyOrdered r.store.cells := by
  induction k generalizing acc with
  | zero =>
    cases h
    exact hacc
  | succ k ih =>
    rw [timesPower] at h
    obtain ⟨next, hnext, h⟩ := bind_eq_ok h
    exact ih (dotProduct_ordered hnext) h

/-- A power is in key order: the zeroth is an identity, the first a copy, and the others
products. -/
theorem power_ordered [Width α] {e : Nat} {r : SparseMatrix α} (hm : KeyOrdered m.store.cells)
    (h : m.power e = .ok r) : KeyOrdered r.store.cells := by
  unfold power at h
  obtain ⟨n, -, h⟩ := bind_eq_ok h
  by_cases he : e = 0
  · simp only [he, if_true] at h
    cases h
    exact keyOrdered_diagonal n _
  · simp only [he, if_false] at h
    have hcopy : KeyOrdered m.clone.entries := by rw [entries_clone]; exact hm
    exact timesPower_ordered _ hcopy h

/-- The inverse is in key order: one cell on the empty and `1 × 1` paths, the diagonal in
index order on the diagonal path, and on the adjugate path the sorted cells
`(k % n, k / n)`, distinct for distinct `k`. -/
theorem inverse_ordered [Width α] {r : SparseMatrix α} (h : m.inverse = .ok r) :
    KeyOrdered r.store.cells := by
  unfold inverse at h
  obtain ⟨n, -, h⟩ := bind_eq_ok h
  obtain ⟨d, -, h⟩ := bind_eq_ok h
  by_cases hz : Arith.isZero d = true
  · simp only [hz, if_true] at h
    cases h
  simp only [hz, Bool.false_eq_true, if_false] at h
  by_cases h0 : n = 0
  · simp only [h0, if_true] at h
    cases h
    exact keyOrdered_nil
  simp only [h0, if_false] at h
  by_cases h1 : n = 1
  · subst h1
    simp only [if_true] at h
    obtain ⟨v, -, h⟩ := bind_eq_ok h
    cases h
    exact keyOrdered_nil.insertCell _ v
  simp only [h1, if_false] at h
  by_cases hdiag : m.isDiagonal = true
  · simp only [hdiag, if_true] at h
    obtain ⟨cells, hcells, h⟩ := bind_eq_ok h
    cases h
    refine Range.pairwise_tryMap hcells fun i j x y hij hx hy => ?_
    obtain ⟨v, -, hx⟩ := bind_eq_ok hx
    obtain ⟨w, -, hy⟩ := bind_eq_ok hy
    injection hx with hx
    injection hy with hy
    subst hx hy
    exact Key.before_iff.mpr (.inl hij)
  simp only [hdiag, Bool.false_eq_true, if_false] at h
  obtain ⟨count, -, h⟩ := bind_eq_ok h
  obtain ⟨cells, hcells, h⟩ := bind_eq_ok h
  cases h
  refine keyOrdered_sortCells (List.pairwise_map.mpr ?_)
  -- the cells of distinct indices `k` have distinct keys `(k % n, k / n)`
  have hkeys : cells.Pairwise fun x y => ∀ a, x = some a → ∀ b, y = some b → a.1 ≠ b.1 := by
    refine Range.pairwise_tryMap hcells fun k k' x y hkk' hx hy a ha b hb => ?_
    obtain ⟨_, -, hx⟩ := bind_eq_ok hx
    obtain ⟨_, -, hx⟩ := bind_eq_ok hx
    obtain ⟨v, -, hx⟩ := bind_eq_ok hx
    obtain ⟨_, -, hy⟩ := bind_eq_ok hy
    obtain ⟨_, -, hy⟩ := bind_eq_ok hy
    obtain ⟨w, -, hy⟩ := bind_eq_ok hy
    injection hx with hx
    injection hy with hy
    subst hx hy
    rw [key_of_ite_some ha, key_of_ite_some hb]
    intro heq
    injection heq with hmod hdiv
    have h1 := Nat.div_add_mod k n
    have h2 := Nat.div_add_mod k' n
    rw [hmod, hdiv] at h1
    omega
  exact hkeys.filterMap id fun x y hxy a ha b hb => hxy a ha b hb

end Values

variable {m : SparseMatrix α}

/-- `select` keeps the keys of the cells it maps, in their order. -/
theorem select_ordered {f : α → Except Fault β} {m' : SparseMatrix β}
    (hm : KeyOrdered m.store.cells) (h : m.select f = .ok m') : KeyOrdered m'.store.cells := by
  unfold select at h
  obtain ⟨cells, hcells, h⟩ := bind_eq_ok h
  cases h
  refine pairwise_of_forall₂ (forall₂_mapM hcells) hm fun ⟨k, v⟩ ⟨k', v'⟩ kw kw' hw hw' h => ?_
  obtain ⟨w, -, hw⟩ := bind_eq_ok hw
  obtain ⟨w', -, hw'⟩ := bind_eq_ok hw'
  cases hw
  cases hw'
  exact h

/-- The transpose sorts the swapped cells of its operand, whose keys stay distinct. -/
theorem transpose_ordered {m' : SparseMatrix α} (hm : KeyOrdered m.store.cells)
    (h : m.transpose = .ok m') : KeyOrdered m'.store.cells := by
  unfold transpose at h
  obtain ⟨_, -, h⟩ := bind_eq_ok h
  cases h
  refine keyOrdered_sortCells ?_
  have hswap : Function.Injective fun k : Key => (⟨k.col, k.row⟩ : Key) := by
    intro k k' h
    injection h with h1 h2
    cases k
    cases k'
    simp_all
  have hnodup : (((m.entries.filter fun kv => m.inBounds kv.1).map Prod.fst).map
      fun k : Key => (⟨k.col, k.row⟩ : Key)).Nodup :=
    (hm.nodup.sublist (List.filter_sublist.map Prod.fst)).map hswap
  rw [List.map_map] at hnodup ⊢
  exact hnodup

theorem diag_ordered {v m' : SparseMatrix α} (hv : KeyOrdered v.store.cells)
    (h : v.diag = .ok m') : KeyOrdered m'.store.cells := by
  unfold diag at h
  split at h
  · cases h
  obtain ⟨_, -, h⟩ := bind_eq_ok h
  cases h
  -- the kept cells are in column zero, so they come in row order
  refine hv.filterMap fun x y hxy a ha b hb => ?_
  dsimp only at ha hb
  split at ha
  · split at hb
    · cases ha
      cases hb
      rename_i hx hy
      rw [Key.before_iff] at hxy ⊢
      dsimp only
      omega
    · cases hb
  · cases ha

theorem diagVector_ordered {m' : SparseMatrix α} (hm : KeyOrdered m.store.cells)
    (h : m.diagVector = .ok m') : KeyOrdered m'.store.cells := by
  unfold diagVector at h
  obtain ⟨n, -, h⟩ := bind_eq_ok h
  obtain ⟨_, -, h⟩ := bind_eq_ok h
  cases h
  -- the kept cells are on the diagonal, so they come in row order
  refine hm.filterMap fun x y hxy a ha b hb => ?_
  dsimp only at ha hb
  split at ha
  · split at hb
    · cases ha
      cases hb
      rename_i hx hy
      rw [Key.before_iff] at hxy ⊢
      dsimp only
      omega
    · cases hb
  · cases ha

theorem closeIndex_lt_closeIndex {i r r' : Nat} (h : r < r') (hr : r ≠ i) (hr' : r' ≠ i) :
    closeIndex i r < closeIndex i r' := by
  unfold closeIndex
  split <;> split <;> omega

/-- The minor moves the kept cells up and left past the removed row and column, which
keeps their order. -/
theorem minor_ordered {m' : SparseMatrix α} {i j : Nat} (hm : KeyOrdered m.store.cells)
    (h : m.minor i j = .ok m') : KeyOrdered m'.store.cells := by
  unfold minor at h
  by_cases hi : m.rowCount ≤ i
  · simp only [hi, if_true] at h
    cases h
  by_cases hj : m.colCount ≤ j
  · simp only [hi, hj, if_true, if_false] at h
    cases h
  simp only [hi, hj, if_false] at h
  obtain ⟨_, -, h⟩ := bind_eq_ok h
  cases h
  refine hm.filterMap fun x y hxy a ha b hb => ?_
  split at ha
  · cases ha
  split at hb
  · cases hb
  cases ha
  cases hb
  rename_i hx hy
  rw [Key.before_iff] at hxy ⊢
  dsimp only
  rcases hxy with hr | ⟨hr, hc⟩
  · exact .inl (closeIndex_lt_closeIndex hr (by omega) (by omega))
  · exact .inr ⟨by rw [hr], closeIndex_lt_closeIndex hc (by omega) (by omega)⟩

/-! ## Structural edits -/

section Edits

variable {s s' : Store α} {index : Nat}

theorem KeyOrdered.deleteRow (h : KeyOrdered s.cells) (hd : s.deleteRow index = .ok s') :
    KeyOrdered s'.cells := by
  unfold Store.deleteRow at hd
  split at hd
  · cases hd
  cases hd
  refine h.filterMap fun ⟨ka, va⟩ ⟨kb, vb⟩ hab a' ha b' hb => ?_
  obtain ⟨ka', hka, rfl⟩ := Option.map_eq_some_iff.mp ha
  obtain ⟨kb', hkb, rfl⟩ := Option.map_eq_some_iff.mp hb
  rw [Key.before_iff] at hab ⊢
  dsimp only at hka hkb hab ⊢
  split at hka
  · cases hka
  split at hkb
  · cases hkb
  split at hka <;> split at hkb <;> cases hka <;> cases hkb <;> (try dsimp only) <;> omega

theorem KeyOrdered.deleteColumn (h : KeyOrdered s.cells) (hd : s.deleteColumn index = .ok s') :
    KeyOrdered s'.cells := by
  unfold Store.deleteColumn at hd
  split at hd
  · cases hd
  cases hd
  refine h.filterMap fun ⟨ka, va⟩ ⟨kb, vb⟩ hab a' ha b' hb => ?_
  obtain ⟨ka', hka, rfl⟩ := Option.map_eq_some_iff.mp ha
  obtain ⟨kb', hkb, rfl⟩ := Option.map_eq_some_iff.mp hb
  rw [Key.before_iff] at hab ⊢
  dsimp only at hka hkb hab ⊢
  split at hka
  · cases hka
  split at hkb
  · cases hkb
  split at hka <;> split at hkb <;> cases hka <;> cases hkb <;> (try dsimp only) <;> omega

theorem KeyOrdered.insertRow (h : KeyOrdered s.cells) (hi : s.insertRow index = .ok s') :
    KeyOrdered s'.cells := by
  unfold Store.insertRow at hi
  split at hi
  · cases hi
  split at hi
  · cases hi
  cases hi
  refine h.filterMap fun ⟨ka, va⟩ ⟨kb, vb⟩ hab a' ha b' hb => ?_
  obtain ⟨ka', hka, rfl⟩ := Option.map_eq_some_iff.mp ha
  obtain ⟨kb', hkb, rfl⟩ := Option.map_eq_some_iff.mp hb
  rw [Key.before_iff] at hab ⊢
  dsimp only at hka hkb hab ⊢
  split at hka <;> split at hkb <;> cases hka <;> cases hkb <;> (try dsimp only) <;> omega

theorem KeyOrdered.insertColumn (h : KeyOrdered s.cells) (hi : s.insertColumn index = .ok s') :
    KeyOrdered s'.cells := by
  unfold Store.insertColumn at hi
  split at hi
  · cases hi
  split at hi
  · cases hi
  cases hi
  refine h.filterMap fun ⟨ka, va⟩ ⟨kb, vb⟩ hab a' ha b' hb => ?_
  obtain ⟨ka', hka, rfl⟩ := Option.map_eq_some_iff.mp ha
  obtain ⟨kb', hkb, rfl⟩ := Option.map_eq_some_iff.mp hb
  rw [Key.before_iff] at hab ⊢
  dsimp only at hka hkb hab ⊢
  split at hka <;> split at hkb <;> cases hka <;> cases hkb <;> (try dsimp only) <;> omega

end Edits

/-! ## Readers and devices -/

section Readers

variable [Element α] {m : SparseMatrix α}

theorem ofRows_ordered [Host] {rows : List (List α)} (h : ofRows rows = .ok m) :
    KeyOrdered m.store.cells := by
  unfold ofRows at h
  obtain ⟨d, -, h⟩ := bind_eq_ok h
  cases h
  exact keyOrdered_ofDense d

/-- A document's cells are written one by one into an empty store. -/
theorem ofDocument_ordered [Host] {lib : Json.Library} {text : String}
    (h : ofDocument lib text = .ok m) :
    KeyOrdered m.store.cells := by
  unfold ofDocument at h
  obtain ⟨_, -, h⟩ := bind_eq_ok h
  obtain ⟨⟨rows, cols, cells⟩, -, h⟩ := bind_eq_ok h
  dsimp only at h
  refine foldlM_ok_invariant (P := fun t : SparseMatrix α => KeyOrdered t.store.cells) ?_
    keyOrdered_nil h
  intro cell _ t t' ht hstep
  obtain ⟨k, -, hstep⟩ := bind_eq_ok hstep
  by_cases hkr : rows ≤ k.row
  · simp only [hkr, if_true] at hstep
    cases hstep
  by_cases hkc : cols ≤ k.col
  · simp only [hkr, hkc, if_true, if_false] at hstep
    cases hstep
  simp only [hkr, hkc, if_false] at hstep
  split at hstep
  · cases hstep
    exact ht.insertCell _ _
  · cases hstep

/-- A sheet's cells are written one by one, record by record. -/
theorem ofSheetText_ordered [Host] {csv : Csv.Library} {text : String}
    (h : ofSheetText csv text = .ok m) :
    KeyOrdered m.store.cells := by
  unfold ofSheetText at h
  dsimp only at h
  refine foldlM_ok_invariant (P := fun t : SparseMatrix α => KeyOrdered t.store.cells) ?_
    keyOrdered_nil h
  intro ⟨fields, r⟩ _ t t' ht hrec
  obtain ⟨u, hfields, hrec⟩ := bind_eq_ok hrec
  cases hrec
  have hu : KeyOrdered u.store.cells := by
    refine foldlM_ok_invariant (P := fun u : SparseMatrix α => KeyOrdered u.store.cells) ?_ ht
      hfields
    intro ⟨raw, c⟩ _ u u' hu hfield
    dsimp only at hfield
    split at hfield
    · cases hfield
      exact hu
    · obtain ⟨o, -, hfield⟩ := bind_eq_ok hfield
      cases o with
      | none => cases hfield
      | some v =>
        cases hfield
        split
        · exact hu
        · exact hu.insertCell _ _
  exact hu

theorem loadSheet_ordered [Host] {csv : Csv.Library} {fs : FileSystem} {name : String}
    {contents : Option String} (h : loadSheet csv fs name contents = .ok m) : KeyOrdered m.store.cells := by
  unfold loadSheet at h
  obtain ⟨_, -, h⟩ := bind_eq_ok h
  obtain ⟨_, -, h⟩ := bind_eq_ok h
  split at h
  · cases h
  · exact ofSheetText_ordered h

theorem dotProductWith_ordered {a b : SparseMatrix α} {d : Device α}
    (h : (a.dotProductWith b d).2 = .ok m) : KeyOrdered m.store.cells := by
  unfold dotProductWith at h
  split at h
  · cases h
  split at h
  · cases h
  split at h
  · cases h
  · cases h
  · obtain ⟨p, -, h⟩ := bind_eq_ok h
    by_cases hdims : p.dims = (a.rowCount, b.colCount)
    · simp only [hdims, ne_eq, not_true_eq_false, if_false] at h
      cases h
      exact keyOrdered_ofDeviceAnswer a p
    · simp only [hdims, ne_eq, not_false_eq_true, if_true] at h
      cases h

theorem dotProductBound_ordered {a b : SparseMatrix α} (h : (a.dotProductBound b).2 = .ok m) :
    KeyOrdered m.store.cells := by
  unfold dotProductBound at h
  split at h
  · cases h
  · exact dotProductWith_ordered h

end Readers

/-- The matrix an operation answers is in key order when its first operand is: only
`clone` and the first power copy the operand's cells. -/
theorem Op.run_ordered [Host] [Arith α] [Width α] (op : Op α) {a b : SparseMatrix α} {s : Store α}
    (ha : KeyOrdered a.store.cells) (h : op.run a b = .ok (.cells s)) : KeyOrdered s.cells := by
  cases op <;> simp only [Op.run] at h
  case clone =>
    injection h with h
    injection h with h
    have hcopy : KeyOrdered a.clone.entries := by rw [entries_clone]; exact ha
    exact h ▸ hcopy
  all_goals
    obtain ⟨y, hy, hs⟩ := map_eq_ok_cells h
    cases hs
  case add => exact zipWith_ordered hy
  case subtract => exact zipWith_ordered hy
  case multiplyScalar => exact mapAll_ordered hy
  case addScalar => exact mapAll_ordered hy
  case conjugate => exact mapAll_ordered hy
  case transpose => exact transpose_ordered ha hy
  case dotProduct => exact dotProduct_ordered hy
  case diag => exact diag_ordered ha hy
  case diagVector => exact diagVector_ordered ha hy
  case minor => exact minor_ordered ha hy
  case inverse => exact inverse_ordered hy
  case power => exact power_ordered ha hy

/-- Every matrix a program makes lists its cells in row-major key order, each key once. -/
theorem Reachable.cells_ordered [Host] {slack : Nat} {α : Type} [Element α] {s : Store α}
    (h : Reachable slack s) : KeyOrdered s.cells := by
  induction h with
  | new => exact keyOrdered_nil
  | zeros rows cols => exact keyOrdered_nil
  | identity n => exact keyOrdered_identity n
  | ofRows h => exact ofRows_ordered h
  | ofDense d => exact keyOrdered_ofDense d
  | ofDocument _ h => exact ofDocument_ordered h
  | loadSheet _ _ h => exact loadSheet_ordered h
  | set k v _ _ _ ih => exact KeyOrdered.insertCell ih k v
  | deleteRow _ h ih => exact KeyOrdered.deleteRow ih h
  | deleteColumn _ h ih => exact KeyOrdered.deleteColumn ih h
  | insertRow _ h ih => exact KeyOrdered.insertRow ih h
  | insertColumn _ h ih => exact KeyOrdered.insertColumn ih h
  | clear _ _ => exact keyOrdered_nil
  | run op _ _ h iha _ => exact op.run_ordered iha h
  | select _ h ih => exact select_ordered ih h
  | dotProductWith _ _ _ h _ _ => exact dotProductWith_ordered h
  | dotProductBound _ _ _ h _ _ => exact dotProductBound_ordered h

end SparseMatrix
