import SparseMatrix.Accelerator
import SparseMatrix.Proofs.Product
import SparseMatrix.Proofs.KeyOrder

/-!
# Products on a device

On a device that computes the plain dense product (`Dense.product`), the product of two
matrices is the one the sparse loop `dotProduct` computes (`dotProductWith_eq_dotProduct`),
when the two agree on the sums of the cells: the sum over every `p`, the zero entries of `a`
included, is the sum over the entries that are not zero, and no sum faults. Floats whose
values are integers small enough for every product and partial sum to be exact are so.
Where the inner sizes differ, both refuse with the same error, and the device is not
called.

The two paths share no code; they agree because the layouts line up:

* a matrix with distinct keys made dense holds its value at `(r, c)` in position
  `r * cols + c` (`toDense_layout`);
* the dense product holds the cell `(i, j)` in position `i * n + j`, and position `idx` of
  the answer is read back as the key `(idx / n, idx % n)` (`flatMap_range_map`);
* both keep the nonzero values in row-major order, inside the `m × n` bounds
  (`ofDeviceAnswer_eq`, `dotProduct_of_cells`).

The device path checks no cancellation and makes both operands dense, so a cancelled
token, or an operand too large for one buffer, parts the two
(`dotProductWith_differs_from_dotProduct`).
-/

namespace SparseMatrix

variable {α β γ σ : Type}

/-! ## Row-major positions -/

theorem rowMajor_div {n r c : Nat} (hc : c < n) : (r * n + c) / n = r := by
  rw [Nat.add_comm, Nat.add_mul_div_right _ _ (by omega), Nat.div_eq_of_lt hc, Nat.zero_add]

theorem rowMajor_mod {n r c : Nat} (hc : c < n) : (r * n + c) % n = c := by
  rw [Nat.add_comm, Nat.add_mul_mod_self_right, Nat.mod_eq_of_lt hc]

theorem rowMajor_inj {n r c r' c' : Nat} (hc : c < n) (hc' : c' < n)
    (h : r * n + c = r' * n + c') : r = r' ∧ c = c' :=
  ⟨by rw [← rowMajor_div (r := r) hc, h, rowMajor_div hc'],
    by rw [← rowMajor_mod (r := r) hc, h, rowMajor_mod hc']⟩

theorem rowMajor_lt {rows cols r c : Nat} (hr : r < rows) (hc : c < cols) :
    r * cols + c < rows * cols :=
  calc r * cols + c < r * cols + cols := by omega
    _ = (r + 1) * cols := (Nat.succ_mul r cols).symm
    _ ≤ rows * cols := Nat.mul_le_mul_right cols hr

/-- The cells of an `m × n` grid in row-major order are the positions below `m * n`, the
position `idx` being the cell `(idx / n, idx % n)`. -/
theorem flatMap_range_map (m n : Nat) (h : Nat → Nat → β) :
    (List.range m).flatMap (fun i => (List.range n).map (h i)) =
      (List.range (m * n)).map fun idx => h (idx / n) (idx % n) := by
  induction m with
  | zero => simp
  | succ m ih =>
    rw [List.range_succ, List.flatMap_append, ih, List.flatMap_singleton, Nat.succ_mul,
      List.range_add, List.map_append, List.map_map]
    congr 1
    refine List.map_congr_left fun j hj => ?_
    have hj := List.mem_range.mp hj
    simp only [Function.comp_apply, rowMajor_div hj, rowMajor_mod hj]

theorem gridKeys_eq (m n : Nat) :
    gridKeys m n = (List.range (m * n)).map fun idx => ⟨idx / n, idx % n⟩ :=
  flatMap_range_map m n Key.mk

theorem zipIdx_map_range' (f : Nat → β) (s N : Nat) :
    ((List.range' s N).map f).zipIdx s = (List.range' s N).map fun i => (f i, i) := by
  induction N generalizing s with
  | zero => rfl
  | succ N ih => rw [List.range'_succ, List.map_cons, List.zipIdx_cons, ih, List.map_cons]

theorem foldlM_congr_mem {m : Type → Type} [Monad m] {l : List γ} {f g : σ → γ → m σ}
    (h : ∀ s, ∀ x ∈ l, f s x = g s x) (init : σ) : l.foldlM f init = l.foldlM g init := by
  induction l generalizing init with
  | nil => rfl
  | cons x l ih =>
    rw [List.foldlM_cons, List.foldlM_cons, h init x List.mem_cons_self]
    congr 1
    funext s
    exact ih (fun s y hy => h s y (List.mem_cons_of_mem x hy)) s

/-! ## Dense arrays -/

namespace Dense

/-- A dense `rows × cols` array of `α` can be laid out: its size is a word, and its data
fits one buffer. -/
def Fits (α : Type) [Width α] (rows cols : Nat) : Prop :=
  rows * cols ≤ Text.wordMax ∧ rows * cols * Width.bytes α ≤ bufferLimit

instance [Width α] (rows cols : Nat) : Decidable (Fits α rows cols) :=
  inferInstanceAs (Decidable (_ ∧ _))

theorem filled_eq [Width α] {rows cols : Nat} (h : Fits α rows cols) (fill : α) :
    filled rows cols fill = pure ⟨rows, cols, Array.replicate (rows * cols) fill⟩ := by
  unfold filled
  rw [Size.mul_eq h.1, pure_bind, fitsBuffer_of_le h.2, pure_bind]

@[simp] theorem set_rows (d : Dense α) (r c : Nat) (v : α) : (d.set r c v).1.rows = d.rows := by
  unfold set
  split <;> rfl

@[simp] theorem set_cols (d : Dense α) (r c : Nat) (v : α) : (d.set r c v).1.cols = d.cols := by
  unfold set
  split <;> rfl

@[simp] theorem set_size (d : Dense α) (r c : Nat) (v : α) :
    (d.set r c v).1.data.size = d.data.size := by
  unfold set
  split <;> simp [Array.set!_eq_setIfInBounds]

/-- Writing `(r, c)` changes the data at that position only. -/
theorem getD_set {d : Dense α} (hsize : d.data.size = d.rows * d.cols) {r' c' : Nat}
    (hr' : r' < d.rows) (hc' : c' < d.cols) (r c : Nat) (v z : α) :
    (d.set r c v).1.data.getD (r' * d.cols + c') z =
      if r = r' ∧ c = c' then v else d.data.getD (r' * d.cols + c') z := by
  have hidx : r' * d.cols + c' < d.data.size := hsize ▸ rowMajor_lt hr' hc'
  unfold set
  split
  · rename_i hin
    rw [Array.set!_eq_setIfInBounds, Array.getD_eq_getD_getElem?, Array.getElem?_setIfInBounds]
    by_cases hkey : r = r' ∧ c = c'
    · obtain ⟨rfl, rfl⟩ := hkey
      rw [if_pos rfl, if_pos hidx, if_pos ⟨rfl, rfl⟩]
      rfl
    · have hne : r * d.cols + c ≠ r' * d.cols + c' := fun h => hkey (rowMajor_inj hin.2 hc' h)
      rw [if_neg hne, if_neg hkey, Array.getElem?_eq_getElem hidx, Option.getD_some]
      rfl
  · rename_i hout
    rw [if_neg fun ⟨h1, h2⟩ => hout ⟨h1 ▸ hr', h2 ▸ hc'⟩]

theorem foldl_set_dims (cells : List (Key × α)) (d : Dense α) :
    (cells.foldl (fun d kv => (d.set kv.1.row kv.1.col kv.2).1) d).rows = d.rows ∧
      (cells.foldl (fun d kv => (d.set kv.1.row kv.1.col kv.2).1) d).cols = d.cols ∧
      (cells.foldl (fun d kv => (d.set kv.1.row kv.1.col kv.2).1) d).data.size = d.data.size := by
  induction cells generalizing d with
  | nil => exact ⟨rfl, rfl, rfl⟩
  | cons kv cells ih =>
    obtain ⟨hr, hc, hs⟩ := ih (d.set kv.1.row kv.1.col kv.2).1
    rw [List.foldl_cons]
    exact ⟨hr.trans (set_rows ..), hc.trans (set_cols ..), hs.trans (set_size ..)⟩

/-- Writing cells with distinct keys puts each value in its position, over what was
there. -/
theorem getD_foldl_set {cells : List (Key × α)} (hnd : (cells.map Prod.fst).Nodup) {d : Dense α}
    (hsize : d.data.size = d.rows * d.cols) {r c : Nat} (hr : r < d.rows) (hc : c < d.cols)
    (z : α) :
    (cells.foldl (fun d kv => (d.set kv.1.row kv.1.col kv.2).1) d).data.getD (r * d.cols + c) z =
      ((cells.find? (·.1 == ⟨r, c⟩)).map (·.2)).getD (d.data.getD (r * d.cols + c) z) := by
  induction cells generalizing d with
  | nil => rfl
  | cons kv cells ih =>
    obtain ⟨k, v⟩ := kv
    rw [List.map_cons, List.nodup_cons] at hnd
    have hnext := ih hnd.2 (d := (d.set k.row k.col v).1) (by simp [hsize]) (by simpa using hr)
      (by simpa using hc)
    rw [set_cols] at hnext
    rw [List.foldl_cons, hnext, getD_set hsize hr hc, List.find?_cons]
    by_cases hk : k = ⟨r, c⟩
    · -- the key is written here and nowhere later
      subst hk
      have hnone : cells.find? (·.1 == ⟨r, c⟩) = none :=
        List.find?_eq_none.mpr fun x hx hxk =>
          hnd.1 (List.mem_map.mpr ⟨x, hx, beq_iff_eq.mp hxk⟩)
      simp [hnone]
    · have hk' : ¬(k.row = r ∧ k.col = c) := fun ⟨h1, h2⟩ => hk (by rw [← h1, ← h2])
      simp [beq_false_of_ne hk, hk']

end Dense

/-- A matrix with distinct keys made dense holds its value at `(r, c)` in position
`r * cols + c`. -/
theorem toDense_layout [Arith α] [Width α] {a : SparseMatrix α}
    (hnd : (a.entries.map Prod.fst).Nodup) (hfit : Dense.Fits α a.rowCount a.colCount) :
    ∃ x : Dense α, a.toDense = .ok x ∧ x.rows = a.rowCount ∧ x.cols = a.colCount ∧
      ∀ r < a.rowCount, ∀ c < a.colCount,
        x.data.getD (r * a.colCount + c) Arith.zero = a.get r c := by
  let d₀ : Dense α := ⟨a.rowCount, a.colCount, Array.replicate (a.rowCount * a.colCount) Arith.zero⟩
  have hdims := Dense.foldl_set_dims a.entries d₀
  refine ⟨a.entries.foldl (fun d kv => (d.set kv.1.row kv.1.col kv.2).1) d₀, ?_, hdims.1,
    hdims.2.1, fun r hr c hc => ?_⟩
  · unfold toDense
    rw [Dense.filled_eq hfit, pure_bind]
    rfl
  · have hzero : d₀.data.getD (r * a.colCount + c) Arith.zero = Arith.zero := by
      simp [d₀, Array.getD_eq_getD_getElem?, rowMajor_lt hr hc]
    rw [show a.colCount = d₀.cols from rfl, Dense.getD_foldl_set hnd (by simp [d₀]) hr hc,
      ← show a.colCount = d₀.cols from rfl, hzero]
    rfl

/-- The plain dense product whose cells all compute holds cell `(i, j)` in position
`i * n + j`. -/
theorem Dense.product_eq [Arith α] [Width α] {x y : Dense α} {g : Nat → Nat → α}
    (hfit : Dense.Fits α x.rows y.cols)
    (hcell : ∀ i < x.rows, ∀ j < y.cols, Dense.productCell x y i j = pure (g i j)) :
    Dense.product x y = pure ⟨x.rows, y.cols,
      ((List.range (x.rows * y.cols)).map fun idx => g (idx / y.cols) (idx % y.cols)).toArray⟩ := by
  have hvalues : ∀ idx, 0 ≤ idx → idx < 0 + x.rows * y.cols →
      Dense.productCell x y (idx / y.cols) (idx % y.cols) = pure (g (idx / y.cols) (idx % y.cols)) := by
    intro idx _ hidx
    have hn : 0 < y.cols := Nat.pos_of_ne_zero fun h0 => by simp [h0] at hidx
    exact hcell _ (Nat.div_lt_of_lt_mul (by rw [Nat.mul_comm]; omega)) _ (Nat.mod_lt _ hn)
  unfold Dense.product
  rw [Dense.filled_eq hfit, pure_bind, flatMap_range_map, List.mapM_map, List.range_eq_range']
  simp only [Function.comp_def]
  rw [Range.mapM_of_ok fun idx hidx =>
    hvalues idx (List.mem_range'_1.mp hidx).1 (List.mem_range'_1.mp hidx).2, pure_bind]

variable [Element α]

/-- A device's answer that holds cell `(i, j)` in position `i * n + j` is the matrix of its
nonzero values, in row-major order. -/
theorem ofDeviceAnswer_eq (a : SparseMatrix α) (m n : Nat) (g : Nat → Nat → α) :
    ofDeviceAnswer a ⟨m, n, ((List.range (m * n)).map fun idx => g (idx / n) (idx % n)).toArray⟩ =
      (a.derived m n).withCells (nonzeroCells (gridKeys m n) g) := by
  unfold ofDeviceAnswer nonzeroCells
  dsimp only
  rw [List.range_eq_range', zipIdx_map_range', List.filterMap_map, gridKeys_eq,
    List.range_eq_range', List.filterMap_map]
  rfl

/-! ## The product on a device -/

/-- A cell of the dense product of two matrices made dense is the sum over every term of
the row of `a`, zero entries included. -/
theorem productCell_toDense {a b : SparseMatrix α} {x y : Dense α} (hk : a.colCount = b.rowCount)
    (hxc : x.cols = a.colCount) (hyc : y.cols = b.colCount)
    (hxv : ∀ r < a.rowCount, ∀ c < a.colCount,
      x.data.getD (r * a.colCount + c) Arith.zero = a.get r c)
    (hyv : ∀ r < b.rowCount, ∀ c < b.colCount,
      y.data.getD (r * b.colCount + c) Arith.zero = b.get r c)
    {i j : Nat} (hi : i < a.rowCount) (hj : j < b.colCount) :
    Dense.productCell x y i j =
      rowTimesColumn ((List.range a.colCount).map fun p => (p, a.get i p)) b j := by
  unfold Dense.productCell rowTimesColumn
  rw [List.foldlM_map, hxc, hyc]
  refine foldlM_congr_mem (fun s p hp => ?_) _
  have hp := List.mem_range.mp hp
  rw [hxv i hi p hp, hyv p (hk ▸ hp) j hj]

/-- On a device that computes the plain dense product, the product of two matrices is the
one the sparse loop computes, the device being called once, when the loop's token is not
cancelled, the answers of the chunks of its loop over the rows fit their buffer, the dense operands and the product fit one buffer each, and the sum of every cell
over all its terms is its sum over the terms whose entry of `a` is not zero, computed
without a fault. Where the inner sizes differ, both refuse alike and the device is not
called. -/
theorem dotProductWith_eq_dotProduct [Host] {slack : Nat} {a b : SparseMatrix α} {d : Device α}
    (hd : ∀ x y, d.matmul x y = (Dense.product x y).mapError .fault)
    (hon : Element.onDevice α = true) (ha : Reachable slack a.store)
    (hb : Reachable slack b.store) (hrows : a.rowCount ≤ Text.wordMax)
    (hc : a.token.any (·.cancelled) = false) (hp : a.range.PartialsFit a.rowCount)
    (hfa : Dense.Fits α a.rowCount a.colCount) (hfb : Dense.Fits α b.rowCount b.colCount) (hfp : Dense.Fits α a.rowCount b.colCount)
    (hexact : ∀ i < a.rowCount, ∀ j < b.colCount, ∃ v,
      rowTimesColumn ((List.range a.colCount).map fun p => (p, a.get i p)) b j = .ok v ∧
        rowTimesColumn (rowTerms a i a.colCount) b j = .ok v) :
    a.dotProductWith b d = (if a.colCount = b.rowCount then 1 else 0, a.dotProduct b) := by
  by_cases hk : a.colCount = b.rowCount
  · rw [if_pos hk]
    choose f hf using hexact
    let g : Nat → Nat → α := fun i j =>
      if h : i < a.rowCount ∧ j < b.colCount then f i h.1 j h.2 else Arith.zero
    have hg : ∀ i (hi : i < a.rowCount) j (hj : j < b.colCount), g i j = f i hi j hj :=
      fun i hi j hj => dif_pos ⟨hi, hj⟩
    obtain ⟨x, hx, hxr, hxc, hxv⟩ := toDense_layout ha.cells_ordered.nodup hfa
    obtain ⟨y, hy, hyr, hyc, hyv⟩ := toDense_layout hb.cells_ordered.nodup hfb
    have hprod : Dense.product x y = pure ⟨a.rowCount, b.colCount,
        ((List.range (a.rowCount * b.colCount)).map fun idx =>
          g (idx / b.colCount) (idx % b.colCount)).toArray⟩ := by
      rw [← hxr, ← hyc]
      refine Dense.product_eq (by rw [hxr, hyc]; exact hfp) fun i hi j hj => ?_
      rw [hxr] at hi
      rw [hyc] at hj
      rw [productCell_toDense hk hxc hyc hxv hyv hi hj, (hf i hi j hj).1, hg i hi j hj]
      rfl
    have hbuf : 0 < a.rowCount → fitsBuffer (Width.bytes α) a.colCount = pure () := fun hpos =>
      fitsBuffer_of_le (Nat.le_trans (by rw [Nat.mul_assoc]; exact Nat.le_mul_of_pos_left _ hpos) hfa.2)
    have hcpu := dotProduct_of_cells (f := g) hk hrows hc hp hbuf fun i hi j hj => by
      rw [(hf i hi j hj).2, hg i hi j hj]
      rfl
    unfold dotProductWith
    rw [if_neg (by simp [hon]), if_neg (not_not.mpr hk), hx, hy]
    dsimp only
    rw [hd, hprod, hcpu, ← ofDeviceAnswer_eq]
    simp only [Except.mapError, pure, Except.pure, Bind.bind, Except.bind, Dense.dims, ne_eq,
      not_true_eq_false, if_false]
  · rw [if_neg hk]
    unfold dotProductWith dotProduct
    rw [if_neg (by simp [hon]), if_pos hk, if_pos hk]
    rfl

open Host in
/-- A `2 × 0` by `0 × 3` product of floats: on both paths every cell is the empty sum. -/
theorem dotProductWith_eq_dotProduct_empty_sums :
    (zeros 2 0 : SparseMatrix Float).range.PartialsFit 2 ∧
      Dense.Fits Float 2 0 ∧ Dense.Fits Float 0 3 ∧ Dense.Fits Float 2 3 ∧
      (zeros 2 0 : SparseMatrix Float).dotProductWith (zeros 0 3)
          ⟨fun x y => (Dense.product x y).mapError .fault⟩ =
        (1, (zeros 2 0 : SparseMatrix Float).dotProduct (zeros 0 3)) :=
  ⟨by decide, by decide, by decide, by decide,
    dotProductWith_eq_dotProduct (fun _ _ => rfl) rfl
      (show Reachable 0 (zeros 2 0 : SparseMatrix Float).store from .zeros 2 0) (.zeros 0 3)
      (by decide) rfl (by decide) (by decide) (by decide) (by decide) fun _ _ _ _ => ⟨Arith.zero, rfl, rfl⟩⟩

open Host in
/-- The device path checks no cancellation, and makes both operands dense. A cancelled
operand is refused by the loop and multiplied on the device; an empty `0 × 1` operand
against a `1 × 2^61` one is multiplied by the loop, over no row, while making the second
dense overflows a buffer before the device is called. -/
theorem dotProductWith_differs_from_dotProduct :
    ((zeros 1 1 : SparseMatrix Float).attachToken.cancel.dotProduct (zeros 1 1) =
        .error (.error .cancelled) ∧
      ∃ r, (zeros 1 1 : SparseMatrix Float).attachToken.cancel.dotProductWith (zeros 1 1)
        ⟨fun x y => (Dense.product x y).mapError .fault⟩ = (1, .ok r)) ∧
    (∃ r, (zeros 0 1 : SparseMatrix Float).dotProduct (zeros 1 (Nat.pow 2 61)) = .ok r ∧
        r.dims = (0, Nat.pow 2 61)) ∧
      (zeros 0 1 : SparseMatrix Float).dotProductWith (zeros 1 (Nat.pow 2 61))
        ⟨fun x y => (Dense.product x y).mapError .fault⟩ = (0, .error (.fault .capacityOverflow)) :=
  ⟨⟨rfl, _, rfl⟩, ⟨_, rfl, rfl⟩, rfl⟩

end SparseMatrix
