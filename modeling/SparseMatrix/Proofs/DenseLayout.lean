import SparseMatrix.Proofs.Bounds
import SparseMatrix.Proofs.DeviceProduct

/-!
# The row-major layout of dense arrays

A dense array keeps the value of cell `(r, c)` at position `r * cols + c` of its data. The
layout is sound when the data holds exactly one value per cell (`Dense.Shaped`): the
position of every cell inside the bounds is then a position of the data
(`Shaped.index_lt`), so

* a cell is read exactly inside the bounds, from its position (`Shaped.get?_isSome_iff`,
  `get?_eq_some_iff`);
* a write inside the bounds lands at its position and is read back there, and nowhere else
  (`Shaped.get?_set`);
* the rows come out as `rows` lists of `cols` values each, reading the array
  (`Shaped.toRows_spec`), when the list of rows fits one buffer;
* position `idx` of the data is the cell `(idx / cols, idx % cols)` inside the bounds, and
  `cols` is not zero when there is a position at all (`Shaped.cell_of_lt`), so the matrix
  of a device's answer holds each nonzero value at that cell (`Shaped.ofDeviceAnswer_spec`).

## Every array made is shaped

The four constructors give the data its length each in its own way: `filled` as a checked
product, `ofList` by an explicit check, `ofRows` by checking every row against the first,
and `toDense` as `filled` followed by writes. A write keeps the length. `Dense.Built` lists
these ways, and `Built.shaped` follows them.

The rows of an array are one buffer of `rows` vectors, which must fit even when every row
is empty: an array with no columns and `2^62` rows costs nothing to make, yet asking for
its rows faults with `capacityOverflow`.
-/

namespace SparseMatrix

variable {α : Type}

namespace Dense

/-- The data holds exactly one value per cell of the bounds. -/
def Shaped (d : Dense α) : Prop :=
  d.data.size = d.rows * d.cols

instance (d : Dense α) : Decidable d.Shaped :=
  inferInstanceAs (Decidable (_ = _))

/-- Inside the bounds, a cell is read from its row-major position. -/
theorem get?_of_lt {d : Dense α} {r c : Nat} (hr : r < d.rows) (hc : c < d.cols) :
    d.get? r c = d.data[r * d.cols + c]? := by
  unfold get?
  rw [if_pos ⟨hr, hc⟩]

/-- Outside the bounds, no cell is read. -/
theorem get?_of_not_lt {d : Dense α} {r c : Nat} (h : ¬(r < d.rows ∧ c < d.cols)) :
    d.get? r c = none := by
  unfold get?
  rw [if_neg h]

/-- A cell is read inside the bounds, from its row-major position. -/
theorem get?_eq_some_iff {d : Dense α} {r c : Nat} {v : α} :
    d.get? r c = some v ↔ r < d.rows ∧ c < d.cols ∧ d.data[r * d.cols + c]? = some v := by
  unfold get?
  split
  · rename_i h
    simp [h]
  · rename_i h
    simp only [reduceCtorEq, false_iff]
    exact fun hv => h ⟨hv.1, hv.2.1⟩

/-- The rows are one buffer of `rows` vectors: past its size, asking for them faults, whatever
the columns. -/
theorem toRows_capacityOverflow {d : Dense α} (h : ¬d.rows * vectorBytes ≤ bufferLimit) :
    d.toRows = .error .capacityOverflow := by
  unfold toRows fitsBuffer
  rw [if_neg h]
  rfl

namespace Shaped

variable {d : Dense α}

/-- The position of a cell inside the bounds is a position of the data. -/
theorem index_lt (hd : d.Shaped) {r c : Nat} (hr : r < d.rows) (hc : c < d.cols) :
    r * d.cols + c < d.data.size :=
  hd ▸ rowMajor_lt hr hc

/-- A cell is read exactly when it lies inside the bounds. -/
theorem get?_isSome_iff (hd : d.Shaped) (r c : Nat) :
    (d.get? r c).isSome ↔ r < d.rows ∧ c < d.cols := by
  unfold get?
  split
  · rename_i h
    simp [h, hd.index_lt h.1 h.2]
  · rename_i h
    simp [h]

/-- Writing keeps the layout. -/
theorem set (hd : d.Shaped) (r c : Nat) (v : α) : (d.set r c v).1.Shaped := by
  unfold Shaped
  rw [set_size, set_rows, set_cols]
  exact hd

/-- A write inside the bounds is read back at its cell and leaves every other cell. -/
theorem get?_set (hd : d.Shaped) {r c : Nat} (hr : r < d.rows) (hc : c < d.cols) (v : α)
    (r' c' : Nat) :
    (d.set r c v).1.get? r' c' = if r' = r ∧ c' = c then some v else d.get? r' c' := by
  unfold Dense.set
  rw [if_pos ⟨hr, hc⟩]
  unfold get?
  dsimp only
  by_cases hin : r' < d.rows ∧ c' < d.cols
  · rw [if_pos hin, if_pos hin, Array.set!_eq_setIfInBounds, Array.getElem?_setIfInBounds]
    by_cases hkey : r' = r ∧ c' = c
    · obtain ⟨rfl, rfl⟩ := hkey
      rw [if_pos rfl, if_pos (hd.index_lt hr hc), if_pos ⟨rfl, rfl⟩]
    · -- distinct cells have distinct positions
      have hne : r * d.cols + c ≠ r' * d.cols + c' := fun h =>
        hkey ((rowMajor_inj hc hin.2 h).imp Eq.symm Eq.symm)
      rw [if_neg hne, if_neg hkey]
  · rw [if_neg hin, if_neg hin, if_neg fun (h : r' = r ∧ c' = c) => hin ⟨h.1 ▸ hr, h.2 ▸ hc⟩]

/-- The rows of a shaped array, when the list of rows fits one buffer: `rows` lists of
`cols` values each, value `c` of list `r` being the value read at `(r, c)`. -/
theorem toRows_spec (hd : d.Shaped) (hfit : d.rows * vectorBytes ≤ bufferLimit) :
    ∃ L, d.toRows = .ok L ∧ L.length = d.rows ∧ (∀ row ∈ L, row.length = d.cols) ∧
      ∀ r c, (L[r]?.bind fun row => row[c]?) = d.get? r c := by
  unfold toRows
  rw [fitsBuffer_of_le hfit, pure_bind]
  by_cases hc0 : d.cols = 0
  · -- no columns: `rows` empty rows, and no cell is read
    rw [if_pos hc0]
    refine ⟨_, rfl, List.length_replicate, fun row hrow => ?_, fun r c => ?_⟩
    · simp [List.eq_of_mem_replicate hrow, hc0]
    · rw [get?_of_not_lt fun h => Nat.not_lt_zero c (hc0 ▸ h.2), List.getElem?_replicate]
      split <;> rfl
  · rw [if_neg hc0]
    refine ⟨_, rfl, by simp, fun row hrow => ?_, fun r c => ?_⟩
    · -- row `r` takes `cols` values from position `r * cols`, and `(r + 1) * cols` fit
      obtain ⟨r, hr, rfl⟩ := List.mem_map.mp hrow
      have hend : r * d.cols + d.cols ≤ d.data.size := by
        rw [hd, ← Nat.succ_mul]
        exact Nat.mul_le_mul_right _ (List.mem_range.mp hr)
      simp only [List.length_take, List.length_drop, Array.length_toList]
      omega
    · by_cases hr : r < d.rows
      · rw [List.getElem?_map, List.getElem?_range hr, Option.map_some, Option.bind_some,
          List.getElem?_take]
        by_cases hc : c < d.cols
        · rw [if_pos hc, get?_of_lt hr hc, List.getElem?_drop, Array.getElem?_toList]
        · rw [if_neg hc, get?_of_not_lt fun h => hc h.2]
      · rw [get?_of_not_lt fun h => hr h.1, List.getElem?_map,
          List.getElem?_eq_none (by simpa using hr), Option.map_none, Option.bind_none]

/-- Position `idx` of the data is the cell `(idx / cols, idx % cols)`: `cols` is not zero,
the cell lies inside the bounds, and the value read there is the value at `idx`. -/
theorem cell_of_lt (hd : d.Shaped) {idx : Nat} (hidx : idx < d.data.size) :
    0 < d.cols ∧ idx / d.cols < d.rows ∧ idx % d.cols < d.cols ∧
      d.get? (idx / d.cols) (idx % d.cols) = d.data[idx]? := by
  rw [hd] at hidx
  have hcols : 0 < d.cols := Nat.pos_of_ne_zero fun h0 => by
    rw [h0, Nat.mul_zero] at hidx
    exact Nat.not_lt_zero _ hidx
  have hrow : idx / d.cols < d.rows := Nat.div_lt_of_lt_mul (by rw [Nat.mul_comm]; exact hidx)
  have hcol : idx % d.cols < d.cols := Nat.mod_lt idx hcols
  refine ⟨hcols, hrow, hcol, ?_⟩
  rw [get?_of_lt hrow hcol, Nat.div_add_mod']

/-- The device's answer written as a matrix holds each value that is not zero at the cell
of its position. -/
theorem mem_ofDeviceAnswer [Element α] (a : SparseMatrix α) (p : Dense α) {k : Key} {v : α} :
    (k, v) ∈ (ofDeviceAnswer a p).entries ↔
      ∃ idx, p.data[idx]? = some v ∧ Arith.isZero v = false ∧ k = ⟨idx / p.cols, idx % p.cols⟩ := by
  simp only [ofDeviceAnswer, entries_withCells, List.mem_filterMap]
  constructor
  · rintro ⟨⟨w, idx⟩, hmem, hkv⟩
    dsimp only at hkv
    split at hkv
    · cases hkv
    · rename_i hz
      cases hkv
      refine ⟨idx, ?_, by simpa using hz, rfl⟩
      rw [← Array.getElem?_toList]
      exact List.mem_zipIdx_iff_getElem?.mp hmem
  · rintro ⟨idx, hidx, hz, rfl⟩
    refine ⟨⟨v, idx⟩, List.mem_zipIdx_iff_getElem?.mpr (by rw [Array.getElem?_toList]; exact hidx),
      ?_⟩
    dsimp only
    rw [if_neg (by simp [hz])]

/-- The device's answer of a shaped array written as a matrix keeps its size, and holds each
value that is not zero at the cell of its position. -/
theorem ofDeviceAnswer_spec [Element α] {p : Dense α} (hp : p.Shaped) (a : SparseMatrix α) :
    (ofDeviceAnswer a p).dims = (p.rows, p.cols) ∧
      ∀ k v, (k, v) ∈ (ofDeviceAnswer a p).entries ↔
        ∃ idx, p.data[idx]? = some v ∧ Arith.isZero v = false ∧
          k = ⟨idx / p.cols, idx % p.cols⟩ := by
  refine ⟨?_, fun k v => mem_ofDeviceAnswer a p⟩
  have hlt : ∀ kv ∈ (ofDeviceAnswer a p).entries, kv.1.row < p.rows ∧ kv.1.col < p.cols := by
    intro kv hkv
    obtain ⟨idx, hidx, -, hk⟩ := (mem_ofDeviceAnswer a p).mp hkv
    obtain ⟨hlt, -⟩ := Array.getElem?_eq_some_iff.mp hidx
    obtain ⟨-, hrow, hcol, -⟩ := hp.cell_of_lt hlt
    rw [hk]
    exact ⟨hrow, hcol⟩
  exact dims_withCells_derived a hlt

end Shaped

/-! ## The arrays a program makes -/

/-- The buffer of `rows.length * cols` values, `cols` the length of the first row, is laid
out before any row is checked: rows too many for one buffer fault, ragged or not. -/
theorem ofRows_capacityOverflow [Width α] {rows : List (List α)}
    (hmul : rows.length * (rows.head?.map List.length).getD 0 ≤ Text.wordMax)
    (h : ¬rows.length * (rows.head?.map List.length).getD 0 * Width.bytes α ≤ bufferLimit) :
    Dense.ofRows rows = .error (.fault .capacityOverflow) := by
  unfold Dense.ofRows
  dsimp only
  rw [Size.mul_eq hmul, liftFault_pure, pure_bind, fitsBuffer_eq_error h]
  rfl

namespace Shaped

variable {d : Dense α}

/-- A filled array holds the checked product `rows * cols` of values. -/
theorem of_filled [Width α] {rows cols : Nat} {fill : α} (h : Dense.filled rows cols fill = .ok d) :
    d.Shaped := by
  unfold Dense.filled at h
  obtain ⟨size, hsize, h⟩ := bind_eq_ok h
  obtain ⟨_, -, h⟩ := bind_eq_ok h
  cases h
  simp only [Shaped, Array.size_replicate]
  exact Size.fit_ok hsize

/-- An array over a list was checked to hold `rows * cols` values. -/
theorem of_ofList {rows cols : Nat} {data : List α} (h : Dense.ofList rows cols data = .ok d) :
    d.Shaped := by
  unfold Dense.ofList at h
  obtain ⟨size, hsize, h⟩ := bind_eq_ok h
  have hsize' : size = rows * cols := Size.fit_ok (liftFault_ok hsize)
  by_cases hlen : data.length = size
  · rw [if_neg (not_not_intro hlen)] at h
    cases h
    simp only [Shaped, List.size_toArray, hlen, hsize']
  · rw [if_pos hlen] at h
    cases h

/-- An array over rows each as long as the first holds `rows.length * cols` values. -/
theorem of_ofRows [Width α] {rows : List (List α)} (h : Dense.ofRows rows = .ok d) :
    d.Shaped := by
  unfold Dense.ofRows at h
  obtain ⟨_, -, h⟩ := bind_eq_ok h
  obtain ⟨_, -, h⟩ := bind_eq_ok h
  split at h
  · cases h
  · rename_i hnone
    cases h
    have hlen : ∀ row ∈ rows, row.length = (rows.head?.map List.length).getD 0 := by
      intro row hrow
      obtain ⟨i, hi⟩ := List.mem_iff_getElem?.mp hrow
      have hmem : (row, i) ∈ rows.zipIdx := List.mem_zipIdx_iff_getElem?.mpr hi
      simpa using List.find?_eq_none.mp hnone _ hmem
    show rows.flatten.toArray.size = rows.length * _
    rw [List.size_toArray, List.length_flatten, List.map_congr_left hlen, List.map_const',
      List.sum_replicate, smul_eq_mul]

/-- The shape survives any sequence of steps that each keep it. -/
theorem foldl {β : Type} {f : Dense α → β → Dense α} (hf : ∀ d x, d.Shaped → (f d x).Shaped)
    (l : List β) (hd : d.Shaped) : (l.foldl f d).Shaped := by
  induction l generalizing d with
  | nil => exact hd
  | cons x l ih => exact ih (hf d x hd)

/-- A matrix made dense is a filled array, then written cell by cell. -/
theorem of_toDense [Arith α] [Width α] {m : SparseMatrix α} (h : m.toDense = .ok d) :
    d.Shaped := by
  unfold toDense at h
  obtain ⟨d₀, h₀, h⟩ := bind_eq_ok h
  cases h
  refine foldl (fun d kv hd => ?_) _ (of_filled h₀)
  obtain ⟨k, v⟩ := kv
  exact hd.set k.row k.col v

end Shaped

/-- The arrays a program makes: by one of the four constructors, then by writes. -/
inductive Built : Dense α → Prop
  | filled [Width α] {rows cols : Nat} {fill : α} {d : Dense α} :
      Dense.filled rows cols fill = .ok d → Built d
  | ofList {rows cols : Nat} {data : List α} {d : Dense α} :
      Dense.ofList rows cols data = .ok d → Built d
  | ofRows [Width α] {rows : List (List α)} {d : Dense α} : Dense.ofRows rows = .ok d → Built d
  | toDense [Arith α] [Width α] {m : SparseMatrix α} {d : Dense α} : m.toDense = .ok d → Built d
  | set {d : Dense α} (r c : Nat) (v : α) : Built d → Built (d.set r c v).1

/-- Every array a program makes is shaped: each constructor makes it so, and writes keep
it. -/
theorem Built.shaped {d : Dense α} (h : d.Built) : d.Shaped := by
  induction h with
  | filled h => exact Shaped.of_filled h
  | ofList h => exact Shaped.of_ofList h
  | ofRows h => exact Shaped.of_ofRows h
  | toDense h => exact Shaped.of_toDense h
  | set r c v _ ih => exact ih.set r c v

/-- The row-major layout of every array a program makes. Its data holds `rows * cols`
values. A cell is read exactly inside the bounds, from its position `r * cols + c`, which
lies in the data. A write inside the bounds is read back at its cell and leaves every other
cell. When the list of rows fits one buffer, the rows are `rows` lists of `cols` values that
read the array; when it does not, asking for them faults. Position `idx` of the data is the cell `(idx / cols, idx % cols)` inside the
bounds, with `cols` not zero; a device's answer so made, written as a matrix, keeps its size
and holds each value that is not zero at the cell of its position. -/
theorem Built.rowMajor_layout {d : Dense α} (hd : d.Built) :
    d.data.size = d.rows * d.cols ∧
    (∀ r c, (d.get? r c).isSome ↔ r < d.rows ∧ c < d.cols) ∧
    (∀ r c, r < d.rows → c < d.cols →
      r * d.cols + c < d.data.size ∧ d.get? r c = d.data[r * d.cols + c]?) ∧
    (∀ r c v, r < d.rows → c < d.cols → ∀ r' c',
      (d.set r c v).1.get? r' c' = if r' = r ∧ c' = c then some v else d.get? r' c') ∧
    (d.rows * vectorBytes ≤ bufferLimit → ∃ L, d.toRows = .ok L ∧ L.length = d.rows ∧
      (∀ row ∈ L, row.length = d.cols) ∧ ∀ r c, (L[r]?.bind fun row => row[c]?) = d.get? r c) ∧
    (¬d.rows * vectorBytes ≤ bufferLimit → d.toRows = .error .capacityOverflow) ∧
    (∀ idx, idx < d.data.size → 0 < d.cols ∧ idx / d.cols < d.rows ∧ idx % d.cols < d.cols ∧
      d.get? (idx / d.cols) (idx % d.cols) = d.data[idx]?) ∧
    (∀ [Element α] (a : SparseMatrix α), (ofDeviceAnswer a d).dims = (d.rows, d.cols) ∧
      ∀ k v, (k, v) ∈ (ofDeviceAnswer a d).entries ↔
        ∃ idx, d.data[idx]? = some v ∧ Arith.isZero v = false ∧
          k = ⟨idx / d.cols, idx % d.cols⟩) := by
  have hs := hd.shaped
  exact ⟨hs, hs.get?_isSome_iff, fun r c hr hc => ⟨hs.index_lt hr hc, get?_of_lt hr hc⟩,
    fun r c v hr hc => hs.get?_set hr hc v, hs.toRows_spec, toRows_capacityOverflow,
    fun idx hidx => hs.cell_of_lt hidx,
    fun a => hs.ofDeviceAnswer_spec a⟩

/-- The `2 × 3` array of the rows `[1, 2, 3]` and `[4, 5, 6]`: its rows read it back. -/
theorem Built.rowMajor_layout_two_rows :
    (⟨2, 3, #[1, 2, 3, 4, 5, 6]⟩ : Dense Int).Built ∧
    ∃ L, (⟨2, 3, #[1, 2, 3, 4, 5, 6]⟩ : Dense Int).toRows = .ok L ∧ L.length = 2 ∧
      (∀ row ∈ L, row.length = 3) ∧
      ∀ r c, (L[r]?.bind fun row => row[c]?) = (⟨2, 3, #[1, 2, 3, 4, 5, 6]⟩ : Dense Int).get? r c := by
  have hd : (⟨2, 3, #[1, 2, 3, 4, 5, 6]⟩ : Dense Int).Built :=
    .ofRows (show Dense.ofRows [[1, 2, 3], [4, 5, 6]] = .ok ⟨2, 3, #[1, 2, 3, 4, 5, 6]⟩ from rfl)
  exact ⟨hd, (Built.rowMajor_layout hd).2.2.2.2.1 (by decide)⟩

/-- An array with no columns and `2^62` rows is made at no cost, its data being empty, yet
its rows, `2^62` empty vectors of `vectorBytes` each, do not fit one buffer. -/
theorem toRows_no_columns_overflows :
    ∃ d : Dense Int, Dense.ofList 4611686018427387904 0 [] = .ok d ∧ d.Built ∧
      d.toRows = .error .capacityOverflow := by
  have h : Dense.ofList 4611686018427387904 0 ([] : List Int) =
      .ok ⟨4611686018427387904, 0, #[]⟩ := rfl
  exact ⟨_, h, .ofList h, rfl⟩

end Dense

end SparseMatrix
