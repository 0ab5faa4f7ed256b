import SparseMatrix.Proofs.Equality
import SparseMatrix.Proofs.Orthogonal

/-!
# Element-wise operations

`add`, `subtract`, `multiplyScalar`, `addScalar` and `conjugate` run one loop over the rows
of the operand's size and compute a value at every index inside it, written or not; they
write the values that are not zero, into a matrix that keeps the operand's size.

* `Tabulates R rows cols g`: `R` is the `rows × cols` matrix of the values `g`, as these
  operations write it: its written cells are exactly the indices inside where `g` is not
  zero, each once, so it reads `g` there and the element's zero elsewhere inside.
* `zipWith_eq_of_cells`, `mapAll_eq_of_cells`: when the element arithmetic computes a value
  at every index inside the size and the loop runs, the operation returns the matrix that
  tabulates those values, whatever its degree. A cancelled token stops the loop before its
  first row (`zipWith_cancelled`, `mapAll_cancelled`), and so does a fault when the answers
  of the loop's chunks do not fit their buffer (`zipWith_partials_overflow`,
  `mapAll_partials_overflow`).
* `zipWith_failsWith`: operands of one size are refused only by a cancelled token or a
  fault, so a size mismatch is reported exactly when the sizes differ.
* `elementwise_tabulates`: the five operations at once, and over exact arithmetic
  `subtract (add a b) b` equals `a` when the cells of `a` lie inside its size.
-/

namespace SparseMatrix

variable {α : Type}

/-! ## Matrices that tabulate a function -/

section Tabulates

variable [Arith α]

/-- A matrix whose written cells are, each once, the indices inside `rows × cols` where `g`
is not zero, holding `g`, reads `g` there where `g` is not zero and zero where it is: a value
that passes the zero test, such as a float `-0.0`, is not written and reads back as the
element's zero. -/
theorem get_of_entries_iff {R : SparseMatrix α} {rows cols : Nat} {g : Nat → Nat → α}
    (hmem : ∀ k v, (k, v) ∈ R.entries ↔
      (k.row < rows ∧ k.col < cols) ∧ v = g k.row k.col ∧ Arith.isZero v = false)
    (hnd : (R.entries.map Prod.fst).Nodup) {r c : Nat} (hr : r < rows) (hc : c < cols) :
    R.get r c = if Arith.isZero (g r c) then Arith.zero else g r c := by
  by_cases hz : Arith.isZero (g r c) = true
  · rw [if_pos hz]
    refine get_of_not_mem fun v hv => ?_
    obtain ⟨-, rfl, hv⟩ := (hmem _ _).mp hv
    rw [hz] at hv
    cases hv
  · rw [if_neg hz]
    exact get_of_mem hnd ((hmem ⟨r, c⟩ (g r c)).mpr ⟨⟨hr, hc⟩, rfl, Bool.not_eq_true _ ▸ hz⟩)

/-- `R` is the `rows × cols` matrix of the values `g`, as the element-wise operations write
it: its size is `rows × cols`; inside it, it reads `g` where `g` is not zero and the
element's zero where it is; and its written cells are exactly the indices inside where `g`
is not zero, each written once and holding `g`. -/
structure Tabulates (R : SparseMatrix α) (rows cols : Nat) (g : Nat → Nat → α) : Prop where
  dims : R.dims = (rows, cols)
  get_eq : ∀ r c, r < rows → c < cols →
    R.get r c = if Arith.isZero (g r c) then Arith.zero else g r c
  mem_entries : ∀ k v, (k, v) ∈ R.entries ↔
    (k.row < rows ∧ k.col < cols) ∧ v = g k.row k.col ∧ Arith.isZero v = false
  keys_nodup : (R.entries.map Prod.fst).Nodup

/-- The nonzero cells of `g` over the grid, on a matrix of the grid's size. -/
theorem tabulates_gridCells {β : Type} (m : SparseMatrix β) (rows cols : Nat)
    (g : Nat → Nat → α) :
    Tabulates ((m.derived rows cols : SparseMatrix α).withCells
      (nonzeroCells (gridKeys rows cols) g)) rows cols g := by
  have hmem : ∀ k v, (k, v) ∈ ((m.derived rows cols : SparseMatrix α).withCells
      (nonzeroCells (gridKeys rows cols) g)).entries ↔
      (k.row < rows ∧ k.col < cols) ∧ v = g k.row k.col ∧ Arith.isZero v = false := by
    intro k v
    rw [entries_withCells, mem_nonzeroCells, mem_gridKeys]
  have hnd := nonzeroCells_nodup (gridKeys_nodup rows cols) g
  exact ⟨dims_gridCells m rows cols g, fun r c hr hc => get_of_entries_iff hmem hnd hr hc, hmem,
    hnd⟩

namespace Tabulates

variable {R : SparseMatrix α} {rows cols : Nat} {g : Nat → Nat → α}

/-- Where the zero test holds of zero alone, a tabulated matrix reads `g` inside its size. -/
theorem get_eq_of_isZero (h : Tabulates R rows cols g)
    (hzero : ∀ v : α, Arith.isZero v = true → v = Arith.zero) {r c : Nat} (hr : r < rows)
    (hc : c < cols) : R.get r c = g r c := by
  rw [h.get_eq r c hr hc]
  split
  · rename_i hz
    exact (hzero _ hz).symm
  · rfl

/-- Only the values inside the size matter. -/
theorem congr {g' : Nat → Nat → α} (h : Tabulates R rows cols g)
    (hg : ∀ r c, r < rows → c < cols → g r c = g' r c) : Tabulates R rows cols g' where
  dims := h.dims
  get_eq r c hr hc := by rw [h.get_eq r c hr hc, hg r c hr hc]
  mem_entries k v := by
    rw [h.mem_entries]
    constructor
    · rintro ⟨⟨hr, hc⟩, hv, hz⟩
      exact ⟨⟨hr, hc⟩, hv.trans (hg _ _ hr hc), hz⟩
    · rintro ⟨⟨hr, hc⟩, hv, hz⟩
      exact ⟨⟨hr, hc⟩, hv.trans (hg _ _ hr hc).symm, hz⟩
  keys_nodup := h.keys_nodup

theorem rowCount_eq (h : Tabulates R rows cols g) : R.rowCount = rows :=
  congrArg Prod.fst h.dims

theorem colCount_eq (h : Tabulates R rows cols g) : R.colCount = cols :=
  congrArg Prod.snd h.dims

/-- A tabulated matrix writes no cell outside its size. -/
theorem bounded (h : Tabulates R rows cols g) : R.store.Bounded 0 := by
  intro kv hkv
  obtain ⟨⟨hr, hc⟩, -⟩ := (h.mem_entries kv.1 kv.2).mp hkv
  have hrows : R.store.rows = rows := h.rowCount_eq
  have hcols : R.store.cols = cols := h.colCount_eq
  omega

/-- A tabulated matrix is zero exactly when `g` is zero at every index inside its size: its
written values are the ones that are not. -/
theorem isZero_iff (h : Tabulates R rows cols g) :
    R.isZero = true ↔ ∀ r c, r < rows → c < cols → Arith.isZero (g r c) = true := by
  simp only [isZero, List.all_eq_true]
  constructor
  · intro hall r c hr hc
    by_contra hz
    have hmem : ((⟨r, c⟩ : Key), g r c) ∈ R.entries :=
      (h.mem_entries _ _).mpr ⟨⟨hr, hc⟩, rfl, Bool.not_eq_true _ ▸ hz⟩
    exact hz (hall _ hmem)
  · intro hg kv hkv
    obtain ⟨⟨hr, hc⟩, hv, -⟩ := (h.mem_entries kv.1 kv.2).mp hkv
    rw [hv]
    exact hg _ _ hr hc

end Tabulates

end Tabulates

/-! ## The loops -/

/-- The loop over the rows of `a` returns the body's results in row order when it runs:
its token is not cancelled, or it has no row, and its chunks' answers fit their buffer. -/
theorem tryMap_rows_of_ok {β : Type} {a : SparseMatrix α} {body : Nat → Except Failure β}
    {f : Nat → β} (hrows : a.rowCount ≤ Text.wordMax)
    (hc : a.range.cancelled = false ∨ a.rowCount = 0) (hp : a.range.PartialsFit a.rowCount)
    (hbody : ∀ r, r < a.rowCount → body r = pure (f r)) :
    a.range.tryMap 0 0 a.rowCount body = pure ((List.range' 0 a.rowCount).map f) := by
  rcases hc with hc | h0
  · rw [Range.tryMap_of_ok (range_degree a) (by omega) hc (by rwa [Nat.sub_zero])
      (by rw [Nat.mul_zero]; exact Nat.zero_le _) fun r _ hr => hbody r hr, Nat.sub_zero]
  · rw [Range.tryMap_of_le (by omega), h0]
    rfl

section Loops

variable [Arith α] {a b : SparseMatrix α} {op : String}

/-- Operands of different sizes are refused, naming the operation and both sizes. -/
theorem zipWith_sizesDiffer {f : α → α → Except Fault α} (h : a.dims ≠ b.dims) :
    zipWith a b op f =
      .error (.error (.sizesDiffer op a.rowCount a.colCount b.rowCount b.colCount)) := by
  unfold zipWith
  rw [if_pos (bne_iff_ne.mpr h)]
  rfl

/-- Operands of one size whose values `f` computes as `g` at every index inside give the
matrix that tabulates `g`, when the loop runs. -/
theorem zipWith_eq_of_cells {f : α → α → Except Fault α} {g : Nat → Nat → α}
    (hdims : a.dims = b.dims) (hrows : a.rowCount ≤ Text.wordMax)
    (hc : a.range.cancelled = false ∨ a.rowCount = 0) (hp : a.range.PartialsFit a.rowCount)
    (hg : ∀ r c, r < a.rowCount → c < a.colCount → f (a.get r c) (b.get r c) = pure (g r c)) :
    zipWith a b op f = pure ((a.derived a.rowCount a.colCount).withCells
      (nonzeroCells (gridKeys a.rowCount a.colCount) g)) := by
  unfold zipWith
  rw [if_neg (by simp [hdims]), tryMap_rows_of_ok hrows hc hp fun r hr =>
    rowOf_of_ok fun c hc => hg r c hr hc, pure_bind, flatten_rows_eq_nonzeroCells]

/-- Values that `f` computes as `g` at every index inside the size of `a` give the matrix
that tabulates `g`, when the loop runs. -/
theorem mapAll_eq_of_cells {f : α → Except Fault α} {g : Nat → Nat → α}
    (hrows : a.rowCount ≤ Text.wordMax) (hc : a.range.cancelled = false ∨ a.rowCount = 0)
    (hp : a.range.PartialsFit a.rowCount)
    (hg : ∀ r c, r < a.rowCount → c < a.colCount → f (a.get r c) = pure (g r c)) :
    mapAll a f = pure ((a.derived a.rowCount a.colCount).withCells
      (nonzeroCells (gridKeys a.rowCount a.colCount) g)) := by
  unfold mapAll
  rw [tryMap_rows_of_ok hrows hc hp fun r hr => rowOf_of_ok fun c hc => hg r c hr hc, pure_bind,
    flatten_rows_eq_nonzeroCells]

/-- A cancelled token stops a combination of operands of one size before its first row. -/
theorem zipWith_cancelled {f : α → α → Except Fault α} (hdims : a.dims = b.dims)
    (hc : a.range.cancelled = true) (hm : 0 < a.rowCount) :
    zipWith a b op f = .error (.error .cancelled) := by
  unfold zipWith
  rw [if_neg (by simp [hdims]), Range.tryMap_cancelled hm hc]
  rfl

/-- A combination of operands of one size whose loop cannot lay out its chunks' answers
faults before its first row. -/
theorem zipWith_partials_overflow {f : α → α → Except Fault α} (hdims : a.dims = b.dims)
    (hc : a.range.cancelled = false) (hp : ¬a.range.PartialsFit a.rowCount) :
    zipWith a b op f = .error (.fault .capacityOverflow) := by
  unfold zipWith
  rw [if_neg (by simp [hdims]),
    Range.tryMap_zero_partials_overflow hc hp]
  rfl

/-- A cancelled token stops a map before its first row. -/
theorem mapAll_cancelled {f : α → Except Fault α} (hc : a.range.cancelled = true)
    (hm : 0 < a.rowCount) : mapAll a f = .error (.error .cancelled) := by
  unfold mapAll
  rw [Range.tryMap_cancelled hm hc]
  rfl

/-- Operands of one size are refused only by a cancelled token, or stopped by a fault. -/
theorem zipWith_failsWith {f : α → α → Except Fault α} (hdims : a.dims = b.dims)
    (hrows : a.rowCount ≤ Text.wordMax) :
    FailsWith (fun e => e = .error .cancelled ∨ e.IsFault) (zipWith a b op f) := by
  unfold zipWith
  rw [if_neg (by simp [hdims])]
  refine FailsWith.bind (fun e he => ?_) fun _ _ => failsWith_ok _
  cases hc : a.range.cancelled with
  | true =>
    rcases Nat.eq_zero_or_pos a.rowCount with h0 | hm
    · rw [Range.tryMap_of_le (by omega)] at he
      cases he
    · rw [Range.tryMap_cancelled hm hc] at he
      cases he
      exact .inl rfl
  | false =>
    exact .inr (Range.tryMap_failsWith (range_degree a) (by omega) hc
      (fun r _ _ => rowOf_failsWith _ _ _) e he)

/-- A combination reports a size mismatch exactly when the sizes of its operands differ. -/
theorem zipWith_dimensionMismatch_iff {f : α → α → Except Fault α}
    (hrows : a.rowCount ≤ Text.wordMax) :
    (∃ e, zipWith a b op f = .error (.error e) ∧ e.kind = "DimensionMismatch") ↔
      a.dims ≠ b.dims := by
  constructor
  · rintro ⟨e, he, hkind⟩ hdims
    rcases zipWith_failsWith hdims hrows _ he with hcan | ⟨f, hf⟩
    · cases hcan
      simp [Error.kind] at hkind
    · cases hf
  · intro h
    exact ⟨_, zipWith_sizesDiffer h, rfl⟩

/-- A combination of operands of one size whose values `f` computes as `g` at every index
inside tabulates `g`, when the loop runs. -/
theorem zipWith_tabulates {f : α → α → Except Fault α} {g : Nat → Nat → α}
    (hdims : a.dims = b.dims) (hrows : a.rowCount ≤ Text.wordMax)
    (hc : a.range.cancelled = false ∨ a.rowCount = 0) (hp : a.range.PartialsFit a.rowCount)
    (hg : ∀ r c, r < a.rowCount → c < a.colCount → f (a.get r c) (b.get r c) = pure (g r c)) :
    ∃ R, zipWith a b op f = .ok R ∧ Tabulates R a.rowCount a.colCount g :=
  ⟨_, zipWith_eq_of_cells hdims hrows hc hp hg, tabulates_gridCells a _ _ g⟩

/-- A combination whose values `f` computes at every index inside tabulates the values
computed, when the loop runs. -/
theorem zipWith_tabulates_of_ok {f : α → α → Except Fault α} (hdims : a.dims = b.dims)
    (hrows : a.rowCount ≤ Text.wordMax) (hc : a.range.cancelled = false ∨ a.rowCount = 0)
    (hp : a.range.PartialsFit a.rowCount)
    (hok : ∀ r c, r < a.rowCount → c < a.colCount → ∃ d, f (a.get r c) (b.get r c) = .ok d) :
    ∃ R, zipWith a b op f = .ok R ∧ Tabulates R a.rowCount a.colCount
      fun r c => ((f (a.get r c) (b.get r c)).toOption).getD Arith.zero :=
  zipWith_tabulates hdims hrows hc hp fun r c hr hc' => by
    obtain ⟨d, hd⟩ := hok r c hr hc'
    rw [hd]
    rfl

/-- A map whose values `f` computes as `g` at every index inside tabulates `g`, when the
loop runs. -/
theorem mapAll_tabulates {f : α → Except Fault α} {g : Nat → Nat → α}
    (hrows : a.rowCount ≤ Text.wordMax) (hc : a.range.cancelled = false ∨ a.rowCount = 0)
    (hp : a.range.PartialsFit a.rowCount)
    (hg : ∀ r c, r < a.rowCount → c < a.colCount → f (a.get r c) = pure (g r c)) :
    ∃ R, mapAll a f = .ok R ∧ Tabulates R a.rowCount a.colCount g :=
  ⟨_, mapAll_eq_of_cells hrows hc hp hg, tabulates_gridCells a _ _ g⟩

end Loops

/-! ## Adding, then subtracting -/

section Exact

variable [CommRing α] [Arith α] [Width α] [ExactArith α]

/-- Over exact arithmetic the element equality is symmetric. -/
theorem ExactArith.eq_comm' (x y : α) : Arith.eq x y = Arith.eq y x :=
  Bool.eq_iff_iff.mpr (by rw [ExactArith.eq_iff, ExactArith.eq_iff]; exact eq_comm)

/-- Over exact arithmetic, subtracting `b` from `a + b` tabulates `a` over its size, when
the loop runs: every sum and difference is exact, and the sum keeps the size and the token
of `a`. -/
theorem subtract_add_tabulates {a b : SparseMatrix α} (hrows : a.rowCount ≤ Text.wordMax)
    (hc : a.range.cancelled = false) (hp : a.range.PartialsFit a.rowCount)
    (hdims : a.dims = b.dims) :
    ∃ S R, a.add b = .ok S ∧ S.subtract b = .ok R ∧ Tabulates R a.rowCount a.colCount a.get := by
  have hzero : ∀ v : α, Arith.isZero v = true → v = Arith.zero :=
    fun _ hv => (ExactArith.reading α).eq_zero_of_isZero hv
  have hsum : ∀ r c, r < a.rowCount → c < a.colCount →
      Arith.add (a.get r c) (b.get r c) = pure (a.get r c + b.get r c) :=
    fun _ _ _ _ => ExactArith.add_eq _ _
  obtain ⟨S, hadd, hS⟩ : ∃ S, a.add b = .ok S ∧ Tabulates S a.rowCount a.colCount _ :=
    zipWith_tabulates hdims hrows (.inl hc) hp hsum
  have hSrange : S.range = a.range := by
    have hsum' : a.add b = pure _ := zipWith_eq_of_cells hdims hrows (.inl hc) hp hsum
    rw [hsum'] at hadd
    cases hadd
    simp
  obtain ⟨R, hsub, hR⟩ : ∃ R, S.subtract b = .ok R ∧
      Tabulates R S.rowCount S.colCount fun r c => S.get r c - b.get r c :=
    zipWith_tabulates (hS.dims.trans hdims) (hS.rowCount_eq ▸ hrows)
    (.inl (hSrange ▸ hc)) (by rw [hSrange, hS.rowCount_eq]; exact hp)
    fun _ _ _ _ => ExactArith.sub_eq _ _
  refine ⟨S, R, hadd, hsub, ?_⟩
  rw [hS.rowCount_eq, hS.colCount_eq] at hR
  -- inside the size the difference is `(a + b) - b`, which is `a`
  refine hR.congr fun r c hr hc => ?_
  rw [hS.get_eq_of_isZero hzero hr hc, add_sub_cancel_right]

/-- Over exact arithmetic, subtracting `b` from `a + b` gives back `a`, when the loop runs
and the cells of `a` lie inside its size, each key once. -/
theorem subtract_add_cancel {a b : SparseMatrix α} (hrows : a.rowCount ≤ Text.wordMax)
    (hc : a.range.cancelled = false) (hp : a.range.PartialsFit a.rowCount)
    (hnd : (a.entries.map Prod.fst).Nodup) (hin : a.store.Bounded 0) (hdims : a.dims = b.dims) :
    ∃ S R, a.add b = .ok S ∧ S.subtract b = .ok R ∧ R.beq a = true := by
  obtain ⟨S, R, hadd, hsub, hR⟩ := subtract_add_tabulates hrows hc hp hdims
  refine ⟨S, R, hadd, hsub, ?_⟩
  rw [(beq_iff_entrywise ExactArith.eq_comm' ((ExactArith.eq_iff _ _).mpr rfl) R a hR.keys_nodup
    hnd hR.bounded hin).1]
  refine ⟨hR.dims, fun r c hr hc => ?_⟩
  rw [hR.rowCount_eq] at hr
  rw [hR.colCount_eq] at hc
  rw [ExactArith.eq_iff,
    hR.get_eq_of_isZero (fun _ hv => (ExactArith.reading α).eq_zero_of_isZero hv) hr hc]

end Exact

/-! ## The five operations -/

section Operations

variable [Arith α]

/-- The element-wise operations on `a`, and on `b` of the same size, over any element
arithmetic, floats included. `add` and `subtract` report a size mismatch exactly when the
sizes differ. With a cancelled token and at least one row every operation stops with
`cancelled`. Otherwise, when the answers of the chunks of the loop over the rows fit their
buffer, whenever the arithmetic computes a value `g r c` at every index inside the size
(for word types: no cell overflows), each operation returns the matrix that tabulates `g`
(`Tabulates`): the size of `a`, and exactly the values of `g` that are not zero written,
each once; when they do not fit, every operation faults with `capacityOverflow`. Over exact
arithmetic, `subtract (add a b) b` equals `a` when the cells of `a` lie inside its size,
each key once. -/
theorem elementwise_tabulates (a b : SparseMatrix α) (s : α) (hrows : a.rowCount ≤ Text.wordMax) :
    ((∃ e, a.add b = .error (.error e) ∧ e.kind = "DimensionMismatch") ↔ a.dims ≠ b.dims) ∧
    ((∃ e, a.subtract b = .error (.error e) ∧ e.kind = "DimensionMismatch") ↔
      a.dims ≠ b.dims) ∧
    (a.token.any (·.cancelled) = true → 0 < a.rowCount →
      (a.dims = b.dims → a.add b = .error (.error .cancelled) ∧
        a.subtract b = .error (.error .cancelled)) ∧
      a.multiplyScalar s = .error (.error .cancelled) ∧
      a.addScalar s = .error (.error .cancelled) ∧ a.conjugate = .error (.error .cancelled)) ∧
    ((a.token.any (·.cancelled) = false ∨ a.rowCount = 0) → a.range.PartialsFit a.rowCount →
      (a.dims = b.dims → ∀ g : Nat → Nat → α, (∀ r c, r < a.rowCount → c < a.colCount →
          Arith.add (a.get r c) (b.get r c) = pure (g r c)) →
        ∃ R, a.add b = .ok R ∧ Tabulates R a.rowCount a.colCount g) ∧
      (a.dims = b.dims → ∀ g : Nat → Nat → α, (∀ r c, r < a.rowCount → c < a.colCount →
          Arith.sub (a.get r c) (b.get r c) = pure (g r c)) →
        ∃ R, a.subtract b = .ok R ∧ Tabulates R a.rowCount a.colCount g) ∧
      (∀ g : Nat → Nat → α, (∀ r c, r < a.rowCount → c < a.colCount →
          Arith.mul (a.get r c) s = pure (g r c)) →
        ∃ R, a.multiplyScalar s = .ok R ∧ Tabulates R a.rowCount a.colCount g) ∧
      (∀ g : Nat → Nat → α, (∀ r c, r < a.rowCount → c < a.colCount →
          Arith.add (a.get r c) s = pure (g r c)) →
        ∃ R, a.addScalar s = .ok R ∧ Tabulates R a.rowCount a.colCount g) ∧
      ∃ R, a.conjugate = .ok R ∧ Tabulates R a.rowCount a.colCount a.get) ∧
    (a.token.any (·.cancelled) = false → ¬a.range.PartialsFit a.rowCount →
      (a.dims = b.dims → a.add b = .error (.fault .capacityOverflow) ∧
        a.subtract b = .error (.fault .capacityOverflow)) ∧
      a.multiplyScalar s = .error (.fault .capacityOverflow) ∧
      a.addScalar s = .error (.fault .capacityOverflow) ∧
      a.conjugate = .error (.fault .capacityOverflow)) ∧
    (∀ [CommRing α] [Width α] [ExactArith α], a.token.any (·.cancelled) = false →
      a.range.PartialsFit a.rowCount → (a.entries.map Prod.fst).Nodup → a.store.Bounded 0 →
      a.dims = b.dims → ∃ S R, a.add b = .ok S ∧ S.subtract b = .ok R ∧ R.beq a = true) := by
  refine ⟨zipWith_dimensionMismatch_iff hrows, zipWith_dimensionMismatch_iff hrows,
    fun hc hm => ⟨fun hdims => ⟨zipWith_cancelled hdims hc hm, zipWith_cancelled hdims hc hm⟩,
      mapAll_cancelled hc hm, mapAll_cancelled hc hm, mapAll_cancelled hc hm⟩,
    fun hc hp => ⟨fun hdims _ hg => zipWith_tabulates hdims hrows hc hp hg,
      fun hdims _ hg => zipWith_tabulates hdims hrows hc hp hg,
      fun _ hg => mapAll_tabulates hrows hc hp hg, fun _ hg => mapAll_tabulates hrows hc hp hg,
      mapAll_tabulates hrows hc hp fun _ _ _ _ => rfl⟩,
    fun hc hp => ⟨fun hdims =>
        ⟨zipWith_partials_overflow hdims hc hp, zipWith_partials_overflow hdims hc hp⟩,
      mapAll_partials_overflow hc hp, mapAll_partials_overflow hc hp,
      mapAll_partials_overflow hc hp⟩,
    fun hc hp hnd hin hdims => subtract_add_cancel hrows hc hp hnd hin hdims⟩

open Host in
/-- The operations on the `2 × 2` integer shear `[[1, 3], [0, 1]]` and a matrix with one
cell: the sum is tabulated, and subtracting gives the shear back. -/
theorem elementwise_tabulates_shear :
    ((identity 2 : SparseMatrix Int).set 0 1 3).rowCount ≤ Text.wordMax ∧
    (∃ R, ((identity 2 : SparseMatrix Int).set 0 1 3).add ((zeros 2 2).set 1 0 5) = .ok R ∧
      Tabulates R ((identity 2 : SparseMatrix Int).set 0 1 3).rowCount
        ((identity 2 : SparseMatrix Int).set 0 1 3).colCount fun r c =>
          ((identity 2 : SparseMatrix Int).set 0 1 3).get r c +
            ((zeros 2 2 : SparseMatrix Int).set 1 0 5).get r c) ∧
    ∃ S R, ((identity 2 : SparseMatrix Int).set 0 1 3).add ((zeros 2 2).set 1 0 5) = .ok S ∧
      S.subtract ((zeros 2 2).set 1 0 5) = .ok R ∧
      R.beq ((identity 2 : SparseMatrix Int).set 0 1 3) = true := by
  have hrows : ((identity 2 : SparseMatrix Int).set 0 1 3).rowCount ≤ Text.wordMax := by decide
  have h := elementwise_tabulates ((identity 2 : SparseMatrix Int).set 0 1 3)
    ((zeros 2 2).set 1 0 5) 0 hrows
  have hin : ((identity 2 : SparseMatrix Int).set 0 1 3).store.Bounded 0 := by
    unfold Store.Bounded
    decide
  exact ⟨hrows, (h.2.2.2.1 (.inl rfl) (by decide)).1 (by decide) _ fun _ _ _ _ => rfl,
    h.2.2.2.2.2 rfl (by decide) (by decide) hin (by decide)⟩

open Host in
/-- Three inputs on which the element-wise operations answer otherwise than without
conditions. With a cancelled token, the sum of two `1 × 1` matrices stops with `cancelled`.
A written zero fraction `0/5` passes the zero test, so `conjugate` does not write it and
reads the element's zero `0/1` there. A cell written at the largest row lies on the
saturated bound, outside the size the loops run over, so `subtract (add a b) b` drops it
and differs from `a`. -/
theorem elementwise_cancelled_zero_saturated :
    (identity 1 : SparseMatrix Int).attachToken.cancel.add (identity 1) =
      .error (.error .cancelled) ∧
    (∃ R, ((zeros 1 1 : SparseMatrix Fraction).set 0 0 ⟨Word.ofInt 0, Word.ofInt 5⟩).conjugate =
        .ok R ∧
      R.get 0 0 ≠ ((zeros 1 1 : SparseMatrix Fraction).set 0 0 ⟨Word.ofInt 0, Word.ofInt 5⟩).get 0 0) ∧
    ∃ S R, ((new : SparseMatrix Int).set Text.wordMax 0 1).add (zeros Text.wordMax 1) = .ok S ∧
      S.subtract (zeros Text.wordMax 1) = .ok R ∧
      R.beq ((new : SparseMatrix Int).set Text.wordMax 0 1) = false := by
  refine ⟨zipWith_cancelled rfl rfl (by decide), ?_, ?_⟩
  · -- the copy of `0/5` is not written
    obtain ⟨R, hR, hT⟩ := mapAll_tabulates (a := (zeros 1 1 : SparseMatrix Fraction).set 0 0
      ⟨Word.ofInt 0, Word.ofInt 5⟩) (f := pure) (by decide) (.inl rfl) (by decide)
      fun _ _ _ _ => rfl
    refine ⟨R, hR, ?_⟩
    rw [hT.get_eq 0 0 (by decide) (by decide)]
    decide
  · -- the difference tabulates the matrix over its size, which leaves out the row of the cell
    have hrows : ((new : SparseMatrix Int).set Text.wordMax 0 1).rowCount = Text.wordMax := by
      decide
    obtain ⟨S, R, hadd, hsub, hR⟩ := subtract_add_tabulates (b := zeros Text.wordMax 1)
      (Nat.le_of_eq hrows) rfl (by decide) (by decide)
    refine ⟨S, R, hadd, hsub, Bool.eq_false_iff.mpr fun h => ?_⟩
    have hout : R.get Text.wordMax 0 = Arith.zero :=
      get_eq_zero_of_bounded hR.bounded (.inl (by rw [hR.rowCount_eq, hrows]))
    simp only [beq, Bool.and_eq_true, List.all_eq_true] at h
    have hcell := h.2 (⟨Text.wordMax, 0⟩, 1) (by decide)
    rw [hout] at hcell
    exact absurd hcell (by decide)

end Operations

end SparseMatrix
