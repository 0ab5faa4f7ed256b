import SparseMatrix.Element
import SparseMatrix.LinearAlgebra
import SparseMatrix.Proofs.Cells
import SparseMatrix.Proofs.Determinant

/-!
# Answers do not depend on the degree of parallelism

The degree of a matrix's configuration decides only how its loops are cut into chunks.
`withDegree m d` is `m` with degree `d`, what `setDegree` makes of it (`setDegree_eq`).
Giving the operands of an operation another degree gives its result that degree and
changes nothing else: the same bounds and cells, the same element, flag or failure.

* Loops that keep no results, or whose bodies fail only with faults, answer the same at
  every degree whose chunks' answers fit their buffer (`tryMap_withDegree`, from
  `Range.tryMap_congr`): the element-wise operations, the product and its powers,
  transposes, diagonals, minors, the trace, and the orthogonality tests
  (`zipWith_withDegree` … `isUnitary_withDegree`).
* The expansion of a determinant keeps its terms in a buffer. When the terms of one row
  fit a buffer, `det` answers the same at every degree (`det_congr`), and so do
  `determinant` and `inverse`.

`Op.run` runs each operation on matrices and reports its `Outcome`;
`run_withDegree_eq_degree_one` says the outcome at any degree is the outcome at degree one,
when the answers of the chunks of the operation's longest loop (`Op.span`) fit their
buffer at that degree. A degree past that faults before the loop runs.

The condition on the buffer of the terms cannot be dropped either. Of a `UInt64` matrix of size `2^60` the
terms of one row take `2^63` bytes: at degree one the expansion asks for that buffer and
faults with `capacityOverflow`, at degree two each half fits, and the cofactor of column
one underflows first (`determinant_depends_on_degree`).
-/

namespace SparseMatrix

variable {α β : Type}

/-! ## Another degree -/

/-- The matrix with degree of parallelism `d`. -/
def withDegree (m : SparseMatrix α) (d : Nat) : SparseMatrix α :=
  { m with config := ⟨d⟩ }

theorem setDegree_eq (m : SparseMatrix α) {d : Nat} (hd : d ≠ 0) :
    m.setDegree d = .ok (m.withDegree d) := by
  simp [setDegree, Config.new, hd]
  rfl

@[simp] theorem rowCount_withDegree (m : SparseMatrix α) (d : Nat) :
    (m.withDegree d).rowCount = m.rowCount :=
  rfl

@[simp] theorem colCount_withDegree (m : SparseMatrix α) (d : Nat) :
    (m.withDegree d).colCount = m.colCount :=
  rfl

@[simp] theorem dims_withDegree (m : SparseMatrix α) (d : Nat) :
    (m.withDegree d).dims = m.dims :=
  rfl

@[simp] theorem isSquare_withDegree (m : SparseMatrix α) (d : Nat) :
    (m.withDegree d).isSquare = m.isSquare :=
  rfl

@[simp] theorem derived_withDegree (m : SparseMatrix α) (d r c : Nat) :
    ((m.withDegree d).derived r c : SparseMatrix β) = (m.derived r c).withDegree d :=
  rfl

@[simp] theorem withCells_withDegree (m : SparseMatrix α) (d : Nat) (cells : List (Key × α)) :
    (m.withDegree d).withCells cells = (m.withCells cells).withDegree d :=
  rfl

@[simp] theorem set_withDegree (m : SparseMatrix α) (d r c : Nat) (v : α) :
    (m.withDegree d).set r c v = (m.set r c v).withDegree d :=
  rfl

theorem clone_withDegree (m : SparseMatrix α) (d : Nat) :
    (m.withDegree d).clone = m.clone.withDegree d := by
  rw [clone_eq, clone_eq]
  rfl

theorem ensureSquare_withDegree (m : SparseMatrix α) (d : Nat) :
    ensureSquare (m.withDegree d) = ensureSquare m :=
  rfl

theorem range_withDegree_cancelled (m : SparseMatrix α) (d : Nat) :
    (m.withDegree d).range.cancelled = m.range.cancelled :=
  rfl

theorem guard_withDegree (m : SparseMatrix α) (d start stop : Nat)
    (hp : m.range.PartialsFit (stop - start))
    (hp' : (m.withDegree d).range.PartialsFit (stop - start)) :
    (m.withDegree d).range.guard start stop = m.range.guard start stop :=
  Range.guard_congr rfl hp' hp

theorem ensureSquare_ok {m : SparseMatrix α} {n : Nat}
    (h : (liftM (ensureSquare m) : Except Failure Nat) = .ok n) : n = m.rowCount := by
  unfold ensureSquare at h
  split at h
  · injection h with h
    exact h.symm
  · cases h

/-- A loop over the range of a matrix answers the same at every degree, under the
conditions of `Range.tryMap_eq_sequential` at both degrees. -/
theorem tryMap_withDegree (m : SparseMatrix α) (d : Nat) {width start stop : Nat}
    {body : Nat → Except Failure β} (hlen : stop - start ≤ Text.wordMax)
    (hp : m.range.PartialsFit (stop - start))
    (hp' : (m.withDegree d).range.PartialsFit (stop - start))
    (hbody : m.range.cancelled = false →
      ∀ i, start ≤ i → i < stop → FailsWith Failure.IsFault (body i))
    (hfit : m.range.cancelled = false → (stop - start) * width ≤ bufferLimit ∨
      ∀ i, start ≤ i → i < stop → FailsWith (· = .fault .capacityOverflow) (body i)) :
    (m.withDegree d).range.tryMap width start stop body = m.range.tryMap width start stop body :=
  Range.tryMap_congr (range_degree _) (range_degree m) rfl hlen hp' hp hbody hfit

/-! ## Matrices that move written cells -/

theorem transpose_withDegree (m : SparseMatrix α) (d : Nat)
    (hp : m.range.PartialsFit m.colCount) (hp' : (m.withDegree d).range.PartialsFit m.colCount) :
    (m.withDegree d).transpose = (·.withDegree d) <$> m.transpose := by
  unfold transpose
  simp only [rowCount_withDegree, colCount_withDegree, derived_withDegree, withCells_withDegree,
    guard_withDegree m d 0 m.colCount hp hp', map_bind, map_pure]
  rfl

theorem transposed_cells_lt (m : SparseMatrix α) :
    ∀ kv ∈ sortCells ((m.entries.filter fun kv => m.inBounds kv.1).map fun (k, v) => ((⟨k.col, k.row⟩ : Key), v)),
      kv.1.row < m.colCount ∧ kv.1.col < m.rowCount := by
  intro kv hkv
  rw [sortCells, List.mem_mergeSort] at hkv
  obtain ⟨⟨k, v⟩, hmem, rfl⟩ := List.mem_map.mp hkv
  have hin := (List.mem_filter.mp hmem).2
  simp only [inBounds, Bool.and_eq_true, decide_eq_true_eq] at hin
  exact ⟨hin.2, hin.1⟩

/-- The transpose of an `r × c` matrix is `c × r`. -/
theorem dims_transpose {m t : SparseMatrix α} (ht : m.transpose = .ok t) :
    t.rowCount = m.colCount ∧ t.colCount = m.rowCount := by
  unfold transpose at ht
  obtain ⟨_, -, ht⟩ := bind_eq_ok ht
  cases ht
  have hlt := transposed_cells_lt m
  exact ⟨rowCount_withCells fun kv hkv => (hlt kv hkv).1,
    colCount_withCells fun kv hkv => (hlt kv hkv).2⟩

/-- The transpose keeps the configuration and the token of its operand. -/
theorem transpose_ok_loops {m t : SparseMatrix α} (ht : m.transpose = .ok t) :
    t.config = m.config ∧ t.token = m.token := by
  unfold transpose at ht
  obtain ⟨_, -, ht⟩ := bind_eq_ok ht
  cases ht
  exact ⟨rfl, rfl⟩

/-- Matrices with one configuration and token run their loops alike, at every degree. -/
theorem range_congr {a b : SparseMatrix α} (hconfig : b.config = a.config)
    (htoken : b.token = a.token) (d : Nat) :
    b.range = a.range ∧ (b.withDegree d).range = (a.withDegree d).range := by
  refine ⟨?_, ?_⟩ <;> simp only [range, withDegree, hconfig, htoken]

theorem diag_withDegree (m : SparseMatrix α) (d : Nat)
    (hp : m.range.PartialsFit m.rowCount) (hp' : (m.withDegree d).range.PartialsFit m.rowCount) :
    (m.withDegree d).diag = (·.withDegree d) <$> m.diag := by
  unfold diag
  simp only [rowCount_withDegree, colCount_withDegree, derived_withDegree, withCells_withDegree,
    guard_withDegree m d 0 m.rowCount hp hp']
  by_cases h : m.colCount > 1
  · simp only [h, if_true]
    rfl
  · simp only [h, if_false, map_bind, map_pure]
    rfl

theorem diagVector_withDegree (m : SparseMatrix α) (d : Nat)
    (hp : m.range.PartialsFit m.rowCount) (hp' : (m.withDegree d).range.PartialsFit m.rowCount) :
    (m.withDegree d).diagVector = (·.withDegree d) <$> m.diagVector := by
  unfold diagVector
  rw [ensureSquare_withDegree, map_bind]
  refine bind_congr_of_ok fun n hn => ?_
  obtain rfl := ensureSquare_ok hn
  simp only [derived_withDegree, withCells_withDegree, guard_withDegree m d 0 m.rowCount hp hp',
    map_bind, map_pure]
  rfl

theorem minor_withDegree (m : SparseMatrix α) (d i j : Nat)
    (hp : m.range.PartialsFit (m.rowCount - 1))
    (hp' : (m.withDegree d).range.PartialsFit (m.rowCount - 1)) :
    (m.withDegree d).minor i j = (·.withDegree d) <$> m.minor i j := by
  unfold minor
  simp only [rowCount_withDegree, colCount_withDegree, derived_withDegree, withCells_withDegree,
    guard_withDegree m d 0 (m.rowCount - 1) hp hp']
  by_cases hi : m.rowCount ≤ i
  · simp only [hi, if_true]
    rfl
  by_cases hj : m.colCount ≤ j
  · simp only [hi, hj, if_true, if_false]
    rfl
  simp only [hi, hj, if_false, map_bind, map_pure]
  rfl

section Values

variable [Arith α]

@[simp] theorem get_withDegree (m : SparseMatrix α) (d : Nat) :
    (m.withDegree d).get = m.get :=
  rfl

@[simp] theorem isDiagonal_withDegree (m : SparseMatrix α) (d : Nat) :
    (m.withDegree d).isDiagonal = m.isDiagonal :=
  rfl

@[simp] theorem rowTerms_withDegree (a : SparseMatrix α) (d i k : Nat) :
    (a.withDegree d).rowTerms i k = a.rowTerms i k :=
  rfl

@[simp] theorem rowTimesColumn_withDegree (terms : List (Nat × α)) (b : SparseMatrix α)
    (d j : Nat) : rowTimesColumn terms (b.withDegree d) j = rowTimesColumn terms b j :=
  rfl

theorem rowOf_failsWith (r cols : Nat) (f : Nat → Except Fault α) :
    FailsWith Failure.IsFault (rowOf r cols f) :=
  failsWith_filterMapM fun c _ => FailsWith.bind (failsWith_lift (f c)) fun _ _ => failsWith_ok _

/-- The cells of row `r` computed by `rowOf` lie in row `r`, in the columns below `cols`. -/
theorem rowOf_ok_keys {r cols : Nat} {f : Nat → Except Fault α} {cells : List (Key × α)}
    (h : rowOf r cols f = .ok cells) : ∀ kv ∈ cells, kv.1.row = r ∧ kv.1.col < cols := by
  intro kv hkv
  obtain ⟨c, hc, hfc⟩ := mem_of_filterMapM_ok h kv hkv
  obtain ⟨v, -, hv⟩ := bind_eq_ok hfc
  injection hv with hv
  split at hv
  · cases hv
  · cases hv
    exact ⟨rfl, List.mem_range.mp hc⟩

omit [Arith α] in
/-- The cells of rows computed one by one, row `i` holding keys of row `i` in the columns
below `cols`, lie inside `n × cols`. -/
theorem flatten_rows_lt {r : Range} {n cols : Nat} {body : Nat → Except Failure (List (Key × α))}
    {rows : List (List (Key × α))}
    (hbody : ∀ i cells, body i = .ok cells → ∀ kv ∈ cells, kv.1.row = i ∧ kv.1.col < cols)
    (h : r.tryMap 0 0 n body = .ok rows) : ∀ kv ∈ rows.flatten, kv.1.row < n ∧ kv.1.col < cols := by
  intro kv hkv
  obtain ⟨cells, hcells, hkv⟩ := List.mem_flatten.mp hkv
  obtain ⟨i, -, hi, hbi⟩ := Range.mem_of_tryMap_ok h cells hcells
  obtain ⟨hrow, hcol⟩ := hbody i cells hbi kv hkv
  exact ⟨hrow ▸ hi, hcol⟩


/-! ## Matrices computed cell by cell -/

theorem zipWith_withDegree (a b : SparseMatrix α) (d : Nat) (op : String)
    (f : α → α → Except Fault α) (hrows : a.rowCount ≤ Text.wordMax)
    (hp : a.range.PartialsFit a.rowCount) (hp' : (a.withDegree d).range.PartialsFit a.rowCount) :
    (a.withDegree d).zipWith (b.withDegree d) op f = (·.withDegree d) <$> a.zipWith b op f := by
  unfold zipWith
  simp only [dims_withDegree, rowCount_withDegree, colCount_withDegree, get_withDegree,
    derived_withDegree, withCells_withDegree]
  rw [tryMap_withDegree a d (by omega) hp hp' (fun _ r _ _ => rowOf_failsWith _ _ _)
    (fun _ => .inl (by simp))]
  by_cases h : (a.dims != b.dims) = true
  · simp only [h, ↓reduceIte]
    rfl
  · simp only [h, Bool.false_eq_true, if_false, map_bind, map_pure]

theorem mapAll_withDegree (a : SparseMatrix α) (d : Nat) (f : α → Except Fault α)
    (hrows : a.rowCount ≤ Text.wordMax)
    (hp : a.range.PartialsFit a.rowCount) (hp' : (a.withDegree d).range.PartialsFit a.rowCount) :
    (a.withDegree d).mapAll f = (·.withDegree d) <$> a.mapAll f := by
  unfold mapAll
  simp only [rowCount_withDegree, colCount_withDegree, get_withDegree, derived_withDegree,
    withCells_withDegree]
  rw [tryMap_withDegree a d (by omega) hp hp' (fun _ r _ _ => rowOf_failsWith _ _ _)
    (fun _ => .inl (by simp))]
  simp only [map_bind, map_pure]

/-- A matrix computed cell by cell has the columns, configuration and token of its
operand. -/
theorem mapAll_ok_shape {a c : SparseMatrix α} {f : α → Except Fault α}
    (hc : a.mapAll f = .ok c) : c.colCount = a.colCount ∧ c.config = a.config ∧ c.token = a.token := by
  unfold mapAll at hc
  obtain ⟨rows, hrows, hc⟩ := bind_eq_ok hc
  cases hc
  exact ⟨colCount_withCells fun kv hkv =>
    (flatten_rows_lt (fun _ _ hi => rowOf_ok_keys hi) hrows kv hkv).2, rfl, rfl⟩

/-! ## Products -/

section Product

variable [Width α]

theorem dotProduct_withDegree (a b : SparseMatrix α) (d d' : Nat)
    (hrows : a.rowCount ≤ Text.wordMax)
    (hp : a.range.PartialsFit a.rowCount) (hp' : (a.withDegree d).range.PartialsFit a.rowCount) :
    (a.withDegree d).dotProduct (b.withDegree d') = (·.withDegree d) <$> a.dotProduct b := by
  unfold dotProduct
  simp only [rowCount_withDegree, colCount_withDegree, rowTerms_withDegree,
    rowTimesColumn_withDegree, derived_withDegree, withCells_withDegree]
  rw [tryMap_withDegree a d (by omega) hp hp'
    (fun _ r _ _ => FailsWith.bind (failsWith_lift _) fun _ _ => rowOf_failsWith _ _ _)
    (fun _ => .inl (by simp))]
  by_cases h : a.colCount = b.rowCount
  · simp only [h, ne_eq, not_true_eq_false, if_false, map_bind, map_pure]
  · simp only [h, ne_eq, not_false_eq_true, if_true]
    rfl

/-- A product has the rows of its left operand, and its configuration and token. -/
theorem dotProduct_ok_shape {a b p : SparseMatrix α} (hp : a.dotProduct b = .ok p) :
    p.rowCount = a.rowCount ∧ p.config = a.config ∧ p.token = a.token := by
  unfold dotProduct at hp
  split at hp
  · cases hp
  obtain ⟨rows, hrows, hp⟩ := bind_eq_ok hp
  cases hp
  have hcells : ∀ kv ∈ rows.flatten, kv.1.row < a.rowCount ∧ kv.1.col < b.colCount :=
    flatten_rows_lt (fun i cells hi => by
      obtain ⟨_, -, hi⟩ := bind_eq_ok hi
      exact rowOf_ok_keys hi) hrows
  exact ⟨rowCount_withCells fun kv hkv => (hcells kv hkv).1, rfl, rfl⟩

/-- Powers multiply one product after another: each product answers the same at every
degree whose chunks' answers fit, and keeps the rows, configuration and token of the one
before. -/
theorem timesPower_withDegree (m : SparseMatrix α) (d : Nat) :
    ∀ (k : Nat) (acc : SparseMatrix α), acc.rowCount ≤ Text.wordMax →
      acc.range.PartialsFit acc.rowCount → (acc.withDegree d).range.PartialsFit acc.rowCount →
      timesPower (m.withDegree d) k (acc.withDegree d) = (·.withDegree d) <$> timesPower m k acc
  | 0, _, _, _, _ => rfl
  | k + 1, acc, hacc, hp, hp' => by
    rw [timesPower, timesPower, dotProduct_withDegree acc m d d hacc hp hp', map_bind,
      bind_map_left]
    refine bind_congr_of_ok fun p hprod => ?_
    obtain ⟨hrows, hconfig, htoken⟩ := dotProduct_ok_shape hprod
    obtain ⟨hrange, hrange'⟩ := range_congr hconfig htoken d
    refine timesPower_withDegree m d k p (hrows ▸ hacc) ?_ ?_
    · rw [hrange, hrows]
      exact hp
    · rw [hrange', hrows]
      exact hp'

theorem power_withDegree (m : SparseMatrix α) (d e : Nat) (hrows : m.rowCount ≤ Text.wordMax)
    (hp : m.range.PartialsFit m.clone.rowCount)
    (hp' : (m.withDegree d).range.PartialsFit m.clone.rowCount) :
    (m.withDegree d).power e = (·.withDegree d) <$> m.power e := by
  unfold power
  rw [ensureSquare_withDegree, map_bind]
  refine bind_congr fun n => ?_
  by_cases he : e = 0
  · simp only [he, if_true, derived_withDegree, withCells_withDegree, map_pure]
  · simp only [he, if_false, clone_withDegree]
    exact timesPower_withDegree m d (e - 1) m.clone (rowCount_withCells_le _ hrows) hp hp'

theorem isOrthogonal_withDegree [Host] (m : SparseMatrix α) (d : Nat)
    (hrows : m.rowCount ≤ Text.wordMax)
    (hp : m.range.PartialsFit m.rowCount) (hp' : (m.withDegree d).range.PartialsFit m.rowCount) :
    (m.withDegree d).isOrthogonal = m.isOrthogonal := by
  unfold isOrthogonal
  simp only [isSquare_withDegree, rowCount_withDegree]
  by_cases hsq : m.isSquare = true
  · have hcols : m.colCount = m.rowCount := by
      simp only [isSquare, beq_iff_eq] at hsq
      omega
    simp only [hsq, Bool.not_true, Bool.false_eq_true, if_false]
    rw [transpose_withDegree m d (hcols ▸ hp) (hcols ▸ hp'), bind_map_left]
    refine bind_congr fun t => ?_
    rw [dotProduct_withDegree m t d d hrows hp hp', bind_map_left]
    rfl
  · simp only [hsq, Bool.not_false, if_true]

theorem isUnitary_withDegree [Host] (m : SparseMatrix α) (d : Nat) (hrows : m.rowCount ≤ Text.wordMax)
    (hp : m.range.PartialsFit m.rowCount) (hp' : (m.withDegree d).range.PartialsFit m.rowCount) :
    (m.withDegree d).isUnitary = m.isUnitary := by
  unfold isUnitary
  simp only [isSquare_withDegree, rowCount_withDegree]
  by_cases hsq : m.isSquare = true
  · have hcols : m.colCount = m.rowCount := by
      simp only [isSquare, beq_iff_eq] at hsq
      omega
    simp only [hsq, Bool.not_true, Bool.false_eq_true, if_false]
    rw [conjugate, mapAll_withDegree m d pure hrows hp hp', bind_map_left]
    refine bind_congr_of_ok fun c hc => ?_
    obtain ⟨hccols, hcconfig, hctoken⟩ := mapAll_ok_shape hc
    obtain ⟨hcrange, hcrange'⟩ := range_congr hcconfig hctoken d
    rw [transpose_withDegree c d (by rw [hcrange, hccols, hcols]; exact hp)
      (by rw [hcrange', hccols, hcols]; exact hp'), bind_map_left]
    refine bind_congr_of_ok fun ct hct => ?_
    obtain ⟨hctconfig, hcttoken⟩ := transpose_ok_loops hct
    obtain ⟨hctrange, hctrange'⟩ := range_congr (hctconfig.trans hcconfig) (hcttoken.trans hctoken) d
    have hctrows : ct.rowCount = m.rowCount := by rw [(dims_transpose hct).1, hccols, hcols]
    rw [dotProduct_withDegree ct m d d (by omega) (by rw [hctrange, hctrows]; exact hp)
      (by rw [hctrange', hctrows]; exact hp'), bind_map_left]
    rfl
  · simp only [hsq, Bool.not_false, if_true]

theorem trace_withDegree (a : SparseMatrix α) (d : Nat) (hrows : a.rowCount ≤ Text.wordMax)
    (hp : a.range.PartialsFit a.rowCount) (hp' : (a.withDegree d).range.PartialsFit a.rowCount) :
    (a.withDegree d).trace = a.trace := by
  unfold trace
  rw [ensureSquare_withDegree]
  refine bind_congr_of_ok fun n hn => ?_
  obtain rfl := ensureSquare_ok hn
  -- reading the diagonal cannot fail, so only the buffer of all of it can
  rw [get_withDegree, tryMap_withDegree a d (by omega) hp hp'
    (fun _ _ _ _ => ?_) (fun _ => .inr fun _ _ _ => ?_)]
  all_goals exact failsWith_ok _

/-! ## Determinants -/

/-- On a loop whose token is not cancelled, `det` fails only with faults. -/
theorem det_failsWith {r : Range} (hd : 1 ≤ r.degree) (hc : r.cancelled = false) :
    ∀ (n : Nat) (a : Nat → Nat → α), n ≤ Text.wordMax → FailsWith Failure.IsFault (det r n a)
  | 0, _, _ => failsWith_ok _
  | 1, _, _ => failsWith_ok _
  | 2, _, _ => failsWith_lift _
  | 3, _, _ => failsWith_lift _
  | 4, _, _ => failsWith_lift _
  | n + 5, a, hn => by
    rw [det]
    unfold expandFirstRow
    refine FailsWith.bind (Range.tryMap_failsWith hd (by omega) hc fun j _ _ => ?_)
      fun _ _ => failsWith_lift _
    dsimp only
    split
    · exact failsWith_ok _
    · exact (det_failsWith hd hc (n + 4) _ (by omega)).bind fun _ _ =>
        (failsWith_lift _).bind fun _ _ => failsWith_lift _

/-- The expansion along the first row answers the same on two loops with one token, when
the terms of the row fit a buffer and each minor's determinant fails only with faults. -/
theorem expandFirstRow_congr {r r' : Range} (hd : 1 ≤ r.degree) (hd' : 1 ≤ r'.degree)
    (hc : r.cancelled = r'.cancelled) {n : Nat} {a : Nat → Nat → α}
    {minorDet : Nat → Except Failure α} (hn : n ≤ Text.wordMax)
    (hfit : n * Width.bytes α ≤ bufferLimit) (hp : r.PartialsFit n) (hp' : r'.PartialsFit n)
    (hminor : r.cancelled = false → ∀ j, j < n → FailsWith Failure.IsFault (minorDet j)) :
    expandFirstRow r n a minorDet = expandFirstRow r' n a minorDet := by
  unfold expandFirstRow
  rw [Range.tryMap_congr hd hd' hc (by omega) (show r.PartialsFit (n - 0) from hp)
    (show r'.PartialsFit (n - 0) from hp') (fun hc0 j _ hj => ?_)
    (fun _ => .inl (by simpa using hfit))]
  dsimp only
  split
  · exact failsWith_ok _
  · exact (hminor hc0 j hj).bind fun _ _ => (failsWith_lift _).bind fun _ _ => failsWith_lift _

/-- `det` answers the same on two loops with one token, at every size whose expansion
terms and chunks' answers fit their buffers: by induction on the size, the minors first. -/
theorem det_congr {r r' : Range} (hd : 1 ≤ r.degree) (hd' : 1 ≤ r'.degree)
    (hc : r.cancelled = r'.cancelled) :
    ∀ (n : Nat) (a : Nat → Nat → α), n ≤ Text.wordMax → n * Width.bytes α ≤ bufferLimit →
      r.PartialsFit n → r'.PartialsFit n → det r n a = det r' n a
  | 0, _, _, _, _, _ => rfl
  | 1, _, _, _, _, _ => rfl
  | 2, _, _, _, _, _ => rfl
  | 3, _, _, _, _, _ => rfl
  | 4, _, _, _, _, _ => rfl
  | n + 5, a, hn, hfit, hp, hp' => by
    have hfit' : (n + 4) * Width.bytes α ≤ bufferLimit :=
      Nat.le_trans (Nat.mul_le_mul_right _ (by omega)) hfit
    have hminor : ∀ j, det r (n + 4) (Tabulated.of (n + 4) (minorFn a 0 j)).read =
        det r' (n + 4) (Tabulated.of (n + 4) (minorFn a 0 j)).read :=
      fun j => det_congr hd hd' hc (n + 4) _ (by omega) hfit' (hp.of_le (by omega))
        (hp'.of_le (by omega))
    rw [det, det]
    simp only [← hminor]
    exact expandFirstRow_congr hd hd' hc hn hfit hp hp' fun hc0 j _ =>
      det_failsWith hd hc0 (n + 4) _ (by omega)

theorem determinant_withDegree (m : SparseMatrix α) (d : Nat) (hrows : m.rowCount ≤ Text.wordMax)
    (hfit : m.rowCount * Width.bytes α ≤ bufferLimit)
    (hp : m.range.PartialsFit m.rowCount) (hp' : (m.withDegree d).range.PartialsFit m.rowCount) :
    (m.withDegree d).determinant = m.determinant := by
  unfold determinant
  rw [ensureSquare_withDegree]
  refine bind_congr_of_ok fun n hn => ?_
  rw [ensureSquare_ok hn]
  split
  · exact det_congr (range_degree (m.withDegree d)) (range_degree m) rfl _ _ hrows hfit hp' hp
  · unfold cofactorExpansion
    have hfit' : (m.rowCount - 1) * Width.bytes α ≤ bufferLimit :=
      Nat.le_trans (Nat.mul_le_mul_right _ (by omega)) hfit
    have hminor : ∀ M, det (m.withDegree d).range (m.rowCount - 1) M =
        det m.range (m.rowCount - 1) M :=
      fun M => det_congr (range_degree (m.withDegree d)) (range_degree m) rfl _ M (by omega) hfit'
        (hp'.of_le (by omega)) (hp.of_le (by omega))
    simp only [get_withDegree, hminor]
    exact expandFirstRow_congr (range_degree (m.withDegree d)) (range_degree m) rfl hrows hfit hp'
      hp fun hc0 j _ => det_failsWith (range_degree m) hc0 _ _ (by omega)

/-- The inverse answers the same at every degree once the determinant does: the diagonal
loop keeps no buffer, and the adjugate's cofactors are determinants of minors, one size
smaller. -/
theorem inverse_withDegree (m : SparseMatrix α) (d : Nat) (hrows : m.rowCount ≤ Text.wordMax)
    (hfit : m.rowCount * Width.bytes α ≤ bufferLimit)
    (hp : m.range.PartialsFit (m.rowCount * m.rowCount))
    (hp' : (m.withDegree d).range.PartialsFit (m.rowCount * m.rowCount)) :
    (m.withDegree d).inverse = (·.withDegree d) <$> m.inverse := by
  have hsquare : m.rowCount ≤ m.rowCount * m.rowCount := Nat.le_mul_self _
  unfold inverse
  rw [ensureSquare_withDegree, determinant_withDegree m d hrows hfit (hp.of_le hsquare)
    (hp'.of_le hsquare)]
  simp only [map_bind]
  refine bind_congr_of_ok fun n hn => ?_
  refine bind_congr fun det0 => ?_
  by_cases hz : Arith.isZero det0 = true
  · simp only [hz, if_true]
    rfl
  obtain rfl := ensureSquare_ok hn
  simp only [hz, Bool.false_eq_true, if_false, derived_withDegree, set_withDegree,
    withCells_withDegree, isDiagonal_withDegree, get_withDegree]
  by_cases h0 : m.rowCount = 0
  · simp only [h0, if_true, map_pure]
  by_cases h1 : m.rowCount = 1
  · simp only [h1, if_true, one_ne_zero, if_false, map_bind, map_pure]
  simp only [h0, h1, if_false]
  by_cases hdiag : m.isDiagonal = true
  · simp only [hdiag, if_true, map_bind, map_pure]
    rw [tryMap_withDegree m d (by omega) (hp.of_le hsquare) (hp'.of_le hsquare)
      (fun _ i _ _ => ?_) (fun _ => .inl (by simp))]
    exact (failsWith_lift _).bind fun _ _ => failsWith_ok _
  simp only [hdiag, Bool.false_eq_true, if_false, map_bind, map_pure]
  have hdet : ∀ M, det (m.withDegree d).range (m.rowCount - 1) M =
      det m.range (m.rowCount - 1) M :=
    fun M => det_congr (range_degree (m.withDegree d)) (range_degree m) rfl _ M (by omega)
      (Nat.le_trans (Nat.mul_le_mul_right _ (by omega)) hfit)
      (hp'.of_le (Nat.le_trans (Nat.sub_le _ _) hsquare)) (hp.of_le (Nat.le_trans (Nat.sub_le _ _) hsquare))
  simp only [hdet]
  refine bind_congr_of_ok fun count hcount => ?_
  have hcount' : count ≤ Text.wordMax ∧ count = m.rowCount * m.rowCount := by
    unfold Size.mul Size.fit at hcount
    split at hcount
    · injection hcount with h
      omega
    · cases hcount
  rw [tryMap_withDegree m d (by omega) (by rw [Nat.sub_zero, hcount'.2]; exact hp)
    (by rw [Nat.sub_zero, hcount'.2]; exact hp') (fun hc0 k _ _ => ?_) (fun _ => .inl (by simp))]
  exact (det_failsWith (range_degree m) hc0 _ _ (by omega)).bind fun _ _ =>
    (failsWith_lift _).bind fun _ _ => (failsWith_lift _).bind fun _ _ => failsWith_ok _

end Product

end Values

/-! ## Every operation -/

/-- The operations of a matrix that answer a matrix, an element or a flag; the scalar,
the exponent and the removed row and column are part of the operation. -/
inductive Op (α : Type) where
  | clone
  | add
  | subtract
  | multiplyScalar (s : α)
  | addScalar (s : α)
  | conjugate
  | transpose
  | dotProduct
  | diag
  | diagVector
  | trace
  | minor (i j : Nat)
  | determinant
  | inverse
  | power (e : Nat)
  | isOrthogonal
  | isUnitary

/-- What an operation answers: a matrix seen through its bounds and written cells, an
element, or a flag. -/
inductive Outcome (α : Type) where
  | cells (store : Store α)
  | value (v : α)
  | flag (b : Bool)

/-- The outcome of a matrix. -/
def Outcome.ofMatrix (m : SparseMatrix α) : Outcome α :=
  .cells m.store

theorem Outcome.map_ofMatrix {x x' : Except Failure (SparseMatrix α)} {d : Nat}
    (h : x' = (·.withDegree d) <$> x) : Outcome.ofMatrix <$> x' = Outcome.ofMatrix <$> x := by
  rw [h, Functor.map_map]
  rfl

namespace Op

variable [Arith α] [Width α]

/-- Whether the operation expands determinants along a row, keeping the row's terms in a
buffer. -/
def expands : Op α → Bool
  | .determinant => true
  | .inverse => true
  | _ => false

/-- The length of the longest loop the operation runs on `a`: the rows of `a`, its columns
for a transpose, one row fewer for a minor, the cells of the square for an inverse (its
adjugate), and the rows of the copy a power starts from. A copy runs no loop. -/
def span : Op α → SparseMatrix α → Nat
  | .clone, _ => 0
  | .transpose, a => a.colCount
  | .minor _ _, a => a.rowCount - 1
  | .inverse, a => a.rowCount * a.rowCount
  | .power _, a => a.clone.rowCount
  | _, a => a.rowCount

omit [Arith α] [Width α] in
theorem span_withDegree (op : Op α) (a : SparseMatrix α) (d : Nat) :
    op.span (a.withDegree d) = op.span a := by
  cases op
  case power e =>
    show (a.withDegree d).clone.rowCount = a.clone.rowCount
    rw [clone_withDegree]
    rfl
  all_goals rfl

/-- Runs the operation on `a`, with `b` the second operand of a sum, a difference or a
product. -/
def run [Host] : Op α → SparseMatrix α → SparseMatrix α → Except Failure (Outcome α)
  | .clone, a, _ => pure (.ofMatrix a.clone)
  | .add, a, b => .ofMatrix <$> a.add b
  | .subtract, a, b => .ofMatrix <$> a.subtract b
  | .multiplyScalar s, a, _ => .ofMatrix <$> a.multiplyScalar s
  | .addScalar s, a, _ => .ofMatrix <$> a.addScalar s
  | .conjugate, a, _ => .ofMatrix <$> a.conjugate
  | .transpose, a, _ => .ofMatrix <$> a.transpose
  | .dotProduct, a, b => .ofMatrix <$> a.dotProduct b
  | .diag, a, _ => .ofMatrix <$> a.diag
  | .diagVector, a, _ => .ofMatrix <$> a.diagVector
  | .trace, a, _ => .value <$> a.trace
  | .minor i j, a, _ => .ofMatrix <$> a.minor i j
  | .determinant, a, _ => .value <$> a.determinant
  | .inverse, a, _ => .ofMatrix <$> a.inverse
  | .power e, a, _ => .ofMatrix <$> a.power e
  | .isOrthogonal, a, _ => .flag <$> a.isOrthogonal
  | .isUnitary, a, _ => .flag <$> a.isUnitary

/-- An operation's outcome does not depend on the degree of its operands, as long as the
first operand's rows are a machine word, the answers of the chunks of the operation's
longest loop fit their buffer at both degrees, and, for an operation that expands
determinants, the terms of one row fit a buffer. -/
theorem run_withDegree [Host] (op : Op α) (a b : SparseMatrix α) (d : Nat)
    (hrows : a.rowCount ≤ Text.wordMax)
    (hfit : op.expands = true → a.rowCount * Width.bytes α ≤ bufferLimit)
    (hp : a.range.PartialsFit (op.span a)) (hp' : (a.withDegree d).range.PartialsFit (op.span a)) :
    op.run (a.withDegree d) (b.withDegree d) = op.run a b := by
  cases op with
  | clone =>
    show pure (Outcome.ofMatrix (a.withDegree d).clone) = pure (Outcome.ofMatrix a.clone)
    rw [clone_withDegree]
    rfl
  | add => exact Outcome.map_ofMatrix (zipWith_withDegree a b d _ _ hrows hp hp')
  | subtract => exact Outcome.map_ofMatrix (zipWith_withDegree a b d _ _ hrows hp hp')
  | multiplyScalar s => exact Outcome.map_ofMatrix (mapAll_withDegree a d _ hrows hp hp')
  | addScalar s => exact Outcome.map_ofMatrix (mapAll_withDegree a d _ hrows hp hp')
  | conjugate => exact Outcome.map_ofMatrix (mapAll_withDegree a d _ hrows hp hp')
  | transpose => exact Outcome.map_ofMatrix (transpose_withDegree a d hp hp')
  | dotProduct => exact Outcome.map_ofMatrix (dotProduct_withDegree a b d d hrows hp hp')
  | diag => exact Outcome.map_ofMatrix (diag_withDegree a d hp hp')
  | diagVector => exact Outcome.map_ofMatrix (diagVector_withDegree a d hp hp')
  | trace => rw [run, run, trace_withDegree a d hrows hp hp']
  | minor i j => exact Outcome.map_ofMatrix (minor_withDegree a d i j hp hp')
  | determinant => rw [run, run, determinant_withDegree a d hrows (hfit rfl) hp hp']
  | inverse => exact Outcome.map_ofMatrix (inverse_withDegree a d hrows (hfit rfl) hp hp')
  | power e => exact Outcome.map_ofMatrix (power_withDegree a d e hrows hp hp')
  | isOrthogonal => rw [run, run, isOrthogonal_withDegree a d hrows hp hp']
  | isUnitary => rw [run, run, isUnitary_withDegree a d hrows hp hp']

/-- Every operation, on every pair of operands whose first has machine-word rows, has at
degree `d` the outcome it has at degree one: the same bounds and written cells, the same
element, flag or failure, the earliest in index order, when the answers of the chunks of
its longest loop fit their buffer at degree `d`. An operation that expands determinants
needs the terms of one row to fit a buffer. -/
theorem run_withDegree_eq_degree_one [Host] (op : Op α) (a b : SparseMatrix α) (d : Nat)
    (hrows : a.rowCount ≤ Text.wordMax)
    (hfit : op.expands = true → a.rowCount * Width.bytes α ≤ bufferLimit)
    (hp : (a.withDegree d).range.PartialsFit (op.span a)) :
    op.run (a.withDegree d) (b.withDegree d) = op.run (a.withDegree 1) (b.withDegree 1) := by
  -- degree one keeps every loop in one chunk, whose answer needs no buffer
  have hone : (a.withDegree 1).range.PartialsFit (op.span (a.withDegree 1)) :=
    Range.partialsFit_of_degree_le_one (Nat.le_refl 1) _
  exact run_withDegree op (a.withDegree 1) (b.withDegree 1) d hrows hfit hone
    (by rw [span_withDegree]; exact hp)

open Host in
theorem run_identity_degree_four :
    (identity 5 : SparseMatrix Int64).rowCount ≤ Text.wordMax ∧
      ((Op.determinant : Op Int64).expands = true →
        (identity 5 : SparseMatrix Int64).rowCount * Width.bytes Int64 ≤ bufferLimit) ∧
      ((identity 5 : SparseMatrix Int64).withDegree 4).range.PartialsFit
        ((Op.determinant : Op Int64).span (identity 5)) ∧
      Op.determinant.run ((identity 5 : SparseMatrix Int64).withDegree 4)
          ((identity 5 : SparseMatrix Int64).withDegree 4) =
        Op.determinant.run ((identity 5 : SparseMatrix Int64).withDegree 1)
          ((identity 5 : SparseMatrix Int64).withDegree 1) :=
  ⟨by decide, fun _ => by decide, by decide,
    run_withDegree_eq_degree_one .determinant _ _ 4 (by decide) (fun _ => by decide) (by decide)⟩

end Op

/-! ## Expansions too wide for one buffer -/

theorem minorFn_identity_zero [Host] [Arith β] (n : Nat) :
    minorFn (identity (n + 1) : SparseMatrix β).get 0 0 = (identity n : SparseMatrix β).get := by
  funext r c
  simp only [minorFn, skipIndex, Nat.not_lt_zero, if_false, get_identity, Nat.add_right_cancel_iff,
    Nat.add_lt_add_iff_right]

theorem foldlM_add_one_zeros {l : List UInt64} (h : ∀ x ∈ l, x = 0) :
    l.foldlM Arith.add (1 : UInt64) = pure 1 := by
  induction l with
  | nil => rfl
  | cons x l ih =>
    rw [List.foldlM_cons, h x (List.mem_cons_self ..)]
    exact ih fun y hy => h y (List.mem_cons_of_mem x hy)

/-- On words, the identity has determinant one at every size whose expansion terms fit a
buffer, whatever the degree: only the pivot of column zero is not zero, and its minor is
the identity one size smaller. -/
theorem det_identity_word [Host] {r : Range} (hd : 1 ≤ r.degree) (hc : r.cancelled = false)
    (hp : r.PartialsFit Text.wordMax) :
    ∀ n : Nat, n * 8 ≤ bufferLimit → det r n (identity n : SparseMatrix UInt64).get = pure 1
  | 0, _ => by rw [get_identity_eq]; rfl
  | 1, _ => by rw [get_identity_eq]; rfl
  | 2, _ => by rw [get_identity_eq]; rfl
  | 3, _ => by rw [get_identity_eq]; rfl
  | 4, _ => by rw [get_identity_eq]; rfl
  | n + 5, hfit => by
    have hlimit : bufferLimit = 9223372036854775807 := rfl
    have hword : Text.wordMax = 18446744073709551615 := rfl
    rw [det]
    unfold expandFirstRow
    rw [Range.tryMap_of_ok (f := fun j => if j = 0 then 1 else 0) hd (by omega) hc (hp.of_le (by omega))
      (by rw [Nat.sub_zero]; exact hfit) fun j _ hj => ?_]
    · rw [pure_bind, Nat.sub_zero, List.range'_succ, List.map_cons, if_pos rfl]
      have hzeros : ∀ x ∈ (List.range' (0 + 1) (n + 4)).map
          (fun j => if j = 0 then (1 : UInt64) else 0), x = 0 := by
        intro x hx
        obtain ⟨j, hj, rfl⟩ := List.mem_map.mp hx
        rw [List.mem_range'_1] at hj
        rw [if_neg (by omega)]
      rw [Arith.sum, List.foldlM_cons, show Arith.add (Arith.zero : UInt64) 1 = pure 1 from rfl,
        pure_bind, foldlM_add_one_zeros hzeros, liftFault_pure]
    · dsimp only
      rw [get_identity]
      by_cases hj0 : j = 0
      · subst hj0
        rw [if_pos (show 0 = 0 ∧ 0 < n + 5 from ⟨rfl, by omega⟩),
          if_neg (show ¬Arith.isZero (Arith.one : UInt64) = true by decide), if_pos rfl,
          Tabulated.read_of, minorFn_identity_zero, det_identity_word hd hc hp (n + 4) (by omega)]
        rfl
      · rw [if_neg (show ¬(0 = j ∧ 0 < n + 5) by omega),
          if_pos (show Arith.isZero (Arith.zero : UInt64) = true from rfl), if_neg hj0]
        rfl

/-- At degree one a determinant whose expansion terms do not fit one buffer faults with
`capacityOverflow` before any term is computed. -/
theorem determinant_degree_one_wide [Arith α] [Width α] {m : SparseMatrix α} {n : Nat}
    (hrows : m.rowCount = n) (hcols : m.colCount = n) (hn : n ≤ Text.wordMax) (h5 : 5 ≤ n)
    (hwide : bufferLimit < n * Width.bytes α) (hc : m.range.cancelled = false) :
    (m.withDegree 1).determinant = .error (.fault .capacityOverflow) := by
  unfold determinant
  rw [ensureSquare_withDegree, ensureSquare_eq hrows hcols, liftError_pure, pure_bind,
    if_neg (by omega)]
  unfold cofactorExpansion expandFirstRow
  dsimp only
  rw [Range.tryMap_degree_one rfl (by omega)]
  unfold Range.sequential
  rw [if_neg (by omega), show (m.withDegree 1).range.cancelled = false from hc,
    if_neg Bool.false_ne_true, fitsBuffer_eq_error (by rw [Nat.sub_zero]; exact Nat.not_le.mpr hwide)]
  rfl

/-- At degree two the expansion of a `UInt64` matrix of size `2^60` runs in two halves
that each fit a buffer. When the pivot of column zero is zero, the pivot of column one is
one and its minor is the identity, the term of column one is `0 - 1` and underflows. -/
theorem determinant_degree_two_swap [Host] {A : SparseMatrix UInt64}
    (hrows : A.rowCount = 1152921504606846976) (hcols : A.colCount = 1152921504606846976)
    (hc : A.range.cancelled = false) (h00 : A.get 0 0 = 0) (h01 : A.get 0 1 = 1)
    (hminor : minorFn A.get 0 1 = (identity (1152921504606846976 - 1) : SparseMatrix UInt64).get) :
    (A.withDegree 2).determinant = .error (.fault .subOverflow) := by
  have hc2 : (A.withDegree 2).range.cancelled = false := hc
  unfold determinant
  rw [ensureSquare_withDegree, ensureSquare_eq hrows hcols, liftError_pure, pure_bind,
    if_neg (by decide)]
  unfold cofactorExpansion expandFirstRow
  dsimp only
  simp only [Tabulated.read_of, get_withDegree]
  rw [Range.tryMap_eq_join (range_degree _) (by decide) (by decide) hc2
    (show (A.withDegree 2).range.PartialsFit (1152921504606846976 - 0) from
      .inr (by decide : 2 * partialBytes ≤ bufferLimit)),
    show (A.withDegree 2).range.chunkCount (1152921504606846976 - 0) = 2 from rfl,
    show List.range 2 = [0, 1] from rfl, List.map_cons, List.map_cons, List.map_nil]
  have hix : chunkIndices 0 (1152921504606846976 - 0) 2 0 = List.range' 0 576460752303423488 := by
    unfold chunkIndices
    congr 1
  dsimp only
  rw [hix, List.length_range', fitsBuffer_eq_ok (by decide), pure_bind, List.range'_succ,
    List.range'_succ, List.mapM_cons, List.mapM_cons]
  rw [h00, if_pos (show Arith.isZero (0 : UInt64) = true from rfl), h01,
    if_neg (show ¬Arith.isZero (1 : UInt64) = true by decide), hminor,
    det_identity_word (range_degree _) hc2
      (show (A.withDegree 2).range.PartialsFit Text.wordMax from
        .inr (by decide : 2 * partialBytes ≤ bufferLimit)) _ (by decide)]
  rfl

/-- The identity over `UInt64` with its first two rows swapped, written as three cells
over the identity. -/
theorem swappedIdentity_facts [Host] {n : Nat} (hn : 2 ≤ n) :
    ((((identity n : SparseMatrix UInt64).set 0 0 0).set 0 1 1).set 1 0 1).rowCount = n ∧
      ((((identity n : SparseMatrix UInt64).set 0 0 0).set 0 1 1).set 1 0 1).colCount = n ∧
      ((((identity n : SparseMatrix UInt64).set 0 0 0).set 0 1 1).set 1 0 1).range.cancelled =
        false ∧
      ((((identity n : SparseMatrix UInt64).set 0 0 0).set 0 1 1).set 1 0 1).get 0 0 = 0 ∧
      ((((identity n : SparseMatrix UInt64).set 0 0 0).set 0 1 1).set 1 0 1).get 0 1 = 1 ∧
      minorFn ((((identity n : SparseMatrix UInt64).set 0 0 0).set 0 1 1).set 1 0 1).get 0 1 =
        (identity (n - 1) : SparseMatrix UInt64).get := by
  have hone : (Arith.one : UInt64) = 1 := rfl
  have hzero : (Arith.zero : UInt64) = 0 := rfl
  refine ⟨?_, ?_, rfl, by simp [get_set], by simp [get_set], ?_⟩
  · simp only [rowCount_set, rowCount_identity]
    rw [Nat.max_eq_left (succSat_le (by omega)), Nat.max_eq_left (succSat_le (by omega)),
      Nat.max_eq_left (succSat_le (by omega))]
  · simp only [colCount_set, colCount_identity]
    rw [Nat.max_eq_left (succSat_le (by omega)), Nat.max_eq_left (succSat_le (by omega)),
      Nat.max_eq_left (succSat_le (by omega))]
  -- the minor of column one keeps row one's entry in column zero, and below it the diagonal
  funext r c
  rcases c with _ | c
  · simp [minorFn, get_set, get_identity, skipIndex, hone, hzero]
    exact if_congr (by omega) rfl rfl
  · simp [minorFn, get_set, get_identity, skipIndex, hone, hzero]
    exact if_congr (by omega) rfl rfl

open Host in
/-- The identity of size `2^60` over `UInt64` with its first two rows swapped: at degree
one its determinant faults on the buffer of its expansion terms, at degree two on the
sign of the term of column one. -/
theorem determinant_depends_on_degree :
    (((((identity 1152921504606846976 : SparseMatrix UInt64).set 0 0 0).set 0 1 1).set 1 0 1).withDegree
        1).determinant = .error (.fault .capacityOverflow) ∧
      (((((identity 1152921504606846976 : SparseMatrix UInt64).set 0 0 0).set 0 1 1).set 1 0 1).withDegree
        2).determinant = .error (.fault .subOverflow) := by
  obtain ⟨hrows, hcols, hc, h00, h01, hminor⟩ :=
    swappedIdentity_facts (n := 1152921504606846976) (by decide)
  exact ⟨determinant_degree_one_wide hrows hcols (by decide) (by decide) (by decide) hc,
    determinant_degree_two_swap hrows hcols hc h00 h01 hminor⟩

end SparseMatrix
