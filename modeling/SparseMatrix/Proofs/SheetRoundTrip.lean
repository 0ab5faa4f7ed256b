import SparseMatrix.Proofs.Records
import SparseMatrix.Proofs.Document
import SparseMatrix.Proofs.Equality
import SparseMatrix.Proofs.DeviceProduct

/-!
# Sheets read back

A sheet lists a matrix row by row, one field per cell: the element text of a written cell, an
absent cell empty (`sheetRecords`). It is read back field by field: a field is trimmed, an
empty one skipped, the others read as elements and the nonzero ones written; after each record
the bounds grow to cover it. The size is rebuilt from the number of records and their length
alone, so it comes back when the CSV library reads every record back with all its fields,
blank or of one column (`Csv.Library.ReadsBack`).

So, through every CSV library that reads back the records of its sheet, a matrix whose cells
lie inside its bounds and whose stored values are written as texts that read back as equal
values (`TextValue`) is read back from its sheet equal to it, with its size, and with exactly
its cells that are not zero (`loadSheet_saveSheet`); a matrix without rows or columns is an
empty sheet, read back as `0 × 0`. The CSV library of this project reads back the records of
every sheet whose values are written without quotes or byte order mark (`SheetValue`,
`readsBack_sheetRecords`), and every value of a word type is (`sheetValue_ofWord`).

A cell on the bounds, which only a write saturated at the largest word stores and only a long
run of deletions brings within the limits of a sheet, has no field in the sheet and is lost
(`saveSheet_loses_cell_on_bound`).
-/

namespace SparseMatrix

variable {α : Type}

/-! ## Integer texts -/

namespace Text

/-- Digits without a sign are read as their value. -/
theorem readInt?_digits {lo hi : Int} {ds : List Char} {n : Nat} (hds : ds ≠ [])
    (hdig : ∀ c ∈ ds, c.isDigit = true) (hval : Nat.ofDigitChars 10 ds 0 = n) (hlo : lo ≤ n)
    (hhi : (n : Int) ≤ hi) : readInt? lo hi ds = some (n : Int) := by
  obtain ⟨d, ds', rfl⟩ := List.exists_cons_of_ne_nil hds
  have hd := hdig d List.mem_cons_self
  have hvalue := digitsValue?_eq_some_iff.mpr ⟨hds, hdig, hval⟩
  unfold readInt?
  split
  rename_i negative digits heq
  -- a digit is no sign, so the digits are read unsigned
  split at heq
  · rename_i rest hsign
    exact absurd ((List.cons.inj hsign).1 ▸ hd) (by decide)
  · rename_i rest hsign
    exact absurd ((List.cons.inj hsign).1 ▸ hd) (by decide)
  · obtain ⟨rfl, rfl⟩ := Prod.mk.inj heq
    simp [hvalue, hlo, hhi]

/-- Digits after a minus sign are read as the negated value, when the range is signed. -/
theorem readInt?_minus_digits {lo hi : Int} {ds : List Char} {n : Nat} (hds : ds ≠ [])
    (hdig : ∀ c ∈ ds, c.isDigit = true) (hval : Nat.ofDigitChars 10 ds 0 = n) (hneg : lo < 0)
    (hlo : lo ≤ -(n : Int)) (hhi : -(n : Int) ≤ hi) :
    readInt? lo hi ('-' :: ds) = some (-(n : Int)) := by
  have hvalue := digitsValue?_eq_some_iff.mpr ⟨hds, hdig, hval⟩
  unfold readInt?
  split
  rename_i negative digits heq
  split at heq
  · rename_i rest hsign
    rw [if_pos hneg, ← (List.cons.inj hsign).2] at heq
    obtain ⟨rfl, rfl⟩ := Prod.mk.inj heq
    simp [hvalue, hlo, hhi]
  · rename_i rest hsign
    exact absurd (List.cons.inj hsign).1 (by decide)
  · rename_i hminus _
    exact absurd rfl (hminus ds)

theorem isDigit_of_mem_toDigits {n : Nat} {c : Char} (h : c ∈ Nat.toDigits 10 n) :
    c.isDigit = true :=
  Nat.isDigit_of_mem_toDigits (by decide) (by decide) h

/-- The decimal text of an integer in a range is read back as the integer. -/
theorem readInt?_repr {lo hi i : Int} (hlo : lo ≤ i) (hhi : i ≤ hi) :
    readInt? lo hi i.repr.toList = some i := by
  by_cases hi : 0 ≤ i
  · rw [Int.repr_eq_if, if_pos hi, Nat.toList_repr,
      readInt?_digits Nat.toDigits_ne_nil (fun _ => isDigit_of_mem_toDigits)
        Nat.ofDigitChars_ten_toDigits (by omega) (by omega), Int.toNat_of_nonneg hi]
  · have hminus : ("-" : String).toList = ['-'] := by simp
    rw [Int.repr_eq_if, if_neg hi, String.toList_append, hminus, Nat.toList_repr,
      List.singleton_append, readInt?_minus_digits Nat.toDigits_ne_nil
        (fun _ => isDigit_of_mem_toDigits) Nat.ofDigitChars_ten_toDigits (by omega) (by omega)
        (by omega)]
    congr 1
    omega

/-- The decimal text of an integer: a minus sign and digits. -/
theorem mem_repr {i : Int} {c : Char} (h : c ∈ i.repr.toList) : c = '-' ∨ c.isDigit = true := by
  rw [Int.repr_eq_if] at h
  split at h
  · rw [Nat.toList_repr] at h
    exact .inr (isDigit_of_mem_toDigits h)
  · simp only [String.toList_append, Nat.toList_repr, List.mem_append] at h
    rcases h with h | h
    · exact .inl (by simpa using h)
    · exact .inr (isDigit_of_mem_toDigits h)

theorem repr_ne_empty (i : Int) : i.repr ≠ "" := by
  rw [Int.repr_eq_if]
  split
  · exact Nat.repr_ne_empty
  · intro h
    have hlen := congrArg (fun s : String => s.toList.length) h
    simp at hlen

/-- The text of an integer has no blank, so trimming keeps it. -/
theorem trim_repr (i : Int) : trim i.repr = i.repr := by
  unfold trim
  rw [trimChars_of_forall fun c hc => ?_, String.ofList_toList]
  rcases mem_repr hc with rfl | hdigit
  · decide
  · exact isBlank_of_isDigit hdigit

end Text

/-! ## Values written in a sheet -/

section Values

/-- A value whose text reads back: it is not blank, and read trimmed it gives a value equal to
it both ways, zero exactly when it is. -/
structure TextValue [Element α] (v : α) : Prop where
  not_blank : (Text.trim (Element.text v)).isEmpty = false
  reads : ∃ w, Element.read? (Text.trim (Element.text v)) = .ok (some w) ∧
    Arith.eq w v = true ∧ Arith.eq v w = true ∧ Arith.isZero w = Arith.isZero v

/-- A value whose text reads back and which the CSV library of this project writes as it is:
its text holds no comma, quote, line break or byte order mark. -/
structure SheetValue [Element α] (v : α) : Prop extends TextValue v where
  plain : ∀ c ∈ (Element.text v).toList, Csv.PlainChar c ∧ c ≠ '\uFEFF'

theorem plainChar_of_isDigit {c : Char} (h : c.isDigit = true) :
    Csv.PlainChar c ∧ c ≠ '\uFEFF' := by
  have hd := Char.isDigit_iff_toNat.mp h
  refine ⟨⟨?_, ?_, ?_, ?_⟩, ?_⟩ <;> rintro rfl <;> simp at hd

/-- Every value of a word type whose words lie in its range, written as its decimal text. -/
theorem sheetValue_ofWord [Word α] [LawfulWord α] (name : String) (width : Nat)
    (hrange : ∀ v : α, Word.lo α ≤ Word.toInt v ∧ Word.toInt v ≤ Word.hi α) (v : α) :
    @SheetValue α (Element.ofWord α name width) v := by
  let _ : Element α := Element.ofWord α name width
  have hv := hrange v
  have hof : Word.ofInt (Word.toInt v) = v :=
    LawfulWord.toInt_injective (LawfulWord.toInt_ofInt _ (decide_eq_true hv))
  refine ⟨⟨?_, ⟨v, ?_, beq_self_eq_true _, beq_self_eq_true _, rfl⟩⟩, fun c hc => ?_⟩
  · show (Text.trim (Word.toInt v).repr).isEmpty = false
    rw [Text.trim_repr, Bool.eq_false_iff]
    exact fun h => Text.repr_ne_empty _ (String.isEmpty_iff.mp h)
  · show Except.ok ((Text.readInt? (Word.lo α) (Word.hi α)
      (Text.trim (Word.toInt v).repr).toList).map Word.ofInt) = Except.ok (some v)
    rw [Text.trim_repr, Text.readInt?_repr hv.1 hv.2, Option.map_some, hof]
  · rcases Text.mem_repr hc with rfl | hdigit
    · decide
    · exact plainChar_of_isDigit hdigit

theorem sheetValue_int64 (v : Int64) : SheetValue v :=
  sheetValue_ofWord "i64" 8 int64_toInt_range v

variable [Element α]

/-- The element the reader writes for a field: none for a blank field or one that reads as
zero. -/
def fieldValue? (raw : String) : Option α :=
  if (Text.trim raw).isEmpty then none
  else ((Element.read? (Text.trim raw)).toOption.join).filter fun w => !Arith.isZero w

theorem fieldValue?_empty : (fieldValue? "" : Option α) = none :=
  if_pos rfl

/-- A field that is not blank and reads as an element gives it, unless it is zero. -/
theorem fieldValue?_of_read {raw : String} {w : α} (hblank : (Text.trim raw).isEmpty = false)
    (hread : Element.read? (Text.trim raw) = .ok (some w)) :
    fieldValue? raw = if Arith.isZero w then none else some w := by
  rw [fieldValue?, if_neg (by simp [hblank]), hread]
  cases hz : Arith.isZero w <;> simp [Except.toOption, Option.filter, hz]

/-- The field of a value is read as an equal value, or as nothing when the value is zero. -/
theorem TextValue.fieldValue?_text {v : α} (hv : TextValue v) :
    ∃ w, Arith.eq w v = true ∧ Arith.eq v w = true ∧
      fieldValue? (Element.text v) = if Arith.isZero v then none else some w := by
  obtain ⟨w, hread, hwv, hvw, hzero⟩ := hv.reads
  exact ⟨w, hwv, hvw, hzero ▸ fieldValue?_of_read hv.not_blank hread⟩

end Values

/-! ## The fields of a sheet -/

section Fields

theorem contains_iff {m : SparseMatrix α} {r c : Nat} :
    m.contains r c = true ↔ ∃ v, ((⟨r, c⟩ : Key), v) ∈ m.entries := by
  simp only [contains, Store.contains, List.any_eq_true, beq_iff_eq]
  constructor
  · rintro ⟨⟨k, v⟩, hkv, rfl⟩
    exact ⟨v, hkv⟩
  · rintro ⟨v, hv⟩
    exact ⟨_, hv, rfl⟩

variable [Element α]

/-- The field of cell `(r, c)` in the sheet of `m`: the text of a written cell, an absent cell
empty. -/
def sheetField (m : SparseMatrix α) (r c : Nat) : String :=
  if m.contains r c then Element.text (m.get r c) else ""

theorem sheetRecords_eq (m : SparseMatrix α) (hcols : 0 < m.colCount) :
    sheetRecords m = (List.range m.rowCount).map fun r => (List.range m.colCount).map (sheetField m r) := by
  unfold sheetRecords
  rw [if_neg (by omega)]
  rfl

/-- A field is empty, or the text of the cell written at its index. -/
theorem sheetField_cases (m : SparseMatrix α) (hord : KeyOrdered m.entries) (r c : Nat) :
    sheetField m r c = "" ∨
      ∃ v, ((⟨r, c⟩ : Key), v) ∈ m.entries ∧ sheetField m r c = Element.text v := by
  unfold sheetField
  split
  · rename_i hc
    obtain ⟨v, hv⟩ := contains_iff.mp hc
    exact .inr ⟨v, hv, by rw [get_of_mem hord.nodup hv]⟩
  · exact .inl rfl

theorem sheetField_of_mem {m : SparseMatrix α} (hord : KeyOrdered m.entries) {k : Key} {v : α}
    (h : (k, v) ∈ m.entries) : sheetField m k.row k.col = Element.text v := by
  rw [sheetField, if_pos (contains_iff.mpr ⟨v, h⟩), get_of_mem hord.nodup h]

/-- The fields of a sheet are written as they are, and no byte order mark is among them. -/
theorem sheetField_plain {m : SparseMatrix α} (hord : KeyOrdered m.entries)
    (hv : ∀ kv ∈ m.entries, SheetValue kv.2) (r c : Nat) :
    ∀ x ∈ (sheetField m r c).toList, Csv.PlainChar x ∧ x ≠ '\uFEFF' := by
  intro x hx
  rcases sheetField_cases m hord r c with hempty | ⟨v, hmem, htext⟩
  · rw [hempty] at hx
    simp at hx
  · rw [htext] at hx
    exact (hv _ hmem).plain x hx

/-- The records of a sheet whose values are written as they are: each has a field, and every
field is written as it is, with no byte order mark. -/
theorem sheetRecords_plain {m : SparseMatrix α} (hord : KeyOrdered m.entries)
    (hv : ∀ kv ∈ m.entries, SheetValue kv.2) :
    ∀ fs ∈ sheetRecords m, fs ≠ [] ∧ ∀ f ∈ fs, ∀ x ∈ f.toList, Csv.PlainChar x ∧ x ≠ '\uFEFF' := by
  intro fs hfs
  unfold sheetRecords at hfs
  split at hfs
  · cases hfs
  · obtain ⟨r, -, rfl⟩ := List.mem_map.mp hfs
    refine ⟨by simp; omega, fun f hf => ?_⟩
    obtain ⟨c, -, rfl⟩ := List.mem_map.mp hf
    exact sheetField_plain hord hv r c

theorem dropByteOrderMark_of_not_mem {text : String} (h : '\uFEFF' ∉ text.toList) :
    Csv.dropByteOrderMark text = text := by
  unfold Csv.dropByteOrderMark
  split
  · rename_i rest hrest
    exact absurd (hrest ▸ List.mem_cons_self) h
  · rfl

/-- The CSV library of this project reads back the records of a sheet whose values are
written as they are: the sheet holds no byte order mark, so none is dropped, and its records
have fields that need no quotes. -/
theorem readsBack_sheetRecords {m : SparseMatrix α} (hord : KeyOrdered m.entries)
    (hv : ∀ kv ∈ m.entries, SheetValue kv.2) : Csv.standard.ReadsBack (sheetRecords m) := by
  have hplain := sheetRecords_plain hord hv
  have hmark : '\uFEFF' ∉ (String.join ((sheetRecords m).map Csv.writeRecord)).toList := by
    intro hmark
    rw [String.toList_join, List.flatMap_map] at hmark
    obtain ⟨fs, hfs, hrec⟩ := List.mem_flatMap.mp hmark
    rcases Csv.mem_writeRecord (fun f hf x hx => ((hplain fs hfs).2 f hf x hx).1) hrec with
      h | h | h | ⟨f, hf, hx⟩
    · exact absurd h (by decide)
    · exact absurd h (by decide)
    · exact absurd h (by decide)
    · exact ((hplain fs hfs).2 f hf _ hx).2 rfl
  show Csv.records (Csv.dropByteOrderMark (String.join ((sheetRecords m).map Csv.writeRecord))) = _
  rw [dropByteOrderMark_of_not_mem hmark]
  exact Csv.records_join_writeRecord fun fs hfs =>
    ⟨(hplain fs hfs).1, fun f hf x hx => ((hplain fs hfs).2 f hf x hx).1⟩

end Fields

/-! ## Reading a sheet, record by record -/

section Fold

theorem zipIdx_map_range {β : Type} (f : Nat → β) (n : Nat) :
    ((List.range n).map f).zipIdx = (List.range n).map fun i => (f i, i) := by
  rw [List.range_eq_range']
  exact zipIdx_map_range' f 0 n

/-- Fields read one by one along a record of row `r`, after cells of earlier rows: the cells
the fields give are appended in column order, and the bounds grow at most to cover the row and
the fields. -/
theorem foldlM_fields {ε : Type} {step : SparseMatrix α → String × Nat → Except ε (SparseMatrix α)}
    {raw : Nat → String} {val : Nat → Option α} {r : Nat}
    (hstep : ∀ t c, step t (raw c, c) = .ok ((val c).elim t fun w => t.set r c w))
    {config : Config} {token : Option Token} {device : Option (Device α)} {rows cols : Nat}
    {pre : List (Key × α)} (hpre : ∀ kv ∈ pre, kv.1.row < r) (k : Nat) :
    ∃ rows' cols', ((List.range k).map fun c => (raw c, c)).foldlM step
        ⟨⟨rows, cols, pre⟩, config, token, device⟩ =
      .ok ⟨⟨rows', cols', pre ++ (List.range k).filterMap fun c => (val c).map ((⟨r, c⟩ : Key), ·)⟩,
        config, token, device⟩ ∧ rows' ≤ max rows (r + 1) ∧ cols' ≤ max cols k := by
  induction k with
  | zero => exact ⟨rows, cols, by simp [pure, Except.pure], by omega, by omega⟩
  | succ k ih =>
    obtain ⟨rows', cols', hfold, hrows, hcols⟩ := ih
    have hbefore : ∀ kv ∈ pre ++ (List.range k).filterMap (fun c => (val c).map ((⟨r, c⟩ : Key), ·)),
        kv.1.before ⟨r, k⟩ = true := by
      intro kv hkv
      rw [Key.before_iff]
      rcases List.mem_append.mp hkv with hkv | hkv
      · exact .inl (hpre kv hkv)
      · obtain ⟨c, hc, hkvc⟩ := List.mem_filterMap.mp hkv
        obtain ⟨w, -, rfl⟩ := Option.map_eq_some_iff.mp hkvc
        exact .inr ⟨rfl, List.mem_range.mp hc⟩
    rw [List.range_succ, List.map_append, List.foldlM_append, hfold, List.filterMap_append,
      ← List.append_assoc]
    simp only [Bind.bind, Except.bind, List.map_cons, List.map_nil, List.foldlM_cons,
      List.foldlM_nil, hstep]
    cases hv : val k with
    | none =>
      refine ⟨rows', cols', ?_, hrows, by omega⟩
      simp [hv, pure, Except.pure]
    | some w =>
      refine ⟨max rows' (Store.succSat r), max cols' (Store.succSat k), ?_, ?_, ?_⟩
      · simp only [Option.elim, List.filterMap_cons, hv, Option.map_some, List.filterMap_nil]
        show Except.ok (SparseMatrix.mk (Store.set _ _ w) config token device) = _
        rw [Store.set, Store.insertCell_of_before w hbefore]
      · have := Nat.min_le_left (r + 1) Text.wordMax
        simp only [Store.succSat]
        omega
      · have := Nat.min_le_left (k + 1) Text.wordMax
        simp only [Store.succSat]
        omega

/-- A record of `n` fields of row `r`, read after the rows above it: its cells are appended and
the bounds become the row and the fields. -/
theorem foldlM_record {ε : Type} {step : SparseMatrix α → String × Nat → Except ε (SparseMatrix α)}
    {raw : Nat → String} {val : Nat → Option α} {r : Nat}
    (hstep : ∀ t c, step t (raw c, c) = .ok ((val c).elim t fun w => t.set r c w))
    {config : Config} {token : Option Token} {device : Option (Device α)} {rows cols n : Nat}
    {pre : List (Key × α)} (hpre : ∀ kv ∈ pre, kv.1.row < r) (hrows : rows ≤ r) (hcols : cols ≤ n) :
    (((List.range n).map fun c => (raw c, c)).foldlM step ⟨⟨rows, cols, pre⟩, config, token, device⟩ >>=
        fun m => pure { m with store := m.store.ensureBounds (r + 1) n }) =
      .ok ⟨⟨r + 1, n, pre ++ (List.range n).filterMap fun c => (val c).map ((⟨r, c⟩ : Key), ·)⟩,
        config, token, device⟩ := by
  obtain ⟨rows', cols', hfold, hrows', hcols'⟩ := foldlM_fields hstep hpre n
  rw [hfold]
  show Except.ok (SparseMatrix.mk ⟨max rows' (r + 1), max cols' n, _⟩ config token device) = _
  rw [Nat.max_eq_right (by omega), Nat.max_eq_right (by omega)]

/-- Records read one by one from the first: each writes its row's cells and makes the bounds
its row and the `cols` fields. -/
theorem foldlM_records [Host] {ε : Type} {step : SparseMatrix α → List String × Nat → Except ε (SparseMatrix α)}
    {F : Nat → List String} {cols : Nat} {cells : Nat → List (Key × α)}
    (hcells : ∀ r, ∀ kv ∈ cells r, kv.1.row = r)
    (hstep : ∀ r rows' cols' pre, rows' ≤ r → cols' ≤ cols → (∀ kv ∈ pre, kv.1.row < r) →
      step ⟨⟨rows', cols', pre⟩, Config.default, none, none⟩ (F r, r) =
        .ok ⟨⟨r + 1, cols, pre ++ cells r⟩, Config.default, none, none⟩) (n : Nat) :
    ((List.range (n + 1)).map fun r => (F r, r)).foldlM step new =
      .ok ⟨⟨n + 1, cols, (List.range (n + 1)).flatMap cells⟩, Config.default, none, none⟩ := by
  induction n with
  | zero =>
    have hnew : (new : SparseMatrix α) = ⟨⟨0, 0, []⟩, Config.default, none, none⟩ := rfl
    have hfirst := hstep 0 0 0 [] le_rfl (Nat.zero_le _) (fun _ h => nomatch h)
    simp only [Nat.zero_add, List.range_one, List.map_cons, List.map_nil, List.foldlM_cons,
      List.foldlM_nil, List.flatMap_singleton, hnew, hfirst, List.nil_append]
    rfl
  | succ n ih =>
    have hpre : ∀ kv ∈ (List.range (n + 1)).flatMap cells, kv.1.row < n + 1 := by
      intro kv hkv
      obtain ⟨r, hr, hkv⟩ := List.mem_flatMap.mp hkv
      rw [hcells r kv hkv]
      exact List.mem_range.mp hr
    rw [List.range_succ, List.map_append, List.foldlM_append, ih]
    simp only [Bind.bind, Except.bind, List.map_cons, List.map_nil, List.foldlM_cons,
      List.foldlM_nil]
    rw [hstep (n + 1) (n + 1) cols _ le_rfl le_rfl hpre, List.flatMap_append,
      List.flatMap_singleton]
    rfl

end Fold

/-! ## Sheets read back -/

section RoundTrip

variable [Element α]

/-- The cells read back from the sheet of `m`: row by row, the elements its fields give. -/
def sheetCells (m : SparseMatrix α) : List (Key × α) :=
  (List.range m.rowCount).flatMap fun r => (List.range m.colCount).filterMap fun c =>
    (fieldValue? (sheetField m r c)).map ((⟨r, c⟩ : Key), ·)

theorem mem_sheetCells {m : SparseMatrix α} {k : Key} {w : α} :
    (k, w) ∈ sheetCells m ↔
      k.row < m.rowCount ∧ k.col < m.colCount ∧ fieldValue? (sheetField m k.row k.col) = some w := by
  simp only [sheetCells, List.mem_flatMap, List.mem_filterMap, List.mem_range,
    Option.map_eq_some_iff, Prod.mk.injEq]
  constructor
  · rintro ⟨r, hr, c, hc, w', hw', rfl, rfl⟩
    exact ⟨hr, hc, hw'⟩
  · rintro ⟨hr, hc, hw⟩
    exact ⟨k.row, hr, k.col, hc, w, hw, rfl, rfl⟩

theorem keyOrdered_sheetCells (m : SparseMatrix α) : KeyOrdered (sheetCells m) :=
  keyOrdered_grid fun r c kv hkv => by
    obtain ⟨w, -, rfl⟩ := Option.map_eq_some_iff.mp hkv
    rfl

/-- The sheet of a matrix whose written keys are distinct and whose stored values read back is
read as its size and the elements of its fields, through a CSV library that reads back its
records. -/
theorem ofSheetText_sheetText [Host] {csv : Csv.Library} {m : SparseMatrix α}
    (hord : KeyOrdered m.entries) (hv : ∀ kv ∈ m.entries, TextValue kv.2)
    (hcsv : csv.ReadsBack (sheetRecords m)) (hrows : 0 < m.rowCount) (hcols : 0 < m.colCount) :
    ofSheetText csv (sheetText csv m) =
      .ok ⟨⟨m.rowCount, m.colCount, sheetCells m⟩, Config.default, none, none⟩ := by
  obtain ⟨n, hn⟩ : ∃ n, m.rowCount = n + 1 := ⟨m.rowCount - 1, by omega⟩
  unfold ofSheetText
  dsimp only
  rw [show csv.records (sheetText csv m) = sheetRecords m from hcsv, sheetRecords_eq m hcols,
    zipIdx_map_range, sheetCells, hn]
  refine foldlM_records (fun r kv hkv => ?_) (fun r rows' cols' pre hr hc hpre => ?_) n
  · obtain ⟨c, -, hkvc⟩ := List.mem_filterMap.mp hkv
    obtain ⟨w, -, rfl⟩ := Option.map_eq_some_iff.mp hkvc
    rfl
  · dsimp only
    rw [zipIdx_map_range, List.length_map, List.length_range]
    refine foldlM_record (fun t c => ?_) hpre hr hc
    dsimp only
    rcases sheetField_cases m hord r c with hempty | ⟨v, hmem, htext⟩
    · rw [hempty, fieldValue?_empty]
      rfl
    · have hblank := (hv _ hmem).not_blank
      obtain ⟨w, hread, -⟩ := (hv _ hmem).reads
      rw [htext, fieldValue?_of_read hblank hread, if_neg (by simp [hblank]), hread]
      show (Except.ok (if Arith.isZero w = true then t else t.set r c w) :
        Except Failure (SparseMatrix α)) = _
      cases Arith.isZero w <;> rfl

/-- Every cell read back from the sheet is at a written key. -/
theorem stored_of_mem_sheetCells {m : SparseMatrix α} (hord : KeyOrdered m.entries) {k : Key}
    {w : α} (h : (k, w) ∈ sheetCells m) : ∃ v, (k, v) ∈ m.entries := by
  obtain ⟨-, -, hw⟩ := mem_sheetCells.mp h
  rcases sheetField_cases m hord k.row k.col with hempty | ⟨v, hmem, -⟩
  · rw [hempty, fieldValue?_empty] at hw
    cases hw
  · exact ⟨v, hmem⟩

/-- At a written key, the sheet's cell is the element the written value's field gives. -/
theorem mem_sheetCells_of_mem {m : SparseMatrix α} (hord : KeyOrdered m.entries)
    (hin : m.store.Bounded 0) {k : Key} {v w : α} (hmem : (k, v) ∈ m.entries) :
    (k, w) ∈ sheetCells m ↔ fieldValue? (Element.text v) = some w := by
  obtain ⟨hr, hc⟩ := hin _ hmem
  rw [mem_sheetCells, sheetField_of_mem hord hmem]
  exact ⟨fun h => h.2.2, fun h => ⟨hr, hc, h⟩⟩

/-- At a written key the sheet holds, read back, one value equal to the written one, unless
that is zero. -/
theorem TextValue.sheetCell {m : SparseMatrix α} (hord : KeyOrdered m.entries)
    (hin : m.store.Bounded 0) {k : Key} {v : α} (hmem : (k, v) ∈ m.entries) (hv : TextValue v) :
    ∃ w, Arith.eq w v = true ∧ Arith.eq v w = true ∧
      ∀ w', (k, w') ∈ sheetCells m ↔ Arith.isZero v = false ∧ w' = w := by
  obtain ⟨w, hwv, hvw, hfield⟩ := hv.fieldValue?_text
  refine ⟨w, hwv, hvw, fun w' => ?_⟩
  rw [mem_sheetCells_of_mem hord hin hmem, hfield]
  cases Arith.isZero v <;> simp [eq_comm]

/-- A matrix read back from the sheet of `m` with the size of `m` and the cells of its fields is
equal to `m`, and stores exactly the cells of `m` that are not zero. -/
theorem sheetCells_beq [Host] {m : SparseMatrix α} (hord : KeyOrdered m.entries)
    (hin : m.store.Bounded 0) (hv : ∀ kv ∈ m.entries, TextValue kv.2) :
    let L : SparseMatrix α := ⟨⟨m.rowCount, m.colCount, sheetCells m⟩, Config.default, none, none⟩
    L.beq m = true ∧
      ∀ k, (∃ w, (k, w) ∈ L.entries) ↔ ∃ v, (k, v) ∈ m.entries ∧ Arith.isZero v = false := by
  intro L
  have hL : (L.entries.map Prod.fst).Nodup := (keyOrdered_sheetCells m).nodup
  refine ⟨?_, fun k => ⟨fun ⟨w, hw⟩ => ?_, fun ⟨v, hmem, hzero⟩ => ?_⟩⟩
  · simp only [beq, Bool.and_eq_true, List.all_eq_true, beq_iff_eq]
    refine ⟨⟨rfl, fun kv hkv => ?_⟩, fun kv hkv => ?_⟩
    · -- a cell read back is the element of a written value, equal to it
      obtain ⟨k, w⟩ := kv
      obtain ⟨v, hmem⟩ := stored_of_mem_sheetCells hord hkv
      obtain ⟨w₀, hwv, -, hcell⟩ := (hv _ hmem).sheetCell hord hin hmem
      obtain ⟨-, rfl⟩ := (hcell w).mp hkv
      show Arith.eq w (m.get k.row k.col) = true
      rw [get_of_mem hord.nodup hmem]
      exact hwv
    · -- a written value is read back equal to it, or is zero and left out
      obtain ⟨k, v⟩ := kv
      obtain ⟨w₀, -, hvw, hcell⟩ := (hv _ hkv).sheetCell hord hin hkv
      show Arith.eq v (L.get k.row k.col) = true
      rcases Bool.eq_false_or_eq_true (Arith.isZero v) with hzero | hzero
      · rw [get_of_not_mem fun w' hw' => absurd ((hcell w').mp hw').1 (by simp [hzero])]
        exact hzero
      · rw [get_of_mem hL ((hcell w₀).mpr ⟨hzero, rfl⟩)]
        exact hvw
  · obtain ⟨v, hmem⟩ := stored_of_mem_sheetCells hord hw
    obtain ⟨_, -, -, hcell⟩ := (hv _ hmem).sheetCell hord hin hmem
    exact ⟨v, hmem, ((hcell w).mp hw).1⟩
  · obtain ⟨w₀, -, -, hcell⟩ := (hv _ hmem).sheetCell hord hin hmem
    exact ⟨w₀, (hcell w₀).mpr ⟨hzero, rfl⟩⟩

/-- A sheet that is saved was checked: its name and file are taken, and its text is the sheet
of the matrix. -/
theorem saveSheet_eq_ok {m : SparseMatrix α} {csv : Csv.Library} {fs : FileSystem}
    {name file text : String} (h : m.saveSheet csv fs name = .ok (file, text)) :
    checkSheetName name = .ok () ∧ checkSheetFile fs name = .ok () ∧ text = sheetText csv m := by
  unfold saveSheet at h
  by_cases hrows : m.rowCount > sheetRowLimit
  · simp only [hrows, if_true] at h
    cases h
  by_cases hcols : m.colCount > sheetColumnLimit
  · simp only [hrows, hcols, if_true, if_false] at h
    cases h
  simp only [hrows, hcols, if_false] at h
  obtain ⟨⟨⟩, hname, h⟩ := bind_eq_ok h
  obtain ⟨⟨⟩, hfile, h⟩ := bind_eq_ok h
  cases h
  exact ⟨hname, hfile, rfl⟩

theorem loadSheet_of_saveSheet [Host] {m : SparseMatrix α} {csv : Csv.Library} {fs : FileSystem}
    {name file text : String} (h : m.saveSheet csv fs name = .ok (file, text)) :
    (loadSheet csv fs name (some text) : Except Failure (SparseMatrix α)) =
      ofSheetText csv (sheetText csv m) := by
  obtain ⟨hname, hfile, rfl⟩ := saveSheet_eq_ok h
  unfold loadSheet
  rw [hname, hfile]
  rfl

/-- **Sheets read back.** Let the cells of a matrix lie inside its bounds, let its stored
values be written as texts that read back as equal values, and let a CSV library read back the
records of its sheet. Once its sheet is saved, loading the sheet succeeds; with rows and
columns, the matrix loaded has its size, is equal to it, and stores a cell exactly at its keys
whose value is not zero. Without rows or columns the sheet is empty and loads as the `0 × 0`
matrix. -/
theorem loadSheet_saveSheet [Host] (csv : Csv.Library) (fs : FileSystem) {slack : Nat}
    {m : SparseMatrix α} {name file text : String} (hm : Reachable slack m.store)
    (hin : m.store.Bounded 0) (hv : ∀ kv ∈ m.entries, TextValue kv.2)
    (hcsv : csv.ReadsBack (sheetRecords m)) (hsave : m.saveSheet csv fs name = .ok (file, text)) :
    ∃ L : SparseMatrix α, loadSheet csv fs name (some text) = .ok L ∧
      (0 < m.rowCount → 0 < m.colCount → L.dims = m.dims ∧ L.beq m = true ∧
        ∀ k, (∃ w, (k, w) ∈ L.entries) ↔ ∃ v, (k, v) ∈ m.entries ∧ Arith.isZero v = false) ∧
      (m.rowCount = 0 ∨ m.colCount = 0 → L.dims = (0, 0) ∧ L.entries = []) := by
  have hord : KeyOrdered m.entries := hm.cells_ordered
  rw [loadSheet_of_saveSheet hsave]
  by_cases hempty : m.rowCount = 0 ∨ m.colCount = 0
  · -- no record, or records without fields: the sheet has no record
    have hnone : sheetRecords m = [] := by
      unfold sheetRecords
      split
      · rfl
      · rw [hempty.resolve_right ‹_›]
        rfl
    have hread : csv.records (sheetText csv m) = [] := hnone ▸ hcsv
    refine ⟨new, ?_, fun hr hc => ?_, fun _ => ⟨rfl, rfl⟩⟩
    · unfold ofSheetText
      dsimp only
      rw [hread]
      rfl
    · omega
  · have hr : 0 < m.rowCount := by omega
    have hc : 0 < m.colCount := by omega
    obtain ⟨hbeq, hkeys⟩ := sheetCells_beq hord hin hv
    exact ⟨_, ofSheetText_sheetText hord hv hcsv hr hc, fun _ _ => ⟨rfl, hbeq, hkeys⟩,
      fun h => absurd h hempty⟩

end RoundTrip

open Host in
/-- A `3 × 4` matrix with a written zero and an empty row: its sheet, written and read by the
CSV library of this project, loads back equal to it, with its size and without the zero. -/
theorem loadSheet_saveSheet_stored_zero :
    Reachable 0 (((zeros 3 4 : SparseMatrix Int64).set 1 2 0).set 0 3 (-5)).store ∧
      (((zeros 3 4 : SparseMatrix Int64).set 1 2 0).set 0 3 (-5)).store.Bounded 0 ∧
      Csv.standard.ReadsBack (sheetRecords (((zeros 3 4 : SparseMatrix Int64).set 1 2 0).set 0 3 (-5))) ∧
      (((zeros 3 4 : SparseMatrix Int64).set 1 2 0).set 0 3 (-5)).saveSheet Csv.standard
        FileSystem.standard "m" = .ok ("m.csv", ",,,-5\n,,0,\n,,,\n") ∧
      ∃ L : SparseMatrix Int64,
        loadSheet Csv.standard FileSystem.standard "m" (some ",,,-5\n,,0,\n,,,\n") = .ok L ∧
        L.dims = (3, 4) ∧ L.beq (((zeros 3 4 : SparseMatrix Int64).set 1 2 0).set 0 3 (-5)) = true ∧
        ¬∃ w, ((⟨1, 2⟩ : Key), w) ∈ L.entries := by
  have hm : Reachable 0 (((zeros 3 4 : SparseMatrix Int64).set 1 2 0).set 0 3 (-5)).store :=
    .set _ _ (.set _ _ (.zeros 3 4) (by decide) (by decide)) (by decide) (by decide)
  have hin : (((zeros 3 4 : SparseMatrix Int64).set 1 2 0).set 0 3 (-5)).store.Bounded 0 := by
    unfold Store.Bounded
    decide
  have hcsv : Csv.standard.ReadsBack
      (sheetRecords (((zeros 3 4 : SparseMatrix Int64).set 1 2 0).set 0 3 (-5))) :=
    readsBack_sheetRecords hm.cells_ordered fun kv _ => sheetValue_int64 kv.2
  have hsave : (((zeros 3 4 : SparseMatrix Int64).set 1 2 0).set 0 3 (-5)).saveSheet Csv.standard
      FileSystem.standard "m" = .ok ("m.csv", ",,,-5\n,,0,\n,,,\n") := rfl
  obtain ⟨L, hL, hfull, -⟩ := loadSheet_saveSheet Csv.standard FileSystem.standard hm hin
    (fun kv _ => (sheetValue_int64 kv.2).toTextValue) hcsv hsave
  obtain ⟨hdims, hbeq, hkeys⟩ := hfull (by decide) (by decide)
  refine ⟨hm, hin, hcsv, hsave, L, hL, hdims, hbeq, fun hzero => ?_⟩
  obtain ⟨v, hv, hnonzero⟩ := (hkeys _).mp hzero
  have hentries : (((zeros 3 4 : SparseMatrix Int64).set 1 2 0).set 0 3 (-5)).entries =
      [(⟨0, 3⟩, -5), (⟨1, 2⟩, 0)] := rfl
  rw [hentries] at hv
  simp only [List.mem_cons, Prod.mk.injEq, List.not_mem_nil, or_false] at hv
  rcases hv with ⟨hk, -⟩ | ⟨-, rfl⟩
  · cases hk
  · exact absurd hnonzero (by decide)

/-- Deleting the first row moves a cell on the last row up, onto the new last row. -/
theorem Store.deleteRow_cell_on_bound {R : Nat} (hR : 0 < R) (v : α) :
    (⟨R, 1, [(⟨R, 0⟩, v)]⟩ : Store α).deleteRow 0 = .ok ⟨R - 1, 1, [(⟨R - 1, 0⟩, v)]⟩ := by
  unfold Store.deleteRow
  rw [if_neg (Nat.not_le.mpr hR)]
  simp only [Store.rekey, List.filterMap_cons, List.filterMap_nil, if_neg (Nat.ne_of_gt hR),
    if_pos hR, Option.map_some]
  rfl

/-- A write at the largest row leaves its cell on the bound; deleting the first row again and
again keeps it there, down to every smaller row count. -/
theorem reachable_cell_on_bound [Host] (n : Nat) (hn : n < Text.wordMax) :
    Reachable 1 (⟨Text.wordMax - n, 1, [(⟨Text.wordMax - n, 0⟩, (1 : Int64))]⟩ : Store Int64) := by
  induction n with
  | zero =>
    have hset : (new : SparseMatrix Int64).store.set ⟨Text.wordMax, 0⟩ 1 =
        ⟨Text.wordMax - 0, 1, [(⟨Text.wordMax - 0, 0⟩, 1)]⟩ :=
      rfl
    exact hset ▸ Reachable.set _ _ .new (by decide) (by decide)
  | succ n ih =>
    have hdel := Store.deleteRow_cell_on_bound (R := Text.wordMax - n) (by omega) (1 : Int64)
    rw [show Text.wordMax - n - 1 = Text.wordMax - (n + 1) by omega] at hdel
    exact .deleteRow (ih (by omega)) hdel

open Host in
/-- A `1 × 1` matrix whose cell lies on its last row, below the only row of the sheet, which a
write at the largest row followed by deletions of the first row leaves: its sheet has one
blank record, so the cell is lost and the matrix loaded differs from it. -/
theorem saveSheet_loses_cell_on_bound :
    Reachable 1 (⟨1, 1, [(⟨1, 0⟩, 1)]⟩ : Store Int64) ∧
      (⟨⟨1, 1, [(⟨1, 0⟩, 1)]⟩, Config.default, none, none⟩ : SparseMatrix Int64).saveSheet
        Csv.standard FileSystem.standard "m" = .ok ("m.csv", "\"\"\n") ∧
      ∃ L : SparseMatrix Int64,
        loadSheet Csv.standard FileSystem.standard "m" (some "\"\"\n") = .ok L ∧ L.dims = (1, 1) ∧
        L.beq ⟨⟨1, 1, [(⟨1, 0⟩, 1)]⟩, Config.default, none, none⟩ = false := by
  refine ⟨?_, rfl, ⟨⟨1, 1, []⟩, Config.default, none, none⟩, rfl, rfl, rfl⟩
  have h := reachable_cell_on_bound (Text.wordMax - 1) (by decide)
  rwa [Nat.sub_sub_self (by decide)] at h

end SparseMatrix
