import SparseMatrix.Proofs.JsonReadBack
import SparseMatrix.Proofs.KeyOrder
import SparseMatrix.Proofs.Numerals

/-!
# Matrix documents read back

A matrix whose cells lie inside its bounds is read back from its document with its size
and its cells, through every JSON library that reads back the fields of the document and for
every element that reads back the JSON form of each value (`ofDocument_toDocument`). The proof
follows the layers of the document:

* a key's text `row,column` reads back as the key, the largest word being refused on either
  axis (`Key.parse_text_eq`), so distinct keys have distinct texts (`KeyOrdered.nodup_texts`);
* the library gives the document's three fields (`readRecord_toDocument`), and cells with
  distinct names merge into themselves (`Document.merge_of_nodup`);
* cells written in increasing key order inside the bounds are appended, so writing the
  cells of the document one by one rebuilds the list (`foldlM_write`).

The library of this project meets the assumption for every matrix whose sizes are words and
whose values have JSON forms it reads back (`readsBack_documentFields`): every word value, and
every fraction whose denominator is not zero (`RoundTrips`, `roundTrips_int64`,
`roundTrips_fraction`).

A cell on a bound, which only a write saturated at the largest word stores, is written but
refused when read back (`ofDocument_refuses_saturated_key`).
-/

namespace SparseMatrix

/-! ## Key texts -/

/-- Distinct keys inside the word range have distinct texts. -/
theorem KeyOrdered.nodup_texts {β : Type} {cells : List (Key × β)} (h : KeyOrdered cells)
    (hword : ∀ kv ∈ cells, kv.1.row < Text.wordMax ∧ kv.1.col < Text.wordMax) :
    (cells.map fun kv => kv.1.text).Nodup := by
  have hmap : (cells.map fun kv => kv.1.text) = (cells.map Prod.fst).map Key.text := by
    rw [List.map_map]
    rfl
  rw [hmap]
  refine h.nodup.map_on fun a ha b hb hab => ?_
  obtain ⟨x, hx, rfl⟩ := List.mem_map.mp ha
  obtain ⟨y, hy, rfl⟩ := List.mem_map.mp hb
  have hparse := Key.parse_text (hword x hx).1 (hword x hx).2
  rw [hab, Key.parse_text (hword y hy).1 (hword y hy).2] at hparse
  exact (Except.ok.inj hparse).symm

/-! ## Values read back -/

namespace Json

theorem readable_ofInt {i : Int} (hlo : -(Nat.pow 2 63 : Int) ≤ i) (hhi : i ≤ Text.wordMax) :
    Readable (.number (Number.ofInt i)) := by
  unfold Number.ofInt
  split
  · exact readable_negative (by omega) (by omega)
  · exact readable_nat (by omega)

end Json

theorem jsonInt?_ofInt (i : Int) : Element.jsonInt? (.number (Json.Number.ofInt i)) = some i := by
  unfold Json.Number.ofInt
  split <;> simp only [Element.jsonInt?, Option.some.injEq] <;> omega

section Values

variable {α : Type}

/-- A value whose JSON form reads back as itself inside a document's cells: the reader
keeps the form as it is, the form leaves room for the two objects around it, and the
element reads it back as the value. -/
def RoundTrips [Element α] (v : α) : Prop :=
  Json.Readable (Element.toJson v) ∧ (Element.toJson v).nesting + 2 ≤ Json.depthLimit ∧
    Element.ofJson? (Element.toJson v) = some v

/-- Every value of a word type whose range lies within the 64-bit integers, each word
rebuilt from its integer, round-trips. -/
theorem roundTrips_ofWord [Word α] (name : String) (width : Nat)
    (hlo : -(Nat.pow 2 63 : Int) ≤ Word.lo α) (hhi : Word.hi α ≤ Text.wordMax)
    (hrange : ∀ v : α, Word.lo α ≤ Word.toInt v ∧ Word.toInt v ≤ Word.hi α)
    (hof : ∀ v : α, Word.ofInt (Word.toInt v) = v) (v : α) :
    @RoundTrips α (Element.ofWord α name width) v := by
  have hv := hrange v
  refine ⟨Json.readable_ofInt (by omega) (by omega), show 0 + 2 ≤ Json.depthLimit by decide, ?_⟩
  show ((Element.jsonInt? (.number (Json.Number.ofInt (Word.toInt v)))).bind fun i =>
    if Word.fits α i then some (Word.ofInt i) else none) = some v
  rw [jsonInt?_ofInt, Option.bind_some, if_pos (by simp [Word.fits, hv]), hof]

theorem int64_toInt_range (v : Int64) :
    -(Nat.pow 2 63 : Int) ≤ v.toInt ∧ v.toInt ≤ (Nat.pow 2 63 : Int) - 1 := by
  have hlo := Int64.le_toInt v
  have hhi := Int64.toInt_lt v
  simp only [Nat.pow_eq, Nat.cast_pow, Nat.cast_ofNat]
  omega

theorem roundTrips_int64 (v : Int64) : RoundTrips v :=
  roundTrips_ofWord "i64" 8 (by decide) (by decide) int64_toInt_range Int64.ofInt_toInt v

theorem roundTrips_int32 (v : Int32) : RoundTrips v := by
  refine roundTrips_ofWord "i32" 4 (by decide) (by decide) (fun w => ?_) Int32.ofInt_toInt v
  have hlo := Int32.le_toInt w
  have hhi := Int32.toInt_lt w
  show -(Nat.pow 2 31 : Int) ≤ w.toInt ∧ w.toInt ≤ (Nat.pow 2 31 : Int) - 1
  simp only [Nat.pow_eq, Nat.cast_pow, Nat.cast_ofNat]
  omega

theorem roundTrips_uint64 (v : UInt64) : RoundTrips v := by
  refine roundTrips_ofWord "u64" 8 (by decide) (by decide) (fun w => ?_)
    (fun w => by simp [Word.ofInt, Word.toInt]) v
  have hhi := UInt64.toNat_lt w
  show 0 ≤ (w.toNat : Int) ∧ (w.toNat : Int) ≤ (Nat.pow 2 64 : Int) - 1
  simp only [Nat.pow_eq, Nat.cast_pow, Nat.cast_ofNat]
  omega

theorem roundTrips_uint8 (v : UInt8) : RoundTrips v := by
  refine roundTrips_ofWord "u8" 1 (by decide) (by decide) (fun w => ?_)
    (fun w => by simp [Word.ofInt, Word.toInt]) v
  have hhi := UInt8.toNat_lt w
  show 0 ≤ (w.toNat : Int) ∧ (w.toNat : Int) ≤ (Nat.pow 2 8 : Int) - 1
  simp only [Nat.pow_eq, Nat.cast_pow, Nat.cast_ofNat]
  omega

/-- A fraction round-trips as the pair of its terms, unreduced, when its denominator is
not zero. -/
theorem roundTrips_fraction {x : Fraction} (h : x.den ≠ 0) : RoundTrips x := by
  have hnum := int64_toInt_range x.num
  have hden := int64_toInt_range x.den
  have hmax : (Nat.pow 2 63 : Int) - 1 ≤ Text.wordMax := by decide
  have hden0 : x.den.toInt ≠ 0 := fun h0 => h (by rw [← Int64.ofInt_toInt x.den, h0]; rfl)
  refine ⟨.array fun w hw => ?_, show 1 + 2 ≤ Json.depthLimit by decide, ?_⟩
  · simp only [List.mem_cons, List.not_mem_nil, or_false] at hw
    rcases hw with rfl | rfl <;> exact Json.readable_ofInt (by omega) (by omega)
  · show Fraction.ofJson? (.array [.number (Json.Number.ofInt x.num.toInt),
      .number (Json.Number.ofInt x.den.toInt)]) = some x
    have hfits : ∀ v : Int64, Word.fits Int64 v.toInt = true :=
      fun v => decide_eq_true (int64_toInt_range v)
    simp only [Fraction.ofJson?, jsonInt?_ofInt]
    rw [if_pos ⟨hfits x.num, hfits x.den, hden0⟩]
    show some ⟨Int64.ofInt x.num.toInt, Int64.ofInt x.den.toInt⟩ = some x
    rw [Int64.ofInt_toInt, Int64.ofInt_toInt]

end Values

/-! ## The fields and cells of a document -/

namespace Document

/-- Fields with distinct names are merged into themselves. -/
theorem merge_of_nodup {fields : List (String × Json.Value)} (h : (fields.map Prod.fst).Nodup) :
    merge fields = fields := by
  induction fields using List.reverseRecOn with
  | nil => rfl
  | append_singleton l kv ih =>
    obtain ⟨k, v⟩ := kv
    rw [List.map_append, List.nodup_append] at h
    have hk : l.any (·.1 == k) = false := by
      rw [List.any_eq_false]
      intro x hx hxk
      exact h.2.2 x.1 (List.mem_map_of_mem hx) k (List.mem_singleton_self k) (beq_iff_eq.mp hxk)
    have hl : merge l = l := ih h.1
    unfold merge at hl ⊢
    rw [List.foldl_append, hl]
    simp [hk]

/-- A document object with its three fields once each, in order, gives its sizes and its
merged cells. -/
theorem parts_fields (rows cols : Nat) (cells : List (String × Json.Value)) :
    parts (.fields [("rows", .number (.nat rows)), ("columns", .number (.nat cols)),
      ("cells", .object cells)]) = .ok (rows, cols, merge cells) := by
  rfl

end Document

section Fold

variable {α : Type}

namespace Store

theorem insertCell_of_before {k : Key} (v : α) {cells : List (Key × α)}
    (h : ∀ kv ∈ cells, kv.1.before k = true) : insertCell k v cells = cells ++ [(k, v)] := by
  induction cells with
  | nil => rfl
  | cons kv cells ih =>
    obtain ⟨k', v'⟩ := kv
    have hk' : k'.before k = true := h (k', v') List.mem_cons_self
    rw [insertCell, if_neg (by simp [Key.before_asymm hk']), if_neg (Key.ne_of_before hk').symm,
      ih fun kv hkv => h kv (List.mem_cons_of_mem _ hkv)]
    rfl

/-- Writing a cell after every written cell, inside the bounds, appends it and keeps the
bounds. -/
theorem set_after {rows cols : Nat} {cells : List (Key × α)} {k : Key} (v : α)
    (h : ∀ kv ∈ cells, kv.1.before k = true) (hr : k.row < rows) (hc : k.col < cols) :
    (⟨rows, cols, cells⟩ : Store α).set k v = ⟨rows, cols, cells ++ [(k, v)]⟩ := by
  simp only [set, insertCell_of_before v h, Store.mk.injEq, and_true, succSat]
  omega

end Store

variable [Element α]

/-- Cells written one by one in increasing key order, after the cells already there and
inside the bounds, end up listed in the order written, the bounds unchanged. -/
theorem foldlM_write {step : SparseMatrix α → String × Json.Value → Except Error (SparseMatrix α)}
    {rows cols : Nat} {config : Config} {token : Option Token} {device : Option (Device α)}
    {l : List (Key × α)}
    (hstep : ∀ t : SparseMatrix α, ∀ kv ∈ l,
      step t (kv.1.text, Element.toJson kv.2) = .ok (t.set kv.1.row kv.1.col kv.2))
    (hin : ∀ kv ∈ l, kv.1.row < rows ∧ kv.1.col < cols) (pre : List (Key × α))
    (hord : KeyOrdered (pre ++ l)) :
    (l.map fun kv => (kv.1.text, Element.toJson kv.2)).foldlM step
        ⟨⟨rows, cols, pre⟩, config, token, device⟩ =
      .ok ⟨⟨rows, cols, pre ++ l⟩, config, token, device⟩ := by
  induction l generalizing pre with
  | nil => simp [pure, Except.pure]
  | cons kv l ih =>
    have hbefore : ∀ x ∈ pre, x.1.before kv.1 = true :=
      fun x hx => (List.pairwise_append.mp hord).2.2 x hx kv List.mem_cons_self
    have hkv := hin kv List.mem_cons_self
    have hset : (⟨⟨rows, cols, pre⟩, config, token, device⟩ : SparseMatrix α).set kv.1.row kv.1.col
        kv.2 = ⟨⟨rows, cols, pre ++ [kv]⟩, config, token, device⟩ := by
      show SparseMatrix.mk ((Store.mk rows cols pre).set kv.1 kv.2) config token device = _
      rw [Store.set_after kv.2 hbefore hkv.1 hkv.2]
    rw [List.map_cons, List.foldlM_cons, hstep _ kv List.mem_cons_self, hset]
    refine (ih (fun t x hx => hstep t x (List.mem_cons_of_mem _ hx))
      (fun x hx => hin x (List.mem_cons_of_mem _ hx)) (pre ++ [kv]) (by simpa using hord)).trans ?_
    rw [List.append_assoc, List.singleton_append]

end Fold

/-! ## Documents read back -/

section RoundTrip

variable {α : Type} [Element α]

/-- The library of this project reads a document back as its three fields when the sizes are
words and the JSON form of each value is read back as it is, nested shallowly enough. -/
theorem readsBack_documentFields {m : SparseMatrix α} (hrows : m.rowCount ≤ Text.wordMax)
    (hcols : m.colCount ≤ Text.wordMax) (hv : ∀ kv ∈ m.entries, RoundTrips kv.2) :
    Json.standard.ReadsBack Document.fieldNames (documentFields m) := by
  have hD : Json.depthLimit = 127 := rfl
  apply Json.readRecord_render (by simp [documentFields])
  · intro f hf
    simp only [documentFields, List.mem_cons, List.not_mem_nil, or_false] at hf
    rcases hf with rfl | rfl | rfl <;> rfl
  · intro f hf
    simp only [documentFields, List.mem_cons, List.not_mem_nil, or_false] at hf
    rcases hf with rfl | rfl | rfl
    · exact ⟨Json.readable_nat hrows, show 1 + 0 ≤ Json.depthLimit by decide⟩
    · exact ⟨Json.readable_nat hcols, show 1 + 0 ≤ Json.depthLimit by decide⟩
    · -- the cells object nests one deeper than its deepest value
      have hnest : Json.fieldsNesting (m.entries.map fun kv => (kv.1.text, Element.toJson kv.2)) ≤
          Json.depthLimit - 2 :=
        Json.fieldsNesting_le fun f hf => by
          obtain ⟨kv, hkv, rfl⟩ := List.mem_map.mp hf
          have := (hv kv hkv).2.1
          dsimp only
          omega
      refine ⟨.object fun f hf => ?_, ?_⟩
      · obtain ⟨kv, hkv, rfl⟩ := List.mem_map.mp hf
        exact (hv kv hkv).1
      · show 1 + (Json.fieldsNesting _ + 1) ≤ Json.depthLimit
        omega

/-- A library that reads back the fields of a matrix's document reads its document as them. -/
theorem readRecord_toDocument {lib : Json.Library} {m : SparseMatrix α}
    (h : lib.ReadsBack Document.fieldNames (documentFields m)) :
    lib.readRecord Document.fieldNames (toDocument lib m) = .ok (.fields (documentFields m)) :=
  h

/-- **Documents read back.** Let a JSON library read back the fields of the document of a
matrix whose cells lie inside its bounds, and let the element read back the JSON form of each
stored value. Then the matrix is read back from its document with its size and its cells,
stored zeros and unreduced fractions included, and the document of what is read back is the
document read. The document lists the cells in row-major key order. -/
theorem ofDocument_toDocument [Host] (lib : Json.Library) {slack : Nat} {m : SparseMatrix α}
    (hm : Reachable slack m.store) (hin : m.store.Bounded 0) (hrows : m.rowCount ≤ Text.wordMax)
    (hcols : m.colCount ≤ Text.wordMax) (hlib : lib.ReadsBack Document.fieldNames (documentFields m))
    (hv : ∀ kv ∈ m.entries, Element.ofJson? (Element.toJson kv.2) = some kv.2) :
    KeyOrdered m.entries ∧ ∃ m' : SparseMatrix α, ofDocument lib (toDocument lib m) = .ok m' ∧
      m'.dims = m.dims ∧ m'.entries = m.entries ∧ toDocument lib m' = toDocument lib m := by
  have hord : KeyOrdered m.entries := hm.cells_ordered
  have hkeys : ∀ kv ∈ m.entries, kv.1.row < m.rowCount ∧ kv.1.col < m.colCount :=
    fun kv hkv => hin kv hkv
  have hword : ∀ kv ∈ m.entries, kv.1.row < Text.wordMax ∧ kv.1.col < Text.wordMax :=
    fun kv hkv => by have := hkeys kv hkv; omega
  have hnames : ((m.entries.map fun kv => (kv.1.text, Element.toJson kv.2)).map Prod.fst).Nodup := by
    rw [List.map_map]
    exact hord.nodup_texts hword
  refine ⟨hord, ⟨⟨m.rowCount, m.colCount, m.entries⟩, Config.default, none, none⟩, ?_, rfl, rfl, rfl⟩
  unfold ofDocument
  simp only [readRecord_toDocument hlib, documentFields, Document.parts_fields,
    Document.merge_of_nodup hnames, Except.mapError, Bind.bind, Except.bind]
  refine foldlM_write (fun t kv hkv => ?_) hkeys [] hord
  obtain ⟨hr, hc⟩ := hword kv hkv
  obtain ⟨hR, hC⟩ := hkeys kv hkv
  dsimp only
  simp only [Key.parse_text hr hc, Nat.not_le.mpr hR, Nat.not_le.mpr hC, if_false, hv kv hkv]
  rfl

open Host in
/-- A stored zero and trailing empty rows and columns survive the round trip through the
library of this project, which reads the document back. -/
theorem ofDocument_toDocument_stored_zero :
    Reachable 0 (((zeros 3 4 : SparseMatrix Int64).set 1 2 0).set 0 3 (-5)).store ∧
      (((zeros 3 4 : SparseMatrix Int64).set 1 2 0).set 0 3 (-5)).store.Bounded 0 ∧
      Json.standard.ReadsBack Document.fieldNames
        (documentFields (((zeros 3 4 : SparseMatrix Int64).set 1 2 0).set 0 3 (-5))) ∧
      KeyOrdered (((zeros 3 4 : SparseMatrix Int64).set 1 2 0).set 0 3 (-5)).entries ∧
      ∃ m' : SparseMatrix Int64, ofDocument Json.standard
          (toDocument Json.standard (((zeros 3 4 : SparseMatrix Int64).set 1 2 0).set 0 3 (-5))) =
            .ok m' ∧
        m'.dims = (3, 4) ∧ m'.entries = [(⟨0, 3⟩, -5), (⟨1, 2⟩, 0)] ∧
        toDocument Json.standard m' =
          toDocument Json.standard (((zeros 3 4 : SparseMatrix Int64).set 1 2 0).set 0 3 (-5)) := by
  have hm : Reachable 0 (((zeros 3 4 : SparseMatrix Int64).set 1 2 0).set 0 3 (-5)).store :=
    .set _ _ (.set _ _ (.zeros 3 4) (by decide) (by decide)) (by decide) (by decide)
  have hin : (((zeros 3 4 : SparseMatrix Int64).set 1 2 0).set 0 3 (-5)).store.Bounded 0 := by
    unfold Store.Bounded
    decide
  have hlib : Json.standard.ReadsBack Document.fieldNames
      (documentFields (((zeros 3 4 : SparseMatrix Int64).set 1 2 0).set 0 3 (-5))) :=
    readsBack_documentFields (by decide) (by decide) fun kv _ => roundTrips_int64 kv.2
  obtain ⟨hord, m', hdoc, hdims, hentries, htext⟩ := ofDocument_toDocument Json.standard hm hin
    (by decide) (by decide) hlib fun kv _ => (roundTrips_int64 kv.2).2.2
  exact ⟨hm, hin, hlib, hord, m', hdoc, hdims.trans (by decide), hentries.trans (by decide), htext⟩

end RoundTrip

open Host in
/-- A cell on the largest row, which a saturated write stores, is written in the document
but refused when read back, since its key names the largest word. -/
theorem ofDocument_refuses_saturated_key :
    (ofDocument Json.standard (toDocument Json.standard ((new : SparseMatrix Int64).set Text.wordMax 0 1)) :
      Except Error (SparseMatrix Int64)) = .error (.invalidKey "18446744073709551615,0") := by
  have hentries : ((new : SparseMatrix Int64).set Text.wordMax 0 1).entries =
      [(⟨Text.wordMax, 0⟩, 1)] := rfl
  have hrows : ((new : SparseMatrix Int64).set Text.wordMax 0 1).rowCount = Text.wordMax := by
    decide
  have hcols : ((new : SparseMatrix Int64).set Text.wordMax 0 1).colCount = 1 := by decide
  have hread := readRecord_toDocument (readsBack_documentFields hrows.le (by rw [hcols]; decide)
    fun kv _ => roundTrips_int64 kv.2)
  have htext : (⟨Text.wordMax, 0⟩ : Key).text = "18446744073709551615,0" := by decide
  unfold ofDocument
  simp only [hread, documentFields, hentries, Document.parts_fields, Except.mapError, Bind.bind,
    Except.bind, List.map_cons, List.map_nil]
  rw [Document.merge_of_nodup (by simp), List.foldlM_cons]
  dsimp only
  rw [Key.parse_text_eq le_rfl (by decide), if_pos (.inl rfl), htext]
  rfl

end SparseMatrix
