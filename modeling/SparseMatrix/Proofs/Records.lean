import SparseMatrix.Csv

/-!
# Records read back

A field is plain when it holds no comma, quote or line break: it is written as it is.
Records of plain fields, each with at least one field, are read back from their written
text as the very same lists of fields (`records_join_writeRecord`), blank records included: a
record of one empty field is written `""`, so that it is not a blank line, and the others are
their fields between commas.

The reader is followed through the text a field at a time, as the writer lays the fields
out: the characters of a plain field go to the open field (`Reader.foldl_inField`,
`Reader.foldl_start`), a comma ends the field and a line feed ends the record
(`Reader.foldl_field_comma`, `Reader.foldl_field_newline`).
-/

namespace SparseMatrix.Csv

/-- A character a field holds as it is written: no comma, quote or line break. -/
def PlainChar (c : Char) : Prop :=
  c ≠ ',' ∧ c ≠ '"' ∧ c ≠ '\n' ∧ c ≠ '\r'

instance (c : Char) : Decidable (PlainChar c) :=
  inferInstanceAs (Decidable (_ ∧ _ ∧ _ ∧ _))

/-- A field written as it is. -/
def Plain (f : String) : Prop :=
  ∀ c ∈ f.toList, PlainChar c

theorem plain_empty : Plain "" := by
  intro c hc
  simp at hc

theorem writeField_of_plain {f : String} (h : Plain f) : writeField f = f := by
  unfold writeField
  refine if_neg ?_
  simp only [List.any_eq_true, Bool.or_eq_true, beq_iff_eq, not_exists, not_and]
  intro c hc
  obtain ⟨h1, h2, h3, h4⟩ := h c hc
  simp [h1, h2, h3, h4]

/-- A record of plain fields, other than one empty field, is written as its fields between
commas. -/
theorem writeRecord_of_plain {fs : List String} (h : ∀ f ∈ fs, Plain f) (hfs : fs ≠ [""]) :
    writeRecord fs = ",".intercalate fs ++ "\n" := by
  unfold writeRecord
  split
  · exact absurd rfl hfs
  · rw [List.map_congr_left fun f hf => writeField_of_plain (h f hf), List.map_id']

/-- The characters of a written comma-separated list of fields: commas and the fields'. -/
theorem mem_intercalate {fs : List String} {c : Char} (hc : c ∈ (",".intercalate fs).toList) :
    c = ',' ∨ ∃ f ∈ fs, c ∈ f.toList := by
  induction fs with
  | nil => simp at hc
  | cons f rest ih =>
    cases rest with
    | nil =>
      rw [String.intercalate_singleton] at hc
      exact .inr ⟨f, List.mem_cons_self, hc⟩
    | cons g rest =>
      rw [String.intercalate_cons_cons] at hc
      simp only [String.toList_append, List.mem_append] at hc
      rcases hc with (hc | hc) | hc
      · exact .inr ⟨f, List.mem_cons_self, hc⟩
      · exact .inl (by simpa using hc)
      · rcases ih hc with hc | ⟨x, hx, hcx⟩
        · exact .inl hc
        · exact .inr ⟨x, List.mem_cons_of_mem f hx, hcx⟩

/-- A written record of plain fields holds the fields' characters, commas, quotes and a line
feed. -/
theorem mem_writeRecord {fs : List String} (h : ∀ f ∈ fs, Plain f) {c : Char}
    (hc : c ∈ (writeRecord fs).toList) : c = ',' ∨ c = '"' ∨ c = '\n' ∨ ∃ f ∈ fs, c ∈ f.toList := by
  by_cases hempty : fs = [""]
  · subst hempty
    have hquoted : c = '"' ∨ c = '\n' := by simpa [writeRecord] using hc
    rcases hquoted with hq | hn
    · exact .inr (.inl hq)
    · exact .inr (.inr (.inl hn))
  · rw [writeRecord_of_plain h hempty, String.toList_append, List.mem_append] at hc
    rcases hc with hc | hc
    · rcases mem_intercalate hc with hc | hf
      · exact .inl hc
      · exact .inr (.inr (.inr hf))
    · exact .inr (.inr (.inl (by simpa using hc)))

namespace Reader

/-- A plain character extends an unquoted field. -/
theorem step_inField {c : Char} (hc : PlainChar c) (records : List (List String))
    (fields : List String) (field : List Char) :
    step ⟨records, fields, field, .inField⟩ c = ⟨records, fields, c :: field, .inField⟩ := by
  obtain ⟨h1, -, h3, h4⟩ := hc
  simp [step, isBreak, h1, h3, h4]

theorem foldl_inField {cs : List Char} (h : ∀ c ∈ cs, PlainChar c)
    (records : List (List String)) (fields : List String) (field : List Char) :
    cs.foldl step ⟨records, fields, field, .inField⟩ =
      ⟨records, fields, cs.reverse ++ field, .inField⟩ := by
  induction cs generalizing field with
  | nil => rfl
  | cons c cs ih =>
    rw [List.foldl_cons, step_inField (h c List.mem_cons_self),
      ih (fun x hx => h x (List.mem_cons_of_mem c hx))]
    simp

/-- A plain field that is not empty opens an unquoted field, at the start of a field or of a
record. -/
theorem foldl_start {c : Char} {cs : List Char} (h : ∀ x ∈ c :: cs, PlainChar x)
    (records : List (List String)) (fields : List String) {mode : Mode}
    (hmode : mode = .fieldStart ∨ mode = .recordStart) :
    (c :: cs).foldl step ⟨records, fields, [], mode⟩ =
      ⟨records, fields, (c :: cs).reverse, .inField⟩ := by
  obtain ⟨h1, h2, h3, h4⟩ := h c List.mem_cons_self
  have hfirst : step ⟨records, fields, [], mode⟩ c = ⟨records, fields, [c], .inField⟩ := by
    rcases hmode with rfl | rfl <;> simp [step, isBreak, h1, h2, h3, h4]
  rw [List.foldl_cons, hfirst, foldl_inField fun x hx => h x (List.mem_cons_of_mem c hx),
    List.reverse_cons]

/-- Outside quotes a comma ends the open field. -/
theorem step_comma (records : List (List String)) (fields : List String) (field : List Char)
    {mode : Mode} (hmode : mode ≠ .inQuotes) :
    step ⟨records, fields, field, mode⟩ ',' =
      ⟨records, String.ofList field.reverse :: fields, [], .fieldStart⟩ := by
  cases mode with
  | inQuotes => exact absurd rfl hmode
  | _ => rfl

/-- Inside a record and outside quotes a line feed ends the open field and the record. -/
theorem step_newline (records : List (List String)) (fields : List String) (field : List Char)
    {mode : Mode} (hstart : mode ≠ .recordStart) (hquotes : mode ≠ .inQuotes) :
    step ⟨records, fields, field, mode⟩ '\n' =
      ⟨(String.ofList field.reverse :: fields).reverse :: records, [], [], .recordStart⟩ := by
  cases mode with
  | recordStart => exact absurd rfl hstart
  | inQuotes => exact absurd rfl hquotes
  | _ => rfl

/-- A plain field and a comma: the field is ended. -/
theorem foldl_field_comma {f : String} (hf : Plain f) (records : List (List String))
    (fields : List String) {mode : Mode} (hmode : mode = .fieldStart ∨ mode = .recordStart) :
    (f.toList ++ [',']).foldl step ⟨records, fields, [], mode⟩ =
      ⟨records, f :: fields, [], .fieldStart⟩ := by
  rw [List.foldl_append]
  cases hcs : f.toList with
  | nil =>
    rw [String.toList_eq_nil_iff.mp hcs]
    rcases hmode with rfl | rfl <;> rfl
  | cons c cs =>
    rw [foldl_start (fun x hx => hf x (hcs ▸ hx)) records fields hmode, List.foldl_cons,
      step_comma records fields _ (by simp), List.foldl_nil, List.reverse_reverse, ← hcs,
      String.ofList_toList]

/-- A plain field and a line feed: the field and the record are ended. At the start of a
record the field must not be empty, as a line feed there is a blank line. -/
theorem foldl_field_newline {f : String} (hf : Plain f) (records : List (List String))
    (fields : List String) {mode : Mode}
    (hmode : mode = .fieldStart ∨ (mode = .recordStart ∧ f ≠ "")) :
    (f.toList ++ ['\n']).foldl step ⟨records, fields, [], mode⟩ =
      ⟨(f :: fields).reverse :: records, [], [], .recordStart⟩ := by
  rw [List.foldl_append]
  cases hcs : f.toList with
  | nil =>
    have hempty : f = "" := String.toList_eq_nil_iff.mp hcs
    rcases hmode with rfl | ⟨-, hne⟩
    · rw [hempty]
      rfl
    · exact absurd hempty hne
  | cons c cs =>
    have hstart : mode = .fieldStart ∨ mode = .recordStart := hmode.imp_right And.left
    rw [foldl_start (fun x hx => hf x (hcs ▸ hx)) records fields hstart, List.foldl_cons,
      step_newline records fields _ (by simp) (by simp), List.foldl_nil, List.reverse_reverse,
      ← hcs, String.ofList_toList]

/-- A record's plain fields between commas and its line feed: the record is read, after the
fields already read. -/
theorem foldl_intercalate {fs : List String} (hfs : fs ≠ []) (h : ∀ f ∈ fs, Plain f)
    (records : List (List String)) (fields : List String) {mode : Mode}
    (hmode : mode = .fieldStart ∨ (mode = .recordStart ∧ fs ≠ [""])) :
    ((",".intercalate fs).toList ++ ['\n']).foldl step ⟨records, fields, [], mode⟩ =
      ⟨(fields.reverse ++ fs) :: records, [], [], .recordStart⟩ := by
  induction fs generalizing fields mode with
  | nil => exact absurd rfl hfs
  | cons f rest ih =>
    have hf := h f List.mem_cons_self
    cases rest with
    | nil =>
      have hmode' : mode = .fieldStart ∨ (mode = .recordStart ∧ f ≠ "") :=
        hmode.imp_right fun ⟨hm, hne⟩ => ⟨hm, fun hempty => hne (by rw [hempty])⟩
      rw [String.intercalate_singleton, foldl_field_newline hf records fields hmode']
      simp
    | cons g rest =>
      have hsplit : (",".intercalate (f :: g :: rest)).toList ++ ['\n'] =
          (f.toList ++ [',']) ++ ((",".intercalate (g :: rest)).toList ++ ['\n']) := by
        simp [String.intercalate_cons_cons]
      have hstart : mode = .fieldStart ∨ mode = .recordStart := hmode.imp_right And.left
      rw [hsplit, List.foldl_append, foldl_field_comma hf records fields hstart,
        ih (by simp) (fun x hx => h x (List.mem_cons_of_mem f hx)) (f :: fields) (.inl rfl)]
      simp

/-- A written record of plain fields is read at the start of a record. -/
theorem foldl_writeRecord {fs : List String} (hfs : fs ≠ []) (h : ∀ f ∈ fs, Plain f)
    (records : List (List String)) :
    (writeRecord fs).toList.foldl step ⟨records, [], [], .recordStart⟩ =
      ⟨fs :: records, [], [], .recordStart⟩ := by
  by_cases hempty : fs = [""]
  · subst hempty
    rfl
  · have hnewline : "\n".toList = ['\n'] := by simp
    rw [writeRecord_of_plain h hempty, String.toList_append, hnewline,
      foldl_intercalate hfs h records [] (.inr ⟨rfl, hempty⟩)]
    rfl

theorem foldl_writeRecords {rs : List (List String)} (h : ∀ fs ∈ rs, fs ≠ [] ∧ ∀ f ∈ fs, Plain f)
    (records : List (List String)) :
    (rs.flatMap fun fs => (writeRecord fs).toList).foldl step ⟨records, [], [], .recordStart⟩ =
      ⟨rs.reverse ++ records, [], [], .recordStart⟩ := by
  induction rs generalizing records with
  | nil => rfl
  | cons fs rs ih =>
    obtain ⟨hne, hplain⟩ := h fs List.mem_cons_self
    rw [List.flatMap_cons, List.foldl_append, foldl_writeRecord hne hplain,
      ih fun gs hgs => h gs (List.mem_cons_of_mem fs hgs)]
    simp

end Reader

/-- Records of plain fields, each with at least one field, are read back from their written
text. -/
theorem records_join_writeRecord {rs : List (List String)}
    (h : ∀ fs ∈ rs, fs ≠ [] ∧ ∀ f ∈ fs, Plain f) :
    records (String.join (rs.map writeRecord)) = rs := by
  unfold records
  rw [String.toList_join, List.flatMap_map, Reader.foldl_writeRecords h []]
  simp [Reader.finish]

example : records (String.join ([["1", ""], [""], ["", "", ""]].map writeRecord)) =
    [["1", ""], [""], ["", "", ""]] := by
  decide

end SparseMatrix.Csv
