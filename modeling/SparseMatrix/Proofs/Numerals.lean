import SparseMatrix.Key

/-!
# Decimal numerals and key texts

An index is written as a decimal numeral: an optional `+`, then one or more ASCII digits
(`Text.Numeral`). `Text.readNat?` reads exactly the numerals of values up to its bound,
to their value (`Text.readNat?_eq_some_iff`), and the digits of a machine word read back as
the word (`Text.readSize?_toDigits`).

A key is written `row,column`. A text spells a key (`Key.Spells`) when it splits at its
first comma into two sides that, trimmed of blanks, are numerals of the row and of the
column, neither of them the largest word. `Key.parse` reads exactly the texts that spell a
key, to that key (`Key.parse_eq_ok_iff`), and refuses every other text with `invalidKey`
naming it (`Key.parse_error`, `Key.parse_eq_error_iff`). The text of a key spells it when
neither index is the largest word (`Key.parse_text`), as its digits hold no comma, no blank
and no sign.
-/

namespace SparseMatrix

/-! ## Splitting at the first occurrence -/

namespace Text

variable {α : Type}

/-- A list holding `c` splits at its first `c`. -/
theorem exists_split_of_mem {l : List α} {c : α} (h : c ∈ l) :
    ∃ a b, l = a ++ c :: b ∧ c ∉ a := by
  induction l with
  | nil => cases h
  | cons x l ih =>
    by_cases hx : x = c
    · exact ⟨[], l, by rw [hx]; rfl, List.not_mem_nil⟩
    · obtain ⟨a, b, rfl, ha⟩ := ih ((List.mem_cons.mp h).resolve_left (Ne.symm hx))
      refine ⟨x :: a, b, rfl, fun hmem => ?_⟩
      rcases List.mem_cons.mp hmem with hxc | hca
      · exact hx hxc.symm
      · exact ha hca

/-- The first occurrence of `c` follows the part before it when that part has none. -/
theorem idxOf?_append_cons [BEq α] [LawfulBEq α] {a : List α} {c : α} (ha : c ∉ a) (b : List α) :
    (a ++ c :: b).idxOf? c = some a.length := by
  induction a with
  | nil => simp [List.idxOf?_cons]
  | cons x a ih =>
    have hx : (x == c) = false := beq_eq_false_iff_ne.mpr fun h => ha (h ▸ List.mem_cons_self)
    rw [List.cons_append, List.idxOf?_cons, hx, ih fun h => ha (List.mem_cons_of_mem x h)]
    rfl

end Text

/-! ## Numerals -/

namespace Text

/-- `cs` is a decimal numeral of `n`, no larger than `max`: an optional `+`, then one or more
ASCII digits whose decimal value is `n`. -/
def Numeral (max : Nat) (cs : List Char) (n : Nat) : Prop :=
  ∃ ds, (cs = ds ∨ cs = '+' :: ds) ∧ ds ≠ [] ∧ (∀ c ∈ ds, c.isDigit = true) ∧
    Nat.ofDigitChars 10 ds 0 = n ∧ n ≤ max

/-- Reading digits one by one succeeds exactly on digits, with their decimal value. -/
theorem foldlM_digits_eq_some_iff (cs : List Char) (acc n : Nat) :
    cs.foldlM (fun acc c => if c.isDigit then some (acc * 10 + (c.toNat - '0'.toNat)) else none)
      acc = some n ↔ (∀ c ∈ cs, c.isDigit = true) ∧ Nat.ofDigitChars 10 cs acc = n := by
  induction cs generalizing acc with
  | nil => simp [Nat.ofDigitChars]
  | cons c cs ih =>
    rw [List.foldlM_cons, Nat.ofDigitChars_cons, Nat.mul_comm 10 acc]
    by_cases hc : c.isDigit = true
    · rw [if_pos hc]
      simp only [Option.bind_eq_bind, Option.bind_some, ih, List.mem_cons,
        forall_eq_or_imp, hc, true_and]
    · rw [if_neg hc]
      simp [hc]

theorem foldlM_digits (cs : List Char) (h : ∀ c ∈ cs, c.isDigit = true) (acc : Nat) :
    cs.foldlM (fun acc c => if c.isDigit then some (acc * 10 + (c.toNat - '0'.toNat)) else none)
      acc = some (Nat.ofDigitChars 10 cs acc) :=
  (foldlM_digits_eq_some_iff cs acc _).mpr ⟨h, rfl⟩

/-- The value of a digit list is read exactly from a nonempty list of digits. -/
theorem digitsValue?_eq_some_iff {cs : List Char} {n : Nat} :
    digitsValue? cs = some n ↔
      cs ≠ [] ∧ (∀ c ∈ cs, c.isDigit = true) ∧ Nat.ofDigitChars 10 cs 0 = n := by
  unfold digitsValue?
  cases cs with
  | nil => simp
  | cons c cs =>
    rw [if_neg (by simp), foldlM_digits_eq_some_iff]
    simp

/-- `readNat?` reads exactly the numerals of values up to its bound. -/
theorem readNat?_eq_some_iff {max n : Nat} {cs : List Char} :
    readNat? max cs = some n ↔ Numeral max cs n := by
  have hvalue : ∀ ds, ((digitsValue? ds).bind fun n => if n ≤ max then some n else none) = some n ↔
      ds ≠ [] ∧ (∀ c ∈ ds, c.isDigit = true) ∧ Nat.ofDigitChars 10 ds 0 = n ∧ n ≤ max := by
    intro ds
    rw [Option.bind_eq_some_iff]
    constructor
    · rintro ⟨v, hv, hle⟩
      split at hle
      · cases hle
        obtain ⟨hne, hdig, hval⟩ := digitsValue?_eq_some_iff.mp hv
        exact ⟨hne, hdig, hval, ‹_›⟩
      · cases hle
    · rintro ⟨hne, hdig, hval, hle⟩
      exact ⟨n, digitsValue?_eq_some_iff.mpr ⟨hne, hdig, hval⟩, if_pos hle⟩
  -- a sign is no digit, so the digits are what follows a leading `+`
  have hplus : ∀ ds : List Char, (∀ c ∈ ds, c.isDigit = true) → ds.head? ≠ some '+' := by
    intro ds hds hhead
    have hmem : '+' ∈ ds := List.mem_of_mem_head? hhead
    exact absurd (hds '+' hmem) (by decide)
  unfold readNat? Numeral
  split
  · rename_i rest
    rw [hvalue]
    constructor
    · exact fun h => ⟨rest, .inr rfl, h⟩
    · rintro ⟨ds, hds | hds, h⟩
      · exact absurd (by rw [← hds]; rfl) (hplus ds h.2.1)
      · exact (List.cons.inj hds).2 ▸ h
  · rename_i hsign
    rw [hvalue]
    constructor
    · exact fun h => ⟨cs, .inl rfl, h⟩
    · rintro ⟨ds, rfl | hds, h⟩
      · exact h
      · exact absurd hds (hsign ds)

/-- `readSize?` reads exactly the numerals of machine words. -/
theorem readSize?_eq_some_iff {n : Nat} {cs : List Char} :
    readSize? cs = some n ↔ Numeral wordMax cs n :=
  readNat?_eq_some_iff

theorem isBlank_of_isDigit {c : Char} (h : c.isDigit = true) : isBlank c = false := by
  have hd := Char.isDigit_iff_toNat.mp h
  simp only [Char.reduceToNat] at hd
  simp only [isBlank, Bool.or_eq_false_iff, Bool.and_eq_false_iff, decide_eq_false_iff_not,
    beq_eq_false_iff_ne, ne_eq]
  omega

theorem dropWhile_isBlank_of_forall {cs : List Char} (h : ∀ c ∈ cs, isBlank c = false) :
    cs.dropWhile isBlank = cs := by
  cases cs with
  | nil => rfl
  | cons c cs => exact List.dropWhile_cons_of_neg (by simp [h c List.mem_cons_self])

/-- Characters none of which is blank are kept by trimming. -/
theorem trimChars_of_forall {cs : List Char} (h : ∀ c ∈ cs, isBlank c = false) :
    trimChars cs = cs := by
  unfold trimChars
  rw [dropWhile_isBlank_of_forall h,
    dropWhile_isBlank_of_forall fun c hc => h c (List.mem_reverse.mp hc), List.reverse_reverse]

theorem trimChars_digits {cs : List Char} (h : ∀ c ∈ cs, c.isDigit = true) : trimChars cs = cs :=
  trimChars_of_forall fun c hc => isBlank_of_isDigit (h c hc)

/-- The decimal digits of a word read back as the word. -/
theorem readSize?_toDigits {n : Nat} (h : n ≤ wordMax) : readSize? (Nat.toDigits 10 n) = some n :=
  readSize?_eq_some_iff.mpr ⟨_, .inl rfl, Nat.toDigits_ne_nil,
    fun _ hc => Nat.isDigit_of_mem_toDigits (by decide) (by decide) hc, Nat.ofDigitChars_ten_toDigits, h⟩

end Text

/-! ## Key texts -/

namespace Key

/-- `s` spells the key `k`: it splits at its first comma into two sides that, trimmed of
blanks, are numerals of `k.row` and `k.col`, neither of them the largest word. -/
def Spells (s : String) (k : Key) : Prop :=
  ∃ a b, s.toList = a ++ ',' :: b ∧ ',' ∉ a ∧
    Text.Numeral Text.wordMax (Text.trimChars a) k.row ∧
    Text.Numeral Text.wordMax (Text.trimChars b) k.col ∧
    k.row ≠ Text.wordMax ∧ k.col ≠ Text.wordMax

/-- A text without a comma is refused. -/
theorem parse_of_not_mem {s : String} (h : ',' ∉ s.toList) : parse s = .error (.invalidKey s) := by
  unfold parse
  dsimp only
  rw [List.idxOf?_eq_none_iff.mpr h]

/-- Split at its first comma, a text is read from its two trimmed sides. -/
theorem parse_eq_ok_iff_sides {s : String} {a b : List Char} (hs : s.toList = a ++ ',' :: b)
    (ha : ',' ∉ a) {k : Key} :
    parse s = .ok k ↔ Text.readSize? (Text.trimChars a) = some k.row ∧
      Text.readSize? (Text.trimChars b) = some k.col ∧
      k.row ≠ Text.wordMax ∧ k.col ≠ Text.wordMax := by
  have hdrop : (a ++ ',' :: b).drop (a.length + 1) = b := by simp [List.drop_append]
  unfold parse
  dsimp only
  rw [hs, Text.idxOf?_append_cons ha]
  dsimp only
  rw [List.take_left' rfl, hdrop]
  obtain ⟨r, c⟩ := k
  cases hr : Text.readSize? (Text.trimChars a) <;> cases hc : Text.readSize? (Text.trimChars b)
  all_goals simp only [reduceCtorEq, false_and, and_false]
  rename_i r' c'
  by_cases hmax : r' = Text.wordMax ∨ c' = Text.wordMax
  · rw [if_pos hmax]
    simp only [reduceCtorEq, Option.some.injEq, false_iff, not_and, ne_eq]
    omega
  · rw [if_neg hmax]
    simp only [pure, Except.pure, Except.ok.injEq, Key.mk.injEq, Option.some.injEq, ne_eq]
    omega

/-- `parse` reads exactly the texts that spell a key, to that key. -/
theorem parse_eq_ok_iff {s : String} {k : Key} : parse s = .ok k ↔ Spells s k := by
  constructor
  · intro h
    by_cases hc : ',' ∈ s.toList
    · obtain ⟨a, b, hs, ha⟩ := Text.exists_split_of_mem hc
      obtain ⟨hr, hc, hr', hc'⟩ := (parse_eq_ok_iff_sides hs ha).mp h
      exact ⟨a, b, hs, ha, Text.readSize?_eq_some_iff.mp hr, Text.readSize?_eq_some_iff.mp hc,
        hr', hc'⟩
    · rw [parse_of_not_mem hc] at h
      cases h
  · rintro ⟨a, b, hs, ha, hr, hc, hr', hc'⟩
    exact (parse_eq_ok_iff_sides hs ha).mpr
      ⟨Text.readSize?_eq_some_iff.mpr hr, Text.readSize?_eq_some_iff.mpr hc, hr', hc'⟩

/-- Every refusal of `parse` is `invalidKey`, naming the text. -/
theorem parse_error {s : String} {e : Error} (h : parse s = .error e) : e = .invalidKey s := by
  unfold parse at h
  dsimp only at h
  split at h
  · exact (Except.error.inj h).symm
  · split at h
    · split at h
      · exact (Except.error.inj h).symm
      · cases h
    · exact (Except.error.inj h).symm

/-- `parse` refuses exactly the texts that spell no key. -/
theorem parse_eq_error_iff {s : String} :
    parse s = .error (.invalidKey s) ↔ ¬∃ k, Spells s k := by
  constructor
  · rintro h ⟨k, hk⟩
    rw [parse_eq_ok_iff.mpr hk] at h
    cases h
  · intro hno
    cases hp : parse s with
    | error e => rw [parse_error hp]
    | ok k => exact absurd ⟨k, parse_eq_ok_iff.mp hp⟩ hno

/-- A key's text reads back as the key, except that the largest word is refused on either
axis. -/
theorem parse_text_eq {k : Key} (hr : k.row ≤ Text.wordMax) (hc : k.col ≤ Text.wordMax) :
    parse k.text = if k.row = Text.wordMax ∨ k.col = Text.wordMax then
      .error (.invalidKey k.text) else .ok k := by
  have hdig : ∀ n, ∀ c ∈ Nat.toDigits 10 n, c.isDigit = true :=
    fun n c hc => Nat.isDigit_of_mem_toDigits (by decide) (by decide) hc
  have htext : k.text.toList = Nat.toDigits 10 k.row ++ ',' :: Nat.toDigits 10 k.col := by
    simp [Key.text, Nat.toString_eq_repr, Nat.toList_repr]
  have hcomma : ',' ∉ Nat.toDigits 10 k.row := fun h => absurd (hdig _ ',' h) (by decide)
  have hdrop : List.drop ((Nat.toDigits 10 k.row).length + 1)
      (Nat.toDigits 10 k.row ++ ',' :: Nat.toDigits 10 k.col) = Nat.toDigits 10 k.col := by
    simp [List.drop_append]
  unfold parse
  simp only [htext, Text.idxOf?_append_cons hcomma, List.take_left', hdrop,
    Text.trimChars_digits (hdig _), Text.readSize?_toDigits hr, Text.readSize?_toDigits hc]
  rfl

/-- A key's text reads back as the key when neither index is the largest word. -/
theorem parse_text {k : Key} (hr : k.row < Text.wordMax) (hc : k.col < Text.wordMax) :
    parse k.text = .ok k := by
  rw [parse_text_eq (Nat.le_of_lt hr) (Nat.le_of_lt hc), if_neg (by omega)]

/-- **What `parse` reads.** A text is read as a key exactly when it spells the key, and it is
refused with `invalidKey` naming it exactly when it spells none; the text of a key below the
largest word on both axes reads back as the key. -/
theorem parse_reads_spellings :
    (∀ s k, parse s = .ok k ↔ Spells s k) ∧
    (∀ s, parse s = .error (.invalidKey s) ↔ ¬∃ k, Spells s k) ∧
    ∀ k : Key, k.row < Text.wordMax → k.col < Text.wordMax → parse k.text = .ok k :=
  ⟨fun _ _ => parse_eq_ok_iff, fun _ => parse_eq_error_iff, fun _ => parse_text⟩

/-- A signed side with blanks around it spells its index, a second comma spells no key, and
the text of `(5, 6)` reads back. -/
theorem parse_reads_spellings_signed :
    Spells " +3 , 4" ⟨3, 4⟩ ∧ (¬∃ k, Spells "1,2,3" k) ∧ parse (⟨5, 6⟩ : Key).text = .ok ⟨5, 6⟩ :=
  ⟨(parse_reads_spellings.1 _ _).mp rfl, (parse_reads_spellings.2.1 _).mp rfl,
    parse_reads_spellings.2.2 _ (by decide) (by decide)⟩

end Key

end SparseMatrix
