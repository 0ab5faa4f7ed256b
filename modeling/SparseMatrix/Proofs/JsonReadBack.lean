import SparseMatrix.Json.Read
import Mathlib.Data.List.TakeWhile

/-!
# Reading written JSON back

The reader reads back every value the writer writes, as long as the value is one the
reader keeps as it is (`Readable`): integers of 64 bits, numbers whose own text reads back
as themselves, any string, and arrays and objects of those.

* A number ends where the text cannot go on as a number: before a comma, a closing
  bracket or the end (`Stop`). Reading a number followed by such a text is reading the
  number alone, with the text left over (`readNumber_append`); the digits of an integer
  read back as the integer (`readNumber_toDigits`).
* An escaped string, after its opening quote, reads back one escape at a time
  (`readString_escapeChar`, `readString_quote`).
* A value reads back from its text followed by anything that ends it, given fuel for
  twice its text and room for its nesting (`Readable.readsBack`); the items of an array
  and the fields of an object are read one after another (`readItems_render`,
  `readFields_render`).
* Hence a whole document parses back (`parse_render`), and a record object whose names
  are all known reads back as its fields (`readRecord_render`).
-/

namespace SparseMatrix.Json

/-! ## Where a value may end -/

/-- The text after a value when the value ends there: nothing, or a comma or a closing
bracket first. -/
def Stop (rest : List Char) : Prop :=
  ∀ c ∈ rest.head?, c = ',' ∨ c = ']' ∨ c = '}'

theorem stop_nil : Stop [] := by
  intro c hc
  cases hc

theorem stop_cons {c : Char} (r : List Char) (h : c = ',' ∨ c = ']' ∨ c = '}') :
    Stop (c :: r) := by
  intro c' hc'
  cases hc'
  exact h

variable {rest : List Char}

/-- A text that ends a value starts with none of the characters a number can go on with. -/
theorem Stop.head_ne (hr : Stop rest) :
    ∀ c ∈ rest.head?, c.isDigit = false ∧ c ≠ '.' ∧ c ≠ 'e' ∧ c ≠ 'E' ∧ c ≠ '-' ∧ c ≠ '+' := by
  intro c hc
  rcases hr c hc with rfl | rfl | rfl <;> decide

theorem Stop.takeWhile_digit (hr : Stop rest) : rest.takeWhile Char.isDigit = [] := by
  cases rest with
  | nil => rfl
  | cons c r => exact List.takeWhile_cons_of_neg (by simp [(hr.head_ne c rfl).1])

theorem Stop.dropWhile_digit (hr : Stop rest) : rest.dropWhile Char.isDigit = rest := by
  cases rest with
  | nil => rfl
  | cons c r => exact List.dropWhile_cons_of_neg (by simp [(hr.head_ne c rfl).1])

theorem takeWhile_digit_append (cs : List Char) (hr : Stop rest) :
    (cs ++ rest).takeWhile Char.isDigit = cs.takeWhile Char.isDigit := by
  rw [List.takeWhile_append]
  split
  · rename_i h
    rw [hr.takeWhile_digit, List.append_nil]
    exact ((List.takeWhile_prefix _).eq_of_length h).symm
  · rfl

theorem dropWhile_digit_append (cs : List Char) (hr : Stop rest) :
    (cs ++ rest).dropWhile Char.isDigit = cs.dropWhile Char.isDigit ++ rest := by
  rw [List.dropWhile_append]
  split
  · rename_i h
    rw [hr.dropWhile_digit, List.isEmpty_iff.mp h, List.nil_append]
  · rfl

/-! ## Numbers followed by the rest of a document -/

theorem readSign_append (cs : List Char) (hr : Stop rest) :
    readSign (cs ++ rest) = ((readSign cs).1, (readSign cs).2 ++ rest) := by
  cases cs with
  | nil =>
    cases rest with
    | nil => rfl
    | cons c r =>
      have hc : c ≠ '-' := (hr.head_ne c rfl).2.2.2.2.1
      simp [readSign, hc]
  | cons c r =>
    by_cases hc : c = '-'
    · subst hc
      rfl
    · simp [readSign, hc]

theorem readExponentSign_append (cs : List Char) (hr : Stop rest) :
    readExponentSign (cs ++ rest) =
      ((readExponentSign cs).1, (readExponentSign cs).2 ++ rest) := by
  cases cs with
  | nil =>
    cases rest with
    | nil => rfl
    | cons c r =>
      obtain ⟨-, -, -, -, hm, hp⟩ := hr.head_ne c rfl
      simp [readExponentSign, hm, hp]
  | cons c r =>
    by_cases hm : c = '-'
    · subst hm
      rfl
    · by_cases hp : c = '+'
      · subst hp
        rfl
      · simp [readExponentSign, hm, hp]

theorem readFraction_append (sig dropped : Nat) (cs : List Char) (hr : Stop rest) :
    readFraction sig dropped (cs ++ rest) =
      (fun q => (q.1, q.2.1, q.2.2.1, q.2.2.2 ++ rest)) <$> readFraction sig dropped cs := by
  cases cs with
  | nil =>
    cases rest with
    | nil => rfl
    | cons c r =>
      have hc : c ≠ '.' := (hr.head_ne c rfl).2.1
      simp [readFraction, hc]
  | cons c r =>
    by_cases hc : c = '.'
    · subst hc
      simp only [readFraction, List.cons_append, takeWhile_digit_append r hr,
        dropWhile_digit_append r hr]
      split <;> rfl
    · simp [readFraction, hc]

theorem readExponent_append (negative : Bool) (sig : Nat) (exponent : Int) (isFloat : Bool)
    (cs : List Char) (hr : Stop rest) :
    readExponent negative sig exponent isFloat (cs ++ rest) =
      (fun p => (p.1, p.2 ++ rest)) <$> readExponent negative sig exponent isFloat cs := by
  cases cs with
  | nil =>
    cases rest with
    | nil =>
      simp only [readExponent, List.nil_append, Functor.map_map]
    | cons c r =>
      obtain ⟨-, -, he, hE, -, -⟩ := hr.head_ne c rfl
      simp only [readExponent, List.nil_append, he, hE, or_self, if_false, Functor.map_map]
  | cons c r =>
    simp only [readExponent, List.cons_append]
    split
    · rw [readExponentSign_append r hr, takeWhile_digit_append _ hr, dropWhile_digit_append _ hr,
        Functor.map_map]
    · rw [Functor.map_map]
      rfl

/-- A number followed by a text that ends it is read as the number alone, with the text
left over. -/
theorem readNumber_append (cs : List Char) (hr : Stop rest) :
    readNumber (cs ++ rest) = (fun p => (p.1, p.2 ++ rest)) <$> readNumber cs := by
  unfold readNumber
  rw [readSign_append cs hr]
  simp only [takeWhile_digit_append _ hr, dropWhile_digit_append _ hr]
  split
  · rfl
  split
  · rfl
  rw [readFraction_append _ _ _ hr]
  cases readFraction _ _ _ with
  | error e => rfl
  | ok q => exact readExponent_append _ _ _ _ _ hr

/-! ## Integers -/

/-- Taking in digits whose value stays a machine word takes them all. -/
theorem accumulate_eq (sig : Nat) (cs : List Char) (hd : ∀ c ∈ cs, c.isDigit = true)
    (h : Nat.ofDigitChars 10 cs sig ≤ Text.wordMax) :
    accumulate sig cs = (Nat.ofDigitChars 10 cs sig, cs.length) := by
  induction cs generalizing sig with
  | nil => rfl
  | cons c cs ih =>
    rw [Nat.ofDigitChars_cons] at h ⊢
    have hnext : 10 * sig + (c.toNat - '0'.toNat) ≤ Text.wordMax := by
      have hle : Nat.ofDigitChars 10 cs (10 * sig + (c.toNat - '0'.toNat)) =
          10 ^ cs.length * (10 * sig + (c.toNat - '0'.toNat)) + Nat.ofDigitChars 10 cs 0 :=
        Nat.ofDigitChars_eq_ofDigitChars_zero
      have hpow : 1 ≤ 10 ^ cs.length := Nat.one_le_pow _ _ (by decide)
      have : 10 * sig + (c.toNat - '0'.toNat) ≤
          10 ^ cs.length * (10 * sig + (c.toNat - '0'.toNat)) := Nat.le_mul_of_pos_left _ hpow
      omega
    have hnext' : ¬(sig * 10 + (c.toNat - 48) > Text.wordMax) := by
      rw [Nat.mul_comm]
      exact Nat.not_lt.mpr hnext
    have hstep : sig * 10 + (c.toNat - 48) = 10 * sig + (c.toNat - '0'.toNat) := by
      rw [Nat.mul_comm]
      rfl
    simp only [accumulate, hnext', if_false]
    rw [hstep, ih _ (fun c' hc' => hd c' (List.mem_cons_of_mem c hc')) h, List.length_cons]

/-- The decimal digits of a positive number do not start with a zero. -/
theorem toDigits_head_ne_zero {n : Nat} (hn : 0 < n) : (Nat.toDigits 10 n).head? ≠ some '0' := by
  induction n using Nat.strongRecOn with
  | ind n ih =>
    by_cases h10 : n < 10
    · rw [Nat.toDigits_of_lt_base h10]
      simp only [List.head?_cons, ne_eq, Option.some.injEq, Nat.digitChar_eq_zero]
      omega
    · rw [Nat.toDigits_of_base_le (by decide) (by omega), List.head?_append]
      have hne := Nat.toDigits_ne_nil (n := n / 10) (b := 10)
      obtain ⟨d, ds, hds⟩ := List.exists_cons_of_ne_nil hne
      have hih := ih (n / 10) (by omega) (by omega)
      rw [hds] at hih ⊢
      simpa using hih

/-- A number's decimal digits, after an optional minus sign, are read as the integer. -/
theorem readNumber_toDigits {n : Nat} (hn : n ≤ Text.wordMax) (negative : Bool) :
    readNumber ((if negative then ['-'] else []) ++ Nat.toDigits 10 n) =
      (·, []) <$> integerNumber negative n := by
  have hdig : ∀ c ∈ Nat.toDigits 10 n, c.isDigit = true :=
    fun c hc => Nat.isDigit_of_mem_toDigits (by decide) (by decide) hc
  obtain ⟨d, ds, hds⟩ := List.exists_cons_of_ne_nil (Nat.toDigits_ne_nil (n := n) (b := 10))
  have hsign : readSign ((if negative then ['-'] else []) ++ Nat.toDigits 10 n) =
      (negative, Nat.toDigits 10 n) := by
    have hd : d ≠ '-' := by
      rintro rfl
      have := hdig '-' (by rw [hds]; exact List.mem_cons_self ..)
      revert this
      decide
    cases negative
    · rw [hds]
      simp [readSign, hd]
    · rfl
  have hlead : ¬((Nat.toDigits 10 n).length > 1 ∧ (Nat.toDigits 10 n).head? = some '0') := by
    rintro ⟨hlen, hhead⟩
    have h10 : 10 ≤ n := Nat.le_of_not_lt fun hlt => by
      rw [Nat.toDigits_of_lt_base hlt] at hlen
      simp at hlen
    exact toDigits_head_ne_zero (by omega) hhead
  have htake : (Nat.toDigits 10 n).takeWhile Char.isDigit = Nat.toDigits 10 n :=
    List.takeWhile_eq_self_iff.mpr hdig
  have hdrop : (Nat.toDigits 10 n).dropWhile Char.isDigit = [] := List.dropWhile_eq_nil_iff.mpr hdig
  have hacc : accumulate 0 (Nat.toDigits 10 n) = (n, (Nat.toDigits 10 n).length) := by
    rw [accumulate_eq 0 _ hdig (by rw [Nat.ofDigitChars_ten_toDigits]; exact hn),
      Nat.ofDigitChars_ten_toDigits]
  have hne : (Nat.toDigits 10 n).isEmpty = false := by
    rw [hds]
    rfl
  unfold readNumber
  rw [hsign]
  simp only [htake, hdrop, hacc, hne, Nat.sub_self, Bool.false_eq_true, if_false, hlead]
  rfl

/-- The decimal text of a natural number is its digits. -/
theorem toList_toString (n : Nat) : (toString n).toList = Nat.toDigits 10 n := by
  rw [Nat.toString_eq_repr, Nat.toList_repr]

theorem readNumber_nat {n : Nat} (hn : n ≤ Text.wordMax) (hr : Stop rest) :
    readNumber ((Number.render (.nat n)).toList ++ rest) = .ok (.nat n, rest) := by
  have h := readNumber_toDigits hn false
  rw [if_neg Bool.false_ne_true, List.nil_append] at h
  rw [Number.render, toList_toString, readNumber_append _ hr, h]
  rfl

theorem readNumber_negative {n : Nat} (h0 : 0 < n) (hn : n ≤ Nat.pow 2 63) (hr : Stop rest) :
    readNumber ((Number.render (.negative n)).toList ++ rest) = .ok (.negative n, rest) := by
  have h := readNumber_toDigits (n := n) (Nat.le_trans hn (by decide)) true
  have hint : integerNumber true n = pure (.negative n) := by
    rw [integerNumber, if_neg (by decide), if_neg (by omega)]
  rw [if_pos rfl, hint] at h
  rw [Number.render, String.toList_append, toList_toString, readNumber_append _ hr]
  rw [show ("-" : String).toList = ['-'] from rfl, h]
  rfl

/-- A number read in full starts with a minus sign or a digit. -/
theorem readNumber_head {cs : List Char} {x : Number × List Char} (h : readNumber cs = .ok x) :
    ∃ c r, cs = c :: r ∧ (c = '-' ∨ c.isDigit = true) := by
  cases cs with
  | nil =>
    unfold readNumber at h
    cases h
  | cons c r =>
    refine ⟨c, r, rfl, ?_⟩
    by_cases hm : c = '-'
    · exact .inl hm
    · refine .inr (Bool.not_eq_false _ |>.mp fun hd => ?_)
      have hsign : readSign (c :: r) = (false, c :: r) := by simp [readSign, hm]
      have htake : (c :: r).takeWhile Char.isDigit = [] := List.takeWhile_cons_of_neg (by simp [hd])
      unfold readNumber at h
      rw [hsign] at h
      simp only [htake] at h
      cases h

/-! ## Strings -/

theorem hexValue_hexDigit : ∀ n < 16, hexValue? (hexDigit n) = some n := by
  decide

/-- The four digits of a `\u00xx` escape are read as the code of the character. -/
theorem readHex4_escape (c : Char) (h : c.toNat < 0x20) (cs : List Char) :
    readHex4 ('0' :: '0' :: hexDigit (c.toNat / 16) :: hexDigit (c.toNat % 16) :: cs) =
      .ok (c.toNat, cs) := by
  have hhi := hexValue_hexDigit (c.toNat / 16) (by omega)
  have hlo := hexValue_hexDigit (c.toNat % 16) (by omega)
  have hzero : hexValue? '0' = some 0 := by decide
  simp only [readHex4, hzero, hhi, hlo]
  congr 2
  omega

/-- A character that needs no escape is read as itself. -/
theorem readString_plain {c : Char} (hq : c ≠ '"') (hb : c ≠ '\\') (hlt : ¬c.toNat < 0x20)
    (fuel : Nat) (acc cs : List Char) :
    readString (fuel + 1) acc (c :: cs) = readString fuel (c :: acc) cs := by
  rw [readString]
  split
  · simp_all
  · simp_all
  · simp_all
  · simp_all
  · simp_all

/-- One escaped character is read as the character. -/
theorem readString_escapeChar (c : Char) (fuel : Nat) (acc cs : List Char) :
    readString (fuel + 1) acc (escapeChar c ++ cs) = readString fuel (c :: acc) cs := by
  unfold escapeChar
  split
  · subst_vars
    rfl
  split
  · subst_vars
    rfl
  split
  · subst_vars
    rfl
  split
  · subst_vars
    rfl
  split
  · subst_vars
    rfl
  split
  · rename_i h
    rw [← Char.ofNat_toNat c, h]
    rfl
  split
  · rename_i h
    rw [← Char.ofNat_toNat c, h]
    rfl
  split
  · rename_i h
    have hu : readUnicodeEscape ('0' :: '0' :: hexDigit (c.toNat / 16) ::
        hexDigit (c.toNat % 16) :: cs) = .ok (c, cs) := by
      rw [readUnicodeEscape, readHex4_escape c h]
      simp only [Bind.bind, Except.bind, if_neg (show ¬(0xD800 ≤ c.toNat ∧ c.toNat < 0xDC00) by omega),
        if_neg (show ¬(0xDC00 ≤ c.toNat ∧ c.toNat < 0xE000) by omega), Char.ofNat_toNat]
      rfl
    simp only [List.cons_append, List.nil_append, readString, hu]
    rfl
  · rename_i hq hb _ _ _ _ _ hlt
    exact readString_plain hq hb hlt fuel acc cs

/-- An escaped text followed by the closing quote is read as the text. -/
theorem readString_escaped (s acc : List Char) (fuel : Nat) (hfuel : s.length < fuel) :
    readString fuel acc (s.flatMap escapeChar ++ '"' :: rest) =
      .ok (String.ofList (acc.reverse ++ s), rest) := by
  induction s generalizing acc fuel with
  | nil =>
    obtain ⟨f, rfl⟩ : ∃ f, fuel = f + 1 := ⟨fuel - 1, by simp at hfuel; omega⟩
    simp only [List.flatMap_nil, List.nil_append, readString, List.append_nil]
    rfl
  | cons c s ih =>
    obtain ⟨f, rfl⟩ : ∃ f, fuel = f + 1 := ⟨fuel - 1, by simp at hfuel; omega⟩
    rw [List.flatMap_cons, List.append_assoc, readString_escapeChar,
      ih _ _ (by simp at hfuel; omega)]
    simp

theorem toList_quote (s : String) :
    (quote s).toList = '"' :: (s.toList.flatMap escapeChar ++ ['"']) := by
  simp [quote]

theorem length_flatMap_escapeChar (s : List Char) : s.length ≤ (s.flatMap escapeChar).length := by
  induction s with
  | nil => simp
  | cons c s ih =>
    have hc : 1 ≤ (escapeChar c).length := by
      unfold escapeChar
      split_ifs <;> simp
    simp only [List.flatMap_cons, List.length_append, List.length_cons]
    omega

/-- A quoted string, after its opening quote, is read back as the string. -/
theorem readString_quote (s : String) (rest : List Char) :
    readString (s.toList.flatMap escapeChar ++ '"' :: rest).length []
      (s.toList.flatMap escapeChar ++ '"' :: rest) = .ok (s, rest) := by
  have hlen := length_flatMap_escapeChar s.toList
  rw [readString_escaped _ _ _ (by rw [List.length_append, List.length_cons]; omega)]
  simp

/-! ## Values -/

/-- The values the reader keeps as they are written: numbers whose text reads back as the
same number, any string, and arrays and objects of such values. -/
inductive Readable : Value → Prop
  | null : Readable .null
  | bool (b : Bool) : Readable (.bool b)
  | number {n : Number} (h : readNumber n.render.toList = .ok (n, [])) : Readable (.number n)
  | string (s : String) : Readable (.string s)
  | array {items : List Value} (h : ∀ v ∈ items, Readable v) : Readable (.array items)
  | object {fields : List (String × Value)} (h : ∀ f ∈ fields, Readable f.2) :
    Readable (.object fields)

mutual

/-- How deep arrays and objects nest in a value. -/
def Value.nesting : Value → Nat
  | .array items => itemsNesting items + 1
  | .object fields => fieldsNesting fields + 1
  | _ => 0

/-- The deepest nesting among the items of an array. -/
def itemsNesting : List Value → Nat
  | [] => 0
  | v :: rest => max v.nesting (itemsNesting rest)

/-- The deepest nesting among the values of an object. -/
def fieldsNesting : List (String × Value) → Nat
  | [] => 0
  | (_, v) :: rest => max v.nesting (fieldsNesting rest)

end

theorem fieldsNesting_le {fields : List (String × Value)} {n : Nat}
    (h : ∀ f ∈ fields, f.2.nesting ≤ n) : fieldsNesting fields ≤ n := by
  induction fields with
  | nil => exact Nat.zero_le n
  | cons f fields ih =>
    obtain ⟨k, v⟩ := f
    rw [fieldsNesting]
    exact Nat.max_le.mpr ⟨h (k, v) List.mem_cons_self, ih fun f hf => h f (List.mem_cons_of_mem _ hf)⟩

/-- The reader reads `v` back from its text followed by anything that ends a value, given
fuel for twice the text and room for the value's nesting. -/
def ReadsBack (v : Value) : Prop :=
  ∀ fuel depth rest, 2 * v.render.length ≤ fuel → depth + v.nesting ≤ depthLimit → Stop rest →
    readValue fuel depth (v.render.toList ++ rest) = .ok (v, rest)

theorem readable_nat {n : Nat} (h : n ≤ Text.wordMax) : Readable (.number (.nat n)) :=
  .number (by simpa using readNumber_nat h stop_nil)

theorem readable_negative {n : Nat} (h0 : 0 < n) (h : n ≤ Nat.pow 2 63) :
    Readable (.number (.negative n)) :=
  .number (by simpa using readNumber_negative h0 h stop_nil)

theorem isSpace_eq_false {c : Char} (h : c = '-' ∨ c.isDigit = true) : isSpace c = false := by
  rcases h with rfl | hd
  · decide
  · cases hs : isSpace c
    · rfl
    · simp only [isSpace, Bool.or_eq_true, beq_iff_eq] at hs
      rcases hs with ((rfl | rfl) | rfl) | rfl <;> revert hd <;> decide

/-- A readable value's text starts with a character that begins a value: no blank and no
closing bracket. -/
theorem Readable.render_head {v : Value} (h : Readable v) :
    ∃ c r, v.render.toList = c :: r ∧ isSpace c = false ∧ c ≠ ']' ∧ c ≠ '\x7d' := by
  cases h with
  | null => exact ⟨'n', _, rfl, by decide, by decide, by decide⟩
  | bool b => cases b <;> exact ⟨_, _, rfl, by decide, by decide, by decide⟩
  | number h =>
    obtain ⟨c, r, hcr, hc⟩ := readNumber_head h
    refine ⟨c, r, hcr, isSpace_eq_false hc, ?_, ?_⟩ <;> rintro rfl <;> revert hc <;> decide
  | string s => exact ⟨'"', _, toList_quote s, by decide, by decide, by decide⟩
  | @array items _ =>
    exact ⟨'[', (renderItems items).toList ++ [']'], by simp [Value.render], by decide, by decide,
      by decide⟩
  | @object fields _ =>
    exact ⟨'\x7b', (renderFields fields).toList ++ ['\x7d'], by simp [Value.render], by decide,
      by decide, by decide⟩

theorem skipSpace_cons {c : Char} (h : isSpace c = false) (cs : List Char) :
    skipSpace (c :: cs) = c :: cs :=
  List.dropWhile_cons_of_neg (by simp [h])

theorem Readable.skipSpace_render {v : Value} (h : Readable v) (cs : List Char) :
    skipSpace (v.render.toList ++ cs) = v.render.toList ++ cs := by
  obtain ⟨c, r, hcr, hsp, -, -⟩ := h.render_head
  rw [hcr, List.cons_append, skipSpace_cons hsp]

theorem readValue_number {n : Number} (h : readNumber n.render.toList = .ok (n, []))
    (fuel depth : Nat) (hr : Stop rest) :
    readValue (fuel + 1) depth (n.render.toList ++ rest) = .ok (.number n, rest) := by
  have hread : readNumber (n.render.toList ++ rest) = .ok (n, rest) := by
    rw [readNumber_append _ hr, h]
    rfl
  obtain ⟨c, r, hcr, hc⟩ := readNumber_head h
  rw [hcr, List.cons_append] at hread ⊢
  rw [readValue, skipSpace, List.dropWhile_cons_of_neg (by simp [isSpace_eq_false hc])]
  split
  case h_8 =>
    obtain ⟨rfl, rfl⟩ := List.cons.inj ‹c :: (r ++ rest) = _ :: _›
    rw [if_pos hc, hread]
    rfl
  case h_7 => cases ‹c :: (r ++ rest) = []›
  -- every other kind of value starts with a character no number starts with
  all_goals
    obtain ⟨rfl, -⟩ := List.cons.inj ‹c :: (r ++ rest) = _ :: _›
    exact absurd hc (by decide)

theorem Readable.render_ne_close {v : Value} (h : Readable v) (cs r : List Char) :
    v.render.toList ++ cs ≠ ']' :: r := by
  obtain ⟨c, r', hcr, -, hc, -⟩ := h.render_head
  rw [hcr, List.cons_append]
  intro heq
  exact hc (List.cons.inj heq).1

/-- The items of an array, followed by its closing bracket, are read one after another. -/
theorem readItems_render {items : List Value} (hne : items ≠ [])
    (hread : ∀ v ∈ items, Readable v) (ih : ∀ v ∈ items, ReadsBack v)
    (fuel depth : Nat) (acc : List Value) (hfuel : 2 * (renderItems items).length + 2 ≤ fuel)
    (hdepth : depth + itemsNesting items ≤ depthLimit) :
    readItems fuel depth acc ((renderItems items).toList ++ ']' :: rest) =
      .ok (acc.reverse ++ items, rest) := by
  induction items generalizing fuel acc with
  | nil => exact absurd rfl hne
  | cons v vs ihvs =>
    obtain ⟨f, rfl⟩ : ∃ f, fuel = f + 1 := ⟨fuel - 1, by omega⟩
    have hv := hread v List.mem_cons_self
    have hvdepth : depth + v.nesting ≤ depthLimit := by
      simp only [itemsNesting] at hdepth
      omega
    cases vs with
    | nil =>
      have hval := ih v List.mem_cons_self f depth (']' :: rest)
        (by simp [renderItems] at hfuel; omega) hvdepth (stop_cons _ (by simp))
      simp only [renderItems]
      rw [readItems]
      · simp only [hv.skipSpace_render, hval, Bind.bind, Except.bind]
        simp [skipSpace, isSpace, pure, Except.pure]
      · intro r _ h
        rw [hv.skipSpace_render] at h
        exact hv.render_ne_close _ _ h
    | cons w ws =>
      have hcomma : (",").length = 1 := rfl
      have hval := ih v List.mem_cons_self f depth
        (',' :: ((renderItems (w :: ws)).toList ++ ']' :: rest))
        (by simp [renderItems, hcomma] at hfuel; omega) hvdepth (stop_cons _ (by simp))
      have hrest := ihvs (List.cons_ne_nil w ws)
        (fun x hx => hread x (List.mem_cons_of_mem v hx))
        (fun x hx => ih x (List.mem_cons_of_mem v hx)) f (v :: acc)
        (by simp [renderItems, hcomma] at hfuel ⊢; omega)
        (by simp only [itemsNesting] at hdepth ⊢; omega)
      have htext : (renderItems (v :: w :: ws)).toList ++ ']' :: rest =
          v.render.toList ++ ',' :: ((renderItems (w :: ws)).toList ++ ']' :: rest) := by
        simp [renderItems]
      rw [htext, readItems]
      · simp only [hv.skipSpace_render, hval, Bind.bind, Except.bind]
        simp [skipSpace, isSpace]
        rw [hrest]
        simp
      · intro r _ h
        rw [hv.skipSpace_render] at h
        exact hv.render_ne_close _ _ h

theorem readFields_quote (fuel depth : Nat) (acc : List (String × Value)) (cs : List Char) :
    readFields (fuel + 1) depth acc ('"' :: cs) = readField fuel depth acc ('"' :: cs) := by
  unfold readFields
  rw [skipSpace_cons (by decide)]
  cases acc <;> rfl

theorem toList_field (k : String) (v : Value) (cs : List Char) :
    (quote k ++ ":" ++ v.render).toList ++ cs =
      '"' :: (k.toList.flatMap escapeChar ++ '"' :: ':' :: (v.render.toList ++ cs)) := by
  simp [toList_quote]

/-- A field followed by a comma is read, and the reader goes on to the next field. -/
theorem readField_comma (k : String) {v : Value} {cs : List Char} (fuel depth : Nat)
    (acc : List (String × Value))
    (hval : readValue fuel depth (v.render.toList ++ ',' :: cs) = .ok (v, ',' :: cs)) :
    readField (fuel + 1) depth acc ((quote k ++ ":" ++ v.render).toList ++ ',' :: cs) =
      readFields fuel depth ((k, v) :: acc) cs := by
  simp only [toList_field, readField, readString_quote, Bind.bind, Except.bind]
  simp [skipSpace, isSpace, hval]

/-- The last field, followed by the closing brace, ends the object. -/
theorem readField_close (k : String) {v : Value} (fuel depth : Nat) (acc : List (String × Value))
    (hval : readValue fuel depth (v.render.toList ++ '\x7d' :: rest) = .ok (v, '\x7d' :: rest)) :
    readField (fuel + 1) depth acc ((quote k ++ ":" ++ v.render).toList ++ '\x7d' :: rest) =
      .ok (((k, v) :: acc).reverse, rest) := by
  simp only [toList_field, readField, readString_quote, Bind.bind, Except.bind]
  simp [skipSpace, isSpace, hval, pure, Except.pure]

theorem two_le_length_quote (s : String) : 2 ≤ (quote s).length := by
  rw [← String.length_toList, toList_quote]
  simp

/-- The fields of an object, followed by its closing brace, are read one after another. -/
theorem readFields_render {fields : List (String × Value)} (hne : fields ≠ [])
    (ih : ∀ f ∈ fields, ReadsBack f.2) (fuel depth : Nat) (acc : List (String × Value))
    (hfuel : 2 * (renderFields fields).length + 2 ≤ fuel)
    (hdepth : depth + fieldsNesting fields ≤ depthLimit) :
    readFields fuel depth acc ((renderFields fields).toList ++ '\x7d' :: rest) =
      .ok (acc.reverse ++ fields, rest) := by
  induction fields generalizing fuel acc with
  | nil => exact absurd rfl hne
  | cons kv fs ihfs =>
    obtain ⟨k, v⟩ := kv
    have hk := two_le_length_quote k
    have hcolon : (":").length = 1 := rfl
    have hcomma : (",").length = 1 := rfl
    have hvdepth : depth + v.nesting ≤ depthLimit := by
      simp only [fieldsNesting] at hdepth
      omega
    cases fs with
    | nil =>
      simp [renderFields, hcolon] at hfuel
      obtain ⟨f, rfl⟩ : ∃ f, fuel = f + 2 := ⟨fuel - 2, by omega⟩
      have hval := ih (k, v) List.mem_cons_self f depth ('\x7d' :: rest) (by dsimp only; omega)
        hvdepth
        (stop_cons _ (by simp))
      rw [renderFields, toList_field, readFields_quote, ← toList_field,
        readField_close k f depth acc hval]
      simp
    | cons w ws =>
      have hlen : (renderFields ((k, v) :: w :: ws)).length =
          (quote k).length + 1 + v.render.length + 1 + (renderFields (w :: ws)).length := by
        simp [renderFields, hcolon, hcomma]
      obtain ⟨f, rfl⟩ : ∃ f, fuel = f + 2 := ⟨fuel - 2, by omega⟩
      have hval := ih (k, v) List.mem_cons_self f depth
        (',' :: ((renderFields (w :: ws)).toList ++ '\x7d' :: rest)) (by dsimp only; omega) hvdepth
        (stop_cons _ (by simp))
      have hrest := ihfs (List.cons_ne_nil w ws) (fun x hx => ih x (List.mem_cons_of_mem _ hx))
        f ((k, v) :: acc) (by omega) (by simp only [fieldsNesting] at hdepth ⊢; omega)
      have htext : (renderFields ((k, v) :: w :: ws)).toList ++ '\x7d' :: rest =
          (quote k ++ ":" ++ v.render).toList ++
            ',' :: ((renderFields (w :: ws)).toList ++ '\x7d' :: rest) := by
        simp [renderFields]
      rw [htext, toList_field, readFields_quote, ← toList_field,
        readField_comma k f depth acc hval, hrest]
      simp

theorem readItems_empty (fuel depth : Nat) :
    readItems (fuel + 1) depth [] (']' :: rest) = .ok ([], rest) := by
  unfold readItems
  rw [skipSpace_cons (by decide)]
  rfl

theorem readFields_empty (fuel depth : Nat) :
    readFields (fuel + 1) depth [] ('\x7d' :: rest) = .ok ([], rest) := by
  unfold readFields
  rw [skipSpace_cons (by decide)]
  rfl

theorem Readable.length_pos {v : Value} (h : Readable v) : 0 < v.render.length := by
  obtain ⟨c, r, hcr, -⟩ := h.render_head
  rw [← String.length_toList, hcr]
  exact Nat.succ_pos _

/-- A value whose text is not empty reads back as soon as it does with some fuel left. -/
theorem ReadsBack.of_succ {v : Value} (hpos : 0 < v.render.length)
    (h : ∀ fuel depth rest, 2 * v.render.length ≤ fuel + 1 → depth + v.nesting ≤ depthLimit →
      Stop rest → readValue (fuel + 1) depth (v.render.toList ++ rest) = .ok (v, rest)) :
    ReadsBack v := by
  intro fuel depth rest hfuel hdepth hr
  obtain ⟨f, rfl⟩ : ∃ f, fuel = f + 1 := ⟨fuel - 1, by omega⟩
  exact h f depth rest hfuel hdepth hr

/-- Every readable value is read back from its text. -/
theorem Readable.readsBack {v : Value} (h : Readable v) : ReadsBack v := by
  induction h with
  | null =>
    refine ReadsBack.of_succ Readable.null.length_pos fun f depth rest _ _ _ => ?_
    unfold readValue
    simp [Value.render, skipSpace, isSpace, pure, Except.pure]
  | bool b =>
    refine ReadsBack.of_succ (Readable.bool b).length_pos fun f depth rest _ _ _ => ?_
    unfold readValue
    cases b <;> simp [Value.render, skipSpace, isSpace, pure, Except.pure]
  | number h =>
    exact ReadsBack.of_succ (Readable.number h).length_pos fun f depth rest _ _ hr =>
      readValue_number h f depth hr
  | string s =>
    refine ReadsBack.of_succ (Readable.string s).length_pos fun f depth rest _ _ _ => ?_
    unfold readValue
    rw [Value.render, toList_quote, List.cons_append, skipSpace_cons (by decide)]
    simp only [List.append_assoc, List.singleton_append, readString_quote]
    rfl
  | @array items h ih =>
    refine ReadsBack.of_succ (Readable.array h).length_pos fun f depth rest hfuel hdepth _ => ?_
    have hlen : (Value.array items).render.length = (renderItems items).length + 2 := by
      simp [Value.render, show ("[" : String).length = 1 from rfl,
        show ("]" : String).length = 1 from rfl]
      omega
    have hnest : (Value.array items).nesting = itemsNesting items + 1 := by
      simp [Value.nesting]
    have htext : (Value.array items).render.toList ++ rest =
        '[' :: ((renderItems items).toList ++ ']' :: rest) := by
      simp [Value.render]
    unfold readValue
    rw [htext, skipSpace_cons (by decide)]
    simp only
    rw [if_neg (by omega)]
    cases items with
    | nil =>
      obtain ⟨g, rfl⟩ : ∃ g, f = g + 1 := ⟨f - 1, by simp [renderItems] at hlen; omega⟩
      simp [renderItems, readItems_empty]
    | cons w ws =>
      rw [readItems_render (List.cons_ne_nil w ws) h ih f (depth + 1) [] (by omega) (by omega)]
      rfl
  | @object fields h ih =>
    refine ReadsBack.of_succ (Readable.object h).length_pos fun f depth rest hfuel hdepth _ => ?_
    have hlen : (Value.object fields).render.length = (renderFields fields).length + 2 := by
      simp [Value.render, show ("\x7b" : String).length = 1 from rfl,
        show ("\x7d" : String).length = 1 from rfl]
      omega
    have hnest : (Value.object fields).nesting = fieldsNesting fields + 1 := by
      simp [Value.nesting]
    have htext : (Value.object fields).render.toList ++ rest =
        '\x7b' :: ((renderFields fields).toList ++ '\x7d' :: rest) := by
      simp [Value.render]
    unfold readValue
    rw [htext, skipSpace_cons (by decide)]
    simp only
    rw [if_neg (by omega)]
    cases fields with
    | nil =>
      obtain ⟨g, rfl⟩ : ∃ g, f = g + 1 := ⟨f - 1, by simp [renderFields] at hlen; omega⟩
      simp [renderFields, readFields_empty]
    | cons w ws =>
      rw [readFields_render (List.cons_ne_nil w ws) ih f (depth + 1) [] (by omega) (by omega)]
      rfl

/-! ## Documents -/

/-- A readable document whose nesting the reader allows is parsed back. -/
theorem parse_render {v : Value} (h : Readable v) (hn : v.nesting ≤ depthLimit) :
    parse v.render = .ok v := by
  have hread := h.readsBack (4 * v.render.toList.length + 4) 0 []
    (by rw [String.length_toList]; omega) (by omega) stop_nil
  rw [List.append_nil] at hread
  unfold parse
  simp only [hread, Bind.bind, Except.bind]
  rfl

section Members

variable {known : List String} {k : String} {v : Value}

/-- A known field followed by a comma is read, and the reader goes on to the next member. -/
theorem readMembers_comma (hk : known.contains k = true) (hv : ReadsBack v)
    (hnest : 1 + v.nesting ≤ depthLimit) (hr : Stop (',' :: rest)) (fuel : Nat) (first : Bool)
    (acc : List (String × Value)) :
    readMembers known (fuel + 1) first acc ((quote k ++ ":" ++ v.render).toList ++ ',' :: rest) =
      readMembers known fuel false ((k, v) :: acc) rest := by
  have hval := hv (4 * (v.render.toList ++ ',' :: rest).length + 4) 1 (',' :: rest)
    (by rw [List.length_append, String.length_toList]; omega) hnest hr
  rw [readMembers.eq_3 _ _ _ _ _ _ (by rw [toList_field, skipSpace_cons (by decide)])]
  simp only [readString_quote, Bind.bind, Except.bind, skipSpace_cons (c := ':') (by decide), hk,
    if_true, pure, Except.pure, hval, skipSpace_cons (c := ',') (by decide)]

/-- The last known field, followed by the closing brace, ends the record. -/
theorem readMembers_close (hk : known.contains k = true) (hv : ReadsBack v)
    (hnest : 1 + v.nesting ≤ depthLimit) (fuel : Nat) (first : Bool)
    (acc : List (String × Value)) :
    readMembers known (fuel + 1) first acc
        ((quote k ++ ":" ++ v.render).toList ++ '\x7d' :: rest) =
      .ok (((k, v) :: acc).reverse, rest) := by
  have hval := hv (4 * (v.render.toList ++ '\x7d' :: rest).length + 4) 1 ('\x7d' :: rest)
    (by rw [List.length_append, String.length_toList]; omega) hnest (stop_cons _ (by simp))
  rw [readMembers.eq_3 _ _ _ _ _ _ (by rw [toList_field, skipSpace_cons (by decide)])]
  simp only [readString_quote, Bind.bind, Except.bind, skipSpace_cons (c := ':') (by decide), hk,
    if_true, pure, Except.pure, hval, skipSpace_cons (c := '\x7d') (by decide)]

theorem length_le_renderFields (fields : List (String × Value)) :
    fields.length ≤ (renderFields fields).length := by
  induction fields with
  | nil => exact Nat.zero_le _
  | cons kv fs ih =>
    obtain ⟨k, v⟩ := kv
    have hk := two_le_length_quote k
    cases fs with
    | nil => simp [renderFields]; omega
    | cons w ws =>
      simp only [renderFields, String.length_append] at ih ⊢
      simp only [List.length_cons] at ih ⊢
      omega

/-- The members of a record whose names are all known are read one after another. -/
theorem readMembers_render {fields : List (String × Value)} (hne : fields ≠ [])
    (hknown : ∀ f ∈ fields, known.contains f.1 = true)
    (hv : ∀ f ∈ fields, ReadsBack f.2 ∧ 1 + f.2.nesting ≤ depthLimit) (fuel : Nat)
    (hfuel : fields.length ≤ fuel) (first : Bool) (acc : List (String × Value)) :
    readMembers known fuel first acc ((renderFields fields).toList ++ '\x7d' :: rest) =
      .ok (acc.reverse ++ fields, rest) := by
  induction fields generalizing fuel first acc with
  | nil => exact absurd rfl hne
  | cons kv fs ih =>
    obtain ⟨k, v⟩ := kv
    obtain ⟨f, rfl⟩ : ∃ f, fuel = f + 1 := ⟨fuel - 1, by simp at hfuel; omega⟩
    have hk := hknown (k, v) List.mem_cons_self
    obtain ⟨hval, hnest⟩ := hv (k, v) List.mem_cons_self
    cases fs with
    | nil =>
      rw [renderFields, readMembers_close hk hval hnest]
      simp
    | cons w ws =>
      have htext : (renderFields ((k, v) :: w :: ws)).toList ++ '\x7d' :: rest =
          (quote k ++ ":" ++ v.render).toList ++
            ',' :: ((renderFields (w :: ws)).toList ++ '\x7d' :: rest) := by
        simp [renderFields]
      rw [htext, readMembers_comma hk hval hnest (stop_cons _ (by simp)),
        ih (List.cons_ne_nil w ws) (fun x hx => hknown x (List.mem_cons_of_mem _ hx))
          (fun x hx => hv x (List.mem_cons_of_mem _ hx)) f (by simp at hfuel ⊢; omega)]
      simp

end Members

/-- A record object whose fields are all known and readable is read back as its fields. -/
theorem readRecord_render {known : List String} {fields : List (String × Value)}
    (hne : fields ≠ []) (hknown : ∀ f ∈ fields, known.contains f.1 = true)
    (hv : ∀ f ∈ fields, Readable f.2 ∧ 1 + f.2.nesting ≤ depthLimit) :
    readRecord known (Value.object fields).render = .ok (.fields fields) := by
  have htext : (Value.object fields).render.toList =
      '\x7b' :: ((renderFields fields).toList ++ ['\x7d']) := by
    simp [Value.render]
  have hlen := length_le_renderFields fields
  have hmembers : readMembers known ('\x7b' :: ((renderFields fields).toList ++ ['\x7d'])).length
      true [] ((renderFields fields).toList ++ ['\x7d']) = .ok ([].reverse ++ fields, []) :=
    readMembers_render hne hknown (fun f hf => ⟨(hv f hf).1.readsBack, (hv f hf).2⟩) _
      (by rw [List.length_cons, List.length_append, String.length_toList]; omega) true []
  unfold readRecord
  dsimp only
  rw [htext, skipSpace_cons (by decide)]
  simp only
  rw [hmembers]
  rfl

end SparseMatrix.Json
