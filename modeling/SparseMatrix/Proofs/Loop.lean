import SparseMatrix.Parallel

/-!
# Chunked loops answer as one sequential loop

`Range.tryMap` cuts `[start, stop)` into `min degree len` chunks with `splitRange`, runs
them in order, and joins their answers: a fault of any chunk wins, then the buffer of all
results is laid out, then the earliest library error, then the results. This module
reads that back as a loop over one list of indices.

* `splitRange` computes `chunkStart` in checked words without faulting, and the chunks
  `chunkIndices` are consecutive and cover the range in order (`chunks_flatten`).
* `tryMap_eq_sequential`: a body that fails only with faults gives the answer of
  `sequential` (one buffer, then the body on every index up to the first failure),
  whatever the degree, when all results fit one buffer or the body's only fault is a
  buffer that does not fit. `tryMap_degree_one` needs no condition on the body.
* `tryMap_of_ok`: a body that succeeds on the range gives its results in index order.
* `mem_of_tryMap_ok`: every result of a loop that succeeds is the body's result on an
  index of the range.
* `tryMap_congr`: two loops that differ only in their degree agree under the conditions of
  `tryMap_eq_sequential`; `tryMap_failsWith`: a loop fails only with faults when its body
  does.

Lengths are machine words (`Text.wordMax`), as every loop of the library has them.
-/

namespace SparseMatrix

/-! ## Where chunks start -/

/-- Where chunk `i` starts when `[0, len)` is cut into `count` chunks: the first
`len % count` chunks hold `len / count + 1` indices, the others `len / count`. -/
def chunkStart (len count i : Nat) : Nat :=
  if i < len % count then i * (len / count + 1) else len % count + i * (len / count)

theorem chunkStart_zero (len count : Nat) : chunkStart len count 0 = 0 := by
  unfold chunkStart
  split <;> omega

theorem chunkStart_succ (len count i : Nat) :
    chunkStart len count (i + 1) =
      chunkStart len count i + if i < len % count then len / count + 1 else len / count := by
  unfold chunkStart
  by_cases h : i + 1 < len % count
  · rw [if_pos h, if_pos (by omega), if_pos (by omega), Nat.succ_mul]
  · rw [if_neg h]
    by_cases h' : i < len % count
    · rw [if_pos h', if_pos h', Nat.succ_mul, Nat.mul_succ]
      omega
    · rw [if_neg h', if_neg h', Nat.succ_mul]
      omega

theorem chunkStart_count {len count : Nat} (h : 0 < count) : chunkStart len count count = len := by
  unfold chunkStart
  rw [if_neg (Nat.not_lt.mpr (Nat.le_of_lt (Nat.mod_lt len h)))]
  exact Nat.mod_add_div len count

theorem chunkStart_mono {len count i j : Nat} (h : i ≤ j) :
    chunkStart len count i ≤ chunkStart len count j := by
  induction h with
  | refl => exact Nat.le_refl _
  | step _ ih => rw [chunkStart_succ]; omega

theorem chunkStart_le {len count i : Nat} (hc : 0 < count) (h : i ≤ count) :
    chunkStart len count i ≤ len :=
  calc chunkStart len count i ≤ chunkStart len count count := chunkStart_mono h
    _ = len := chunkStart_count hc

/-- The indices of chunk `c` of `[start, start + len)` cut into `count` chunks. -/
def chunkIndices (start len count c : Nat) : List Nat :=
  List.range' (start + chunkStart len count c) (chunkStart len count (c + 1) - chunkStart len count c)

/-- A chunk's indices lie in the range it was cut from. -/
theorem mem_chunkIndices {start len count c i : Nat} (hc : c < count)
    (h : i ∈ chunkIndices start len count c) : start ≤ i ∧ i < start + len := by
  have hle : chunkStart len count (c + 1) ≤ len := chunkStart_le (by omega) hc
  have hmono : chunkStart len count c ≤ chunkStart len count (c + 1) :=
    chunkStart_mono (Nat.le_succ c)
  rw [chunkIndices, List.mem_range'_1] at h
  omega

/-! ## The chunks of `splitRange` -/

theorem Size.add_eq {a b : Nat} (h : a + b ≤ Text.wordMax) : Size.add a b = pure (a + b) := by
  simp [Size.add, Size.fit, h]

theorem Size.mul_eq {a b : Nat} (h : a * b ≤ Text.wordMax) : Size.mul a b = pure (a * b) := by
  simp [Size.mul, Size.fit, h]

/-- The start of chunk `j` as `splitRange` computes it in checked words: it never faults. -/
theorem checkedStart_eq {len count j : Nat} (hc : 0 < count) (hj : j ≤ count)
    (hlen : len ≤ Text.wordMax) :
    (if j < len % count then do
        let step ← Size.add (len / count) 1
        Size.mul j step
      else do
        let offset ← Size.mul j (len / count)
        Size.add (len % count) offset) = (pure (chunkStart len count j) : Except Fault Nat) := by
  have hs : chunkStart len count j ≤ len := chunkStart_le hc hj
  unfold chunkStart at hs ⊢
  split
  · rename_i hlt
    rw [if_pos hlt] at hs
    -- a chunk one longer than the quotient exists, so the quotient is below `len`
    have hq : len / count + 1 ≤ len := by
      have hsplit := Nat.mod_add_div len count
      have : len / count ≤ count * (len / count) := Nat.le_mul_of_pos_left _ hc
      omega
    rw [Size.add_eq (by omega), pure_bind, Size.mul_eq (by omega)]
  · rename_i hge
    rw [if_neg hge] at hs
    rw [Size.mul_eq (by omega), pure_bind, Size.add_eq (by omega)]

/-- Chunk `i` of a range of `len` indices starts at `chunkStart` and runs to the start of
chunk `i + 1`. -/
theorem splitRange_eq {len count i : Nat} (hc : 0 < count) (hcount : count ≤ Text.wordMax)
    (hi : i < count)
    (hlen : len ≤ Text.wordMax) :
    splitRange len i count =
      pure (chunkStart len count i, chunkStart len count (i + 1) - chunkStart len count i) := by
  have h0 : count ≠ 0 := by omega
  simp only [splitRange, Size.div, Size.rem, if_neg h0, pure_bind]
  rw [checkedStart_eq hc (Nat.le_of_lt hi) hlen, pure_bind, Size.add_eq (by omega), pure_bind,
    checkedStart_eq hc hi hlen, pure_bind]
  have hmono : chunkStart len count i ≤ chunkStart len count (i + 1) :=
    chunkStart_mono (Nat.le_succ i)
  simp [Size.sub, hmono]

/-- The chunks cover the range, in order. -/
theorem chunks_flatten (start len count k : Nat) :
    ((List.range k).map (chunkIndices start len count)).flatten =
      List.range' start (chunkStart len count k) := by
  induction k with
  | zero => simp [chunkStart_zero]
  | succ k ih =>
    have hmono : chunkStart len count k ≤ chunkStart len count (k + 1) :=
      chunkStart_mono (Nat.le_succ k)
    rw [List.range_succ, List.map_append, List.flatten_append, ih]
    simp only [List.map_cons, List.map_nil, List.flatten_cons, List.flatten_nil, List.append_nil,
      chunkIndices]
    rw [List.range'_append_1]
    congr 1
    omega

/-! ## Failures of loop bodies -/

/-- A computation all of whose failures satisfy `q`. -/
def FailsWith {β : Type} (q : Failure → Prop) (x : Except Failure β) : Prop :=
  ∀ e, x = .error e → q e

/-- A failure that is a fault, not a library error. -/
def Failure.IsFault (e : Failure) : Prop :=
  ∃ f, e = .fault f

section FailsWith

variable {β γ : Type} {q : Failure → Prop}

@[simp] theorem failsWith_ok (x : β) : FailsWith q (.ok x) := by
  intro e h
  cases h

theorem FailsWith.bind {x : Except Failure β} {f : β → Except Failure γ} (hx : FailsWith q x)
    (hf : ∀ b, x = .ok b → FailsWith q (f b)) : FailsWith q (x >>= f) := by
  intro e he
  cases hxe : x with
  | error e' =>
    rw [hxe] at he
    have hee : e' = e := by injection he
    exact hee ▸ hx e' hxe
  | ok b =>
    rw [hxe] at he
    exact hf b hxe e he

theorem bind_eq_error_of_failsWith {e : Failure} {x : Except Failure β}
    {f : β → Except Failure γ} (hx : FailsWith (· = e) x) (hf : ∀ b, f b = .error e) :
    x >>= f = .error e := by
  cases hxe : x with
  | error e' => rw [hx e' hxe]; rfl
  | ok b => exact hf b

theorem failsWith_mapM {l : List γ} {body : γ → Except Failure β}
    (h : ∀ i ∈ l, FailsWith q (body i)) : FailsWith q (l.mapM body) := by
  induction l with
  | nil => exact failsWith_ok []
  | cons i l ih =>
    rw [List.mapM_cons]
    refine FailsWith.bind (h i (List.mem_cons_self ..)) fun x _ => ?_
    refine FailsWith.bind (ih fun j hj => h j (List.mem_cons_of_mem i hj)) fun xs _ => ?_
    exact failsWith_ok _

@[simp] theorem liftFault_pure (x : β) :
    (liftM (pure x : Except Fault β) : Except Failure β) = pure x :=
  rfl

@[simp] theorem liftError_pure (x : β) :
    (liftM (pure x : Except Error β) : Except Failure β) = pure x :=
  rfl

theorem failsWith_lift (x : Except Fault β) :
    FailsWith Failure.IsFault (liftM x : Except Failure β) := by
  intro e he
  cases x with
  | error f => exact ⟨f, by injection he with h; exact h.symm⟩
  | ok v => cases he

theorem failsWith_filterMapM {l : List γ} {g : γ → Except Failure (Option β)}
    (h : ∀ x ∈ l, FailsWith q (g x)) : FailsWith q (l.filterMapM g) := by
  induction l with
  | nil => exact failsWith_ok []
  | cons x l ih =>
    rw [List.filterMapM_cons]
    refine FailsWith.bind (h x (List.mem_cons_self ..)) fun o _ => ?_
    have hl := ih fun y hy => h y (List.mem_cons_of_mem x hy)
    cases o with
    | none => exact hl
    | some b => exact FailsWith.bind hl fun _ _ => failsWith_ok _

/-- Two continuations that agree on every value `x` can succeed with give one answer. -/
theorem bind_congr_of_ok {ε δ : Type} {x : Except ε γ} {f g : γ → Except ε δ}
    (h : ∀ v, x = .ok v → f v = g v) : x >>= f = x >>= g := by
  cases hx : x with
  | error e => rfl
  | ok v => exact h v hx

theorem fitsBuffer_failsWith (width count : Nat) :
    FailsWith (· = .fault .capacityOverflow) (fitsBuffer width count : Except Failure Unit) := by
  intro e he
  unfold fitsBuffer at he
  split at he
  · cases he
  · injection he with he
    exact he.symm

theorem fitsBuffer_eq_error {width count : Nat} (h : ¬count * width ≤ bufferLimit) :
    (fitsBuffer width count : Except Failure Unit) = .error (.fault .capacityOverflow) := by
  simp [fitsBuffer, h]
  rfl

theorem fitsBuffer_eq_ok {width count : Nat} (h : count * width ≤ bufferLimit) :
    (fitsBuffer width count : Except Failure Unit) = pure () := by
  simp [fitsBuffer, h]

end FailsWith

/-! ## Successful runs

What a computation that succeeds was made of: the value each step gave, read back through
the binds, and for the checked word arithmetic of `splitRange` the exact values. -/

section Ok

variable {β γ ε : Type}

theorem bind_eq_ok {x : Except ε γ} {f : γ → Except ε β} {b : β} (h : x >>= f = .ok b) :
    ∃ a, x = .ok a ∧ f a = .ok b := by
  cases hx : x with
  | error e => rw [hx] at h; cases h
  | ok a => rw [hx] at h; exact ⟨a, rfl, h⟩

theorem map_eq_ok {x : Except ε γ} {f : γ → β} {b : β} (h : x.map f = .ok b) :
    ∃ a, x = .ok a ∧ b = f a := by
  cases hx : x with
  | error e => rw [hx] at h; cases h
  | ok a =>
    rw [hx] at h
    injection h with h
    exact ⟨a, rfl, h.symm⟩

theorem liftFault_ok {x : Except Fault β} {v : β} (h : (liftM x : Except Failure β) = .ok v) :
    x = .ok v := by
  cases x with
  | error f => cases h
  | ok w => injection h with h; rw [h]

/-- A `mapM` that succeeds, whose function gives `f` wherever it succeeds, gives `f` on
every element. -/
theorem eq_map_of_mapM_ok {l : List γ} {g : γ → Except ε β} {f : γ → β} {xs : List β}
    (h : l.mapM g = .ok xs) (hf : ∀ a ∈ l, ∀ x, g a = .ok x → x = f a) : xs = l.map f := by
  induction l generalizing xs with
  | nil =>
    cases h
    rfl
  | cons a l ih =>
    rw [List.mapM_cons] at h
    obtain ⟨y, hy, h⟩ := bind_eq_ok h
    obtain ⟨ys, hys, h⟩ := bind_eq_ok h
    cases h
    rw [List.map_cons, hf a (List.mem_cons_self ..) y hy,
      ih hys fun b hb => hf b (List.mem_cons_of_mem a hb)]

/-- A `mapM` that succeeds succeeds with the same results under every function that agrees
with its own wherever that one succeeds. -/
theorem mapM_congr_ok {l : List γ} {f g : γ → Except ε β} {xs : List β} (h : l.mapM f = .ok xs)
    (hg : ∀ a ∈ l, ∀ x, f a = .ok x → g a = .ok x) : l.mapM g = .ok xs := by
  induction l generalizing xs with
  | nil =>
    cases h
    rfl
  | cons a l ih =>
    rw [List.mapM_cons] at h ⊢
    obtain ⟨y, hy, h⟩ := bind_eq_ok h
    obtain ⟨ys, hys, h⟩ := bind_eq_ok h
    cases h
    rw [hg a (List.mem_cons_self ..) y hy, ih hys fun b hb => hg b (List.mem_cons_of_mem a hb)]
    rfl

/-- Every result of a `mapM` that succeeds is the function's result on an element. -/
theorem mem_of_mapM_ok {l : List γ} {f : γ → Except ε β} {xs : List β}
    (h : l.mapM f = .ok xs) : ∀ x ∈ xs, ∃ a ∈ l, f a = .ok x := by
  induction l generalizing xs with
  | nil =>
    cases h
    intro x hx
    cases hx
  | cons a l ih =>
    rw [List.mapM_cons] at h
    obtain ⟨y, hy, h⟩ := bind_eq_ok h
    obtain ⟨ys, hys, h⟩ := bind_eq_ok h
    cases h
    intro x hx
    rcases List.mem_cons.mp hx with rfl | hx
    · exact ⟨a, List.mem_cons_self .., hy⟩
    · obtain ⟨b, hb, hfb⟩ := ih hys x hx
      exact ⟨b, List.mem_cons_of_mem a hb, hfb⟩

/-- Every result of a `filterMapM` that succeeds is kept by the function on an element. -/
theorem mem_of_filterMapM_ok {l : List γ} {g : γ → Except ε (Option β)} {ys : List β}
    (h : l.filterMapM g = .ok ys) : ∀ y ∈ ys, ∃ a ∈ l, g a = .ok (some y) := by
  induction l generalizing ys with
  | nil =>
    cases h
    intro y hy
    cases hy
  | cons a l ih =>
    rw [List.filterMapM_cons] at h
    obtain ⟨o, ho, h⟩ := bind_eq_ok h
    cases o with
    | none =>
      intro y hy
      obtain ⟨b, hb, hgb⟩ := ih h y hy
      exact ⟨b, List.mem_cons_of_mem a hb, hgb⟩
    | some z =>
      obtain ⟨zs, hzs, h⟩ := bind_eq_ok h
      cases h
      intro y hy
      rcases List.mem_cons.mp hy with rfl | hy
      · exact ⟨a, List.mem_cons_self .., ho⟩
      · obtain ⟨b, hb, hgb⟩ := ih hzs y hy
        exact ⟨b, List.mem_cons_of_mem a hb, hgb⟩

/-- A fold that succeeds keeps every invariant its successful steps keep. -/
theorem foldlM_ok_invariant {σ : Type} {P : σ → Prop} {l : List γ} {f : σ → γ → Except ε σ}
    {s s' : σ} (hstep : ∀ x ∈ l, ∀ t t', P t → f t x = .ok t' → P t') (hs : P s)
    (h : l.foldlM f s = .ok s') : P s' := by
  induction l generalizing s with
  | nil =>
    cases h
    exact hs
  | cons x l ih =>
    rw [List.foldlM_cons] at h
    obtain ⟨t, ht, h⟩ := bind_eq_ok h
    exact ih (fun y hy => hstep y (List.mem_cons_of_mem x hy))
      (hstep x (List.mem_cons_self ..) s t hs ht) h

end Ok

theorem Size.fit_ok {f : Fault} {n v : Nat} (h : Size.fit f n = .ok v) : v = n := by
  unfold Size.fit at h
  split at h
  · injection h with h
    exact h.symm
  · cases h

theorem Size.sub_ok {a b v : Nat} (h : Size.sub a b = .ok v) : b ≤ a ∧ v = a - b := by
  unfold Size.sub at h
  split at h
  · injection h with h
    exact ⟨by assumption, h.symm⟩
  · cases h

theorem Size.div_ok {a b v : Nat} (h : Size.div a b = .ok v) : b ≠ 0 ∧ v = a / b := by
  unfold Size.div at h
  split at h
  · cases h
  · injection h with h
    exact ⟨by assumption, h.symm⟩

theorem Size.rem_ok {a b v : Nat} (h : Size.rem a b = .ok v) : v = a % b := by
  unfold Size.rem at h
  split at h
  · cases h
  · injection h with h
    exact h.symm

/-- A chunk start that `splitRange` computes without faulting is `chunkStart`. -/
theorem checkedStart_ok {len count j v : Nat}
    (h : (if j < len % count then do
        let step ← Size.add (len / count) 1
        Size.mul j step
      else do
        let offset ← Size.mul j (len / count)
        Size.add (len % count) offset) = (Except.ok v : Except Fault Nat)) :
    v = chunkStart len count j := by
  unfold chunkStart
  split at h
  · rename_i hlt
    rw [if_pos hlt]
    obtain ⟨step, hstep, h⟩ := bind_eq_ok h
    rw [Size.fit_ok h, Size.fit_ok hstep]
  · rename_i hge
    rw [if_neg hge]
    obtain ⟨offset, hoffset, h⟩ := bind_eq_ok h
    rw [Size.fit_ok h, Size.fit_ok hoffset]

/-- A chunk that `splitRange` lays out without faulting runs from `chunkStart` of its index
to `chunkStart` of the next. -/
theorem splitRange_ok {len c count o sz : Nat} (h : splitRange len c count = .ok (o, sz)) :
    0 < count ∧ o = chunkStart len count c ∧ o + sz = chunkStart len count (c + 1) := by
  unfold splitRange at h
  obtain ⟨size, hsize, h⟩ := bind_eq_ok h
  obtain ⟨rem, hrem, h⟩ := bind_eq_ok h
  obtain ⟨hcount, rfl⟩ := Size.div_ok hsize
  obtain rfl := Size.rem_ok hrem
  dsimp only at h
  obtain ⟨start, hstart, h⟩ := bind_eq_ok h
  obtain ⟨next, hnext, h⟩ := bind_eq_ok h
  obtain ⟨stop, hstop, h⟩ := bind_eq_ok h
  obtain ⟨length, hlength, h⟩ := bind_eq_ok h
  cases h
  obtain rfl := Size.fit_ok hnext
  obtain ⟨hle, rfl⟩ := Size.sub_ok hlength
  refine ⟨by omega, checkedStart_ok hstart, ?_⟩
  rw [checkedStart_ok hstart, ← checkedStart_ok hstop] at *
  omega

end SparseMatrix

namespace SparseMatrix.Range

variable {β : Type}

/-! ## Joining chunks -/

theorem eq_fault_of_isFault {p : Except Failure β} (h : isFault p = true) :
    ∃ f, p = .error (.fault f) := by
  match p, h with
  | .error (.fault f), _ => exact ⟨f, rfl⟩

theorem ok_of_not_isFault {p : Except Failure β} (hp : FailsWith Failure.IsFault p)
    (h : isFault p = false) : ∃ x, p = .ok x := by
  match p, h with
  | .ok x, _ => exact ⟨x, rfl⟩
  | .error (.error e), _ =>
    obtain ⟨f, hf⟩ := hp (.error e) rfl
    cases hf

theorem mapM_id_of_find?_none {P : List (Except Failure β)}
    (hP : ∀ p ∈ P, FailsWith Failure.IsFault p) (h : P.find? isFault = none) :
    ∃ rs, P.mapM id = .ok rs := by
  induction P with
  | nil => exact ⟨[], rfl⟩
  | cons p P ih =>
    have hp : isFault p = false := by
      simpa using List.find?_eq_none.mp h p (List.mem_cons_self ..)
    obtain ⟨x, rfl⟩ := ok_of_not_isFault (hP p (List.mem_cons_self ..)) hp
    rw [List.find?_cons_of_neg (by simp [hp])] at h
    obtain ⟨rs, hrs⟩ := ih (fun q hq => hP q (List.mem_cons_of_mem _ hq)) h
    exact ⟨x :: rs, by simp [hrs]; rfl⟩

theorem mapM_id_of_find?_some {P : List (Except Failure β)}
    (hP : ∀ p ∈ P, FailsWith Failure.IsFault p) {e : Failure}
    (h : P.find? isFault = some (.error e)) : P.mapM id = .error e := by
  induction P with
  | nil => cases h
  | cons p P ih =>
    cases hp : isFault p with
    | true =>
      rw [List.find?_cons_of_pos (by simp [hp])] at h
      cases h
      rfl
    | false =>
      obtain ⟨x, rfl⟩ := ok_of_not_isFault (hP p (List.mem_cons_self ..)) hp
      rw [List.find?_cons_of_neg (by simp [hp])] at h
      have hrest := ih (fun q hq => hP q (List.mem_cons_of_mem _ hq)) h
      simp [hrest]
      rfl

theorem mapM_flatten {γ : Type} (body : Nat → Except γ β) (Bs : List (List Nat)) :
    Bs.flatten.mapM body = (Bs.mapM fun b : List Nat => b.mapM body).map List.flatten := by
  induction Bs with
  | nil => rfl
  | cons b Bs ih =>
    rw [List.flatten_cons, List.mapM_append, ih, List.mapM_cons]
    cases b.mapM body with
    | error e => rfl
    | ok xs =>
      cases Bs.mapM fun b : List Nat => b.mapM body with
      | error e => rfl
      | ok rs => rfl

/-- When no chunk fails with a library error, joining the chunks is running them in
order up to the first fault, and then laying out the buffer of all results. -/
theorem join_eq {width len : Nat} {P : List (Except Failure (List β))}
    (hP : ∀ p ∈ P, FailsWith Failure.IsFault p) :
    join width len P =
      P.mapM id >>= fun rs => (do fitsBuffer width len; pure rs.flatten : Except Failure _) := by
  cases hf : P.find? isFault with
  | none =>
    obtain ⟨rs, hrs⟩ := mapM_id_of_find?_none hP hf
    simp only [join, hf, hrs]
    rfl
  | some p =>
    obtain ⟨f, rfl⟩ := eq_fault_of_isFault (List.find?_some hf)
    simp only [join, hf, mapM_id_of_find?_some hP hf]
    rfl

/-! ## The buffer of partial answers -/

/-- The answers of the chunks of a loop over `len` indices fit their buffer: the loop is
cut into at most one chunk, or its chunks' answers fit one buffer. -/
def PartialsFit (r : Range) (len : Nat) : Prop :=
  r.chunkCount len ≤ 1 ∨ r.chunkCount len * partialBytes ≤ bufferLimit

instance (r : Range) (len : Nat) : Decidable (r.PartialsFit len) :=
  inferInstanceAs (Decidable (_ ∨ _))

theorem partialsFit_iff {r : Range} {len : Nat} :
    r.PartialsFit len ↔ r.chunkCount len * partialBytes ≤ bufferLimit := by
  unfold PartialsFit partialBytes bufferLimit
  constructor
  · rintro (h | h)
    · exact Nat.le_trans (Nat.mul_le_mul_right 40 h) (by decide)
    · exact h
  · exact .inr

/-- A loop over fewer indices is cut into no more chunks. -/
theorem PartialsFit.of_le {r : Range} {len len' : Nat} (h : r.PartialsFit len)
    (hle : len' ≤ len) : r.PartialsFit len' := by
  rw [partialsFit_iff] at h ⊢
  refine Nat.le_trans (Nat.mul_le_mul_right _ ?_) h
  unfold chunkCount
  omega

/-- A loop over so few indices that their answers would fit one buffer never meets the
limit, whatever its degree. -/
theorem partialsFit_of_length {r : Range} {len : Nat} (h : len * partialBytes ≤ bufferLimit) :
    r.PartialsFit len :=
  partialsFit_iff.mpr (Nat.le_trans (Nat.mul_le_mul_right _ (Nat.min_le_right _ _)) h)

/-- A loop whose chunks' answers do not fit their buffer runs over some index. -/
theorem pos_of_not_partialsFit {r : Range} {len : Nat} (h : ¬r.PartialsFit len) : 0 < len :=
  Nat.pos_of_ne_zero fun h0 => h (partialsFit_of_length (by rw [h0]; decide))

theorem partialsFit_of_degree_le_one {r : Range} (hd : r.degree ≤ 1) (len : Nat) :
    r.PartialsFit len := by
  left
  unfold chunkCount
  omega

theorem reservePartials_eq_ok {r : Range} {len : Nat} (h : r.PartialsFit len) :
    (liftM (reservePartials (r.chunkCount len)) : Except Failure Unit) = pure () := by
  unfold reservePartials
  split
  · rfl
  · rw [fitsBuffer_of_le (partialsFit_iff.mp h)]
    rfl

theorem reservePartials_eq_error {r : Range} {len : Nat} (h : ¬r.PartialsFit len) :
    (liftM (reservePartials (r.chunkCount len)) : Except Failure Unit) =
      .error (.fault .capacityOverflow) := by
  have hmore : r.chunkCount len ≠ 1 := fun h1 => h (.inl (Nat.le_of_eq h1))
  unfold reservePartials
  rw [if_neg hmore]
  exact fitsBuffer_eq_error (mt partialsFit_iff.mpr h)

theorem reservePartials_failsWith (chunks : Nat) :
    FailsWith (· = .fault .capacityOverflow)
      (liftM (reservePartials chunks) : Except Failure Unit) := by
  unfold reservePartials
  split
  · exact failsWith_ok _
  · exact fitsBuffer_failsWith _ _

/-! ## Loops -/

/-- The loop run as one chunk: the buffer of all results, then the body on every index in
order, up to the first failure. -/
def sequential (cancelled : Bool) (width start stop : Nat) (body : Nat → Except Failure β) :
    Except Failure (List β) :=
  if stop ≤ start then pure []
  else if cancelled then .error (.error .cancelled)
  else do
    fitsBuffer width (stop - start)
    (List.range' start (stop - start)).mapM body

/-- A loop over an empty range runs nothing and returns no results. -/
theorem tryMap_of_le {r : Range} {width start stop : Nat} {body : Nat → Except Failure β}
    (hse : stop ≤ start) : r.tryMap width start stop body = pure [] := by
  rw [tryMap, if_pos hse]

/-- A loop over a range that is not empty stops at once when its token is cancelled. -/
theorem tryMap_cancelled {r : Range} {width start stop : Nat} {body : Nat → Except Failure β}
    (hne : start < stop) (hc : r.cancelled = true) :
    r.tryMap width start stop body = .error (.error .cancelled) := by
  rw [tryMap, if_neg (by omega), if_pos hc]

/-- A loop is the sequential one as soon as it is on a range that is not empty with a
token that is not cancelled: on the other ranges both return at once. -/
theorem tryMap_eq_sequential_of_running {r : Range} {width start stop : Nat}
    {body : Nat → Except Failure β}
    (h : start < stop → r.cancelled = false → r.tryMap width start stop body =
      (do fitsBuffer width (stop - start); (List.range' start (stop - start)).mapM body)) :
    r.tryMap width start stop body = sequential r.cancelled width start stop body := by
  unfold sequential
  by_cases hse : stop ≤ start
  · rw [if_pos hse, tryMap_of_le hse]
  cases hc : r.cancelled
  case true => rw [if_neg hse, if_pos rfl, tryMap_cancelled (by omega) hc]
  case false => rw [if_neg hse, if_neg Bool.false_ne_true, h (by omega) hc]

/-- A loop that runs: its chunks are the consecutive blocks `chunkIndices` lays out, each
laying out its own buffer before running its indices in order. -/
theorem tryMap_eq_join {r : Range} {width start stop : Nat} {body : Nat → Except Failure β}
    (hd : 1 ≤ r.degree) (hlen : stop - start ≤ Text.wordMax) (hne : start < stop)
    (hc : r.cancelled = false) (hp : r.PartialsFit (stop - start)) :
    r.tryMap width start stop body =
      join width (stop - start) ((List.range (r.chunkCount (stop - start))).map fun c =>
        let ix := chunkIndices start (stop - start) (r.chunkCount (stop - start)) c
        (do fitsBuffer width ix.length; ix.mapM body : Except Failure _)) := by
  have hchunks : 1 ≤ r.chunkCount (stop - start) ∧ r.chunkCount (stop - start) ≤ stop - start := by
    unfold chunkCount; omega
  unfold tryMap
  rw [if_neg (by omega), hc, if_neg Bool.false_ne_true]
  dsimp only
  rw [reservePartials_eq_ok hp, pure_bind]
  congr 1
  apply List.map_congr_left
  intro c hcmem
  have hc' : c < r.chunkCount (stop - start) := List.mem_range.mp hcmem
  rw [splitRange_eq (by omega) (Nat.le_trans hchunks.2 hlen) hc' hlen]
  simp only [mapIndices_eq, chunkIndices, List.length_range']
  rfl

/-- Every chunk of a loop whose body fails only with `q` fails only with `q`, when its
buffer can only fail with `q` too. -/
theorem chunk_failsWith {q : Failure → Prop} {width size : Nat} {l : List Nat}
    {body : Nat → Except Failure β} (hq : q (.fault .capacityOverflow))
    (hbody : ∀ i ∈ l, FailsWith q (body i)) :
    FailsWith q (do fitsBuffer width size; l.mapM body : Except Failure (List β)) := by
  refine FailsWith.bind (fun e he => ?_) fun _ _ => failsWith_mapM hbody
  rw [fitsBuffer_failsWith width size e he]
  exact hq

/-- The chunks of a loop fail only with `q` when its body does on the range and a buffer
that does not fit is a `q`. -/
theorem chunks_failsWith {q : Failure → Prop} {r : Range} {width start stop : Nat}
    {body : Nat → Except Failure β} (hq : q (.fault .capacityOverflow))
    (hbody : ∀ i, start ≤ i → i < stop → FailsWith q (body i)) :
    ∀ p ∈ (List.range (r.chunkCount (stop - start))).map (fun c =>
      let ix := chunkIndices start (stop - start) (r.chunkCount (stop - start)) c
      (do fitsBuffer width ix.length; ix.mapM body : Except Failure (List β))), FailsWith q p := by
  intro p hp
  obtain ⟨c, hc, rfl⟩ := List.mem_map.mp hp
  refine chunk_failsWith hq fun i hi => ?_
  have hrange := mem_chunkIndices (List.mem_range.mp hc) hi
  exact hbody i (by omega) (by omega)

/-- When all results fit one buffer, every chunk's buffer fits, and the chunks are the body
run over the consecutive blocks of indices. -/
theorem chunks_of_fit {r : Range} {width start stop : Nat} {body : Nat → Except Failure β}
    (hd : 1 ≤ r.chunkCount (stop - start)) (hfit : (stop - start) * width ≤ bufferLimit) :
    ((List.range (r.chunkCount (stop - start))).map fun c =>
      let ix := chunkIndices start (stop - start) (r.chunkCount (stop - start)) c
      (do fitsBuffer width ix.length; ix.mapM body : Except Failure (List β))) =
    ((List.range (r.chunkCount (stop - start))).map
      (chunkIndices start (stop - start) (r.chunkCount (stop - start)))).map
      (fun ix => ix.mapM body) := by
  rw [List.map_map]
  refine List.map_congr_left fun c hc => ?_
  have hend : chunkStart (stop - start) (r.chunkCount (stop - start)) (c + 1) ≤ stop - start :=
    chunkStart_le (by omega) (List.mem_range.mp hc)
  have hsize : (chunkIndices start (stop - start) (r.chunkCount (stop - start)) c).length ≤
      stop - start := by
    simp only [chunkIndices, List.length_range']
    omega
  dsimp only
  rw [fitsBuffer_eq_ok (Nat.le_trans (Nat.mul_le_mul_right width hsize) hfit), pure_bind]
  rfl

theorem chunkCount_pos {r : Range} {len : Nat} (hd : 1 ≤ r.degree) (hlen : 0 < len) :
    1 ≤ r.chunkCount len := by
  unfold chunkCount
  omega

/-- A loop whose body never fails with a library error has the answer of the sequential
loop, whatever its degree, as long as all results fit one buffer, or the body's only
failure is a buffer that does not fit. -/
theorem tryMap_eq_sequential {r : Range} {width start stop : Nat} {body : Nat → Except Failure β}
    (hd : 1 ≤ r.degree) (hlen : stop - start ≤ Text.wordMax) (hp : r.PartialsFit (stop - start))
    (hbody : r.cancelled = false → ∀ i, start ≤ i → i < stop → FailsWith Failure.IsFault (body i))
    (hfit : r.cancelled = false → (stop - start) * width ≤ bufferLimit ∨
      ∀ i, start ≤ i → i < stop → FailsWith (· = .fault .capacityOverflow) (body i)) :
    r.tryMap width start stop body = sequential r.cancelled width start stop body := by
  refine tryMap_eq_sequential_of_running fun hne hc => ?_
  rw [tryMap_eq_join hd hlen hne hc hp, join_eq (chunks_failsWith ⟨_, rfl⟩ (hbody hc))]
  dsimp only
  have hchunks : 1 ≤ r.chunkCount (stop - start) ∧ r.chunkCount (stop - start) ≤ stop - start := by
    unfold chunkCount; omega
  have hcover := chunks_flatten start (stop - start) (r.chunkCount (stop - start))
    (r.chunkCount (stop - start))
  rw [chunkStart_count (by omega)] at hcover
  rw [← hcover, mapM_flatten]
  by_cases hfits : (stop - start) * width ≤ bufferLimit
  · rw [chunks_of_fit hchunks.1 hfits, List.mapM_map, fitsBuffer_eq_ok hfits]
    simp only [pure_bind, Function.id_comp, bind_pure_comp]
    rfl
  · have hcap := (hfit hc).resolve_left hfits
    rw [fitsBuffer_eq_error hfits]
    exact bind_eq_error_of_failsWith (failsWith_mapM (chunks_failsWith rfl hcap)) fun _ => rfl

theorem join_singleton {width len : Nat} {x : Except Failure (List β)} :
    join width len [(do fitsBuffer width len; x : Except Failure _)] =
      (do fitsBuffer width len; x : Except Failure _) := by
  by_cases h : len * width ≤ bufferLimit
  · rw [fitsBuffer_eq_ok h, pure_bind]
    cases x with
    | ok l =>
      simp [join, isFault, fitsBuffer_eq_ok h, Except.map, Bind.bind, Except.bind, pure, Except.pure]
    | error e =>
      cases e with
      | error e => simp [join, isFault, fitsBuffer_eq_ok h]; rfl
      | fault f => rfl
  · rw [fitsBuffer_eq_error h]
    rfl

/-- A loop of degree one is the sequential loop. -/
theorem tryMap_degree_one {r : Range} {width start stop : Nat} {body : Nat → Except Failure β}
    (hd : r.degree = 1) (hlen : stop - start ≤ Text.wordMax) :
    r.tryMap width start stop body = sequential r.cancelled width start stop body := by
  refine tryMap_eq_sequential_of_running fun hne hc => ?_
  have hone : r.chunkCount (stop - start) = 1 := by
    unfold chunkCount; omega
  rw [tryMap_eq_join (by omega) hlen hne hc (partialsFit_of_degree_le_one (by omega) _), hone]
  simp only [List.range_one, List.map_cons, List.map_nil, chunkIndices, chunkStart_zero,
    chunkStart_count Nat.one_pos, Nat.add_zero, Nat.sub_zero, List.length_range']
  exact join_singleton

theorem mapM_of_ok {ε : Type} {l : List Nat} {body : Nat → Except ε β} {f : Nat → β}
    (h : ∀ i ∈ l, body i = pure (f i)) : l.mapM body = pure (l.map f) := by
  induction l with
  | nil => rfl
  | cons i l ih =>
    rw [List.mapM_cons, h i (List.mem_cons_self ..), ih fun j hj => h j (List.mem_cons_of_mem i hj)]
    rfl

/-- A loop whose body succeeds on every index of its range returns the body's results in
index order, whatever its degree, once its results fit one buffer. -/
theorem tryMap_of_ok {r : Range} {width start stop : Nat} {body : Nat → Except Failure β}
    {f : Nat → β} (hd : 1 ≤ r.degree) (hlen : stop - start ≤ Text.wordMax)
    (hc : r.cancelled = false) (hp : r.PartialsFit (stop - start))
    (hfit : (stop - start) * width ≤ bufferLimit)
    (hbody : ∀ i, start ≤ i → i < stop → body i = pure (f i)) :
    r.tryMap width start stop body = pure ((List.range' start (stop - start)).map f) := by
  have hfails : ∀ i, start ≤ i → i < stop → FailsWith Failure.IsFault (body i) := by
    intro i h1 h2
    rw [hbody i h1 h2]
    exact failsWith_ok _
  rw [tryMap_eq_sequential hd hlen hp (fun _ => hfails) (fun _ => .inl hfit)]
  unfold sequential
  by_cases hse : stop ≤ start
  · simp [hse]
  · rw [if_neg hse, hc, if_neg Bool.false_ne_true, fitsBuffer_eq_ok hfit, pure_bind]
    refine mapM_of_ok fun i hi => ?_
    rw [List.mem_range'_1] at hi
    exact hbody i hi.1 (by omega)

/-- Two loops that differ only in their degree give one answer, when the body fails only
with faults and the results fit one buffer, or the body's only fault is a buffer that does
not fit. -/
theorem tryMap_congr {r r' : Range} {width start stop : Nat} {body : Nat → Except Failure β}
    (hd : 1 ≤ r.degree) (hd' : 1 ≤ r'.degree) (hc : r.cancelled = r'.cancelled)
    (hlen : stop - start ≤ Text.wordMax) (hp : r.PartialsFit (stop - start))
    (hp' : r'.PartialsFit (stop - start))
    (hbody : r.cancelled = false → ∀ i, start ≤ i → i < stop → FailsWith Failure.IsFault (body i))
    (hfit : r.cancelled = false → (stop - start) * width ≤ bufferLimit ∨
      ∀ i, start ≤ i → i < stop → FailsWith (· = .fault .capacityOverflow) (body i)) :
    r.tryMap width start stop body = r'.tryMap width start stop body := by
  rw [tryMap_eq_sequential hd hlen hp hbody hfit,
    tryMap_eq_sequential hd' hlen hp' (hc ▸ hbody) (hc ▸ hfit), hc]

/-- A loop of more than one chunk whose chunks' answers do not fit their buffer faults
before any chunk runs. -/
theorem tryMap_partials_overflow {r : Range} {width start stop : Nat}
    {body : Nat → Except Failure β} (hne : start < stop) (hc : r.cancelled = false)
    (hp : ¬r.PartialsFit (stop - start)) :
    r.tryMap width start stop body = .error (.fault .capacityOverflow) := by
  unfold tryMap
  rw [if_neg (by omega), hc, if_neg Bool.false_ne_true]
  dsimp only
  rw [reservePartials_eq_error hp]
  rfl

/-- A loop over `[0, n)` whose chunks' answers do not fit their buffer faults. -/
theorem tryMap_zero_partials_overflow {r : Range} {width n : Nat} {body : Nat → Except Failure β}
    (hc : r.cancelled = false) (hp : ¬r.PartialsFit n) :
    r.tryMap width 0 n body = .error (.fault .capacityOverflow) :=
  tryMap_partials_overflow (pos_of_not_partialsFit hp) hc (by rwa [Nat.sub_zero])

/-- A loop whose token is not cancelled fails only with faults when its body does. -/
theorem tryMap_failsWith {r : Range} {width start stop : Nat} {body : Nat → Except Failure β}
    (hd : 1 ≤ r.degree) (hlen : stop - start ≤ Text.wordMax) (hc : r.cancelled = false)
    (hbody : ∀ i, start ≤ i → i < stop → FailsWith Failure.IsFault (body i)) :
    FailsWith Failure.IsFault (r.tryMap width start stop body) := by
  by_cases hse : stop ≤ start
  · rw [tryMap, if_pos hse]
    exact failsWith_ok _
  by_cases hp : r.PartialsFit (stop - start)
  case neg =>
    rw [tryMap_partials_overflow (by omega) hc hp]
    exact failsWith_lift (.error .capacityOverflow)
  rw [tryMap_eq_join hd hlen (by omega) hc hp, join_eq (chunks_failsWith ⟨_, rfl⟩ hbody)]
  refine FailsWith.bind (failsWith_mapM (chunks_failsWith ⟨_, rfl⟩ hbody)) fun _ _ =>
    FailsWith.bind (fun e he => ?_) fun _ _ => failsWith_ok _
  exact ⟨_, fitsBuffer_failsWith _ _ e he⟩

/-! ## Loops whose body cannot fail -/

/-- A loop over `[0, n)` whose body cannot fail passes when it runs and its chunks' answers
fit their buffer. -/
theorem guard_of_running {r : Range} {n : Nat} (hc : r.cancelled = false ∨ n = 0)
    (hp : r.PartialsFit n) : r.guard 0 n = pure () := by
  unfold guard
  rcases hc with hc | h0
  · split
    · rfl
    · rw [hc, if_neg Bool.false_ne_true]
      exact reservePartials_eq_ok hp
  · rw [if_pos (by omega)]

/-- A cancelled token stops a loop over a range that is not empty. -/
theorem guard_cancelled {r : Range} {n : Nat} (hc : r.cancelled = true) (hn : 0 < n) :
    r.guard 0 n = .error (.error .cancelled) := by
  unfold guard
  rw [if_neg (by omega), if_pos hc]

/-- A loop whose chunks' answers do not fit their buffer faults before any chunk runs. -/
theorem guard_partials_overflow {r : Range} {n : Nat} (hc : r.cancelled = false)
    (hp : ¬r.PartialsFit n) : r.guard 0 n = .error (.fault .capacityOverflow) := by
  unfold guard
  rw [if_neg (by have := pos_of_not_partialsFit hp; omega), hc, if_neg Bool.false_ne_true]
  exact reservePartials_eq_error hp

/-- A loop whose body cannot fail fails only when its token is cancelled or its chunks'
answers do not fit their buffer. -/
theorem guard_failsWith (r : Range) (start stop : Nat) :
    FailsWith (fun e => e = .error .cancelled ∨ e = .fault .capacityOverflow)
      (r.guard start stop) := by
  intro e he
  unfold guard at he
  split at he
  · cases he
  · split at he
    · cases he
      exact .inl rfl
    · exact .inr (reservePartials_failsWith _ e he)

/-- Two loops with one token whose chunks' answers fit their buffers answer alike. -/
theorem guard_congr {r r' : Range} {start stop : Nat} (hc : r.cancelled = r'.cancelled)
    (hp : r.PartialsFit (stop - start)) (hp' : r'.PartialsFit (stop - start)) :
    r.guard start stop = r'.guard start stop := by
  unfold guard
  rw [hc, reservePartials_eq_ok hp, reservePartials_eq_ok hp']

theorem join_ok {width len : Nat} {P : List (Except Failure (List β))} {xs : List β}
    (h : join width len P = .ok xs) : ∃ ys, P.mapM id = .ok ys ∧ xs = ys.flatten := by
  unfold join at h
  split at h
  · cases h
  · obtain ⟨_, _, h⟩ := bind_eq_ok h
    exact map_eq_ok h

/-- A loop that succeeds on a range that is not empty ran its chunks in order, each on its
indices `chunkIndices`, and answers their results joined: the inversion of `tryMap` at a
result. -/
theorem tryMap_ok_inv {r : Range} {width start stop : Nat} {body : Nat → Except Failure β}
    {xs : List β} (h : r.tryMap width start stop body = .ok xs) :
    xs = [] ∨ ∃ ys : List (List β), ((List.range (r.chunkCount (stop - start))).mapM fun c =>
      (chunkIndices start (stop - start) (r.chunkCount (stop - start)) c).mapM body) = .ok ys ∧
      xs = ys.flatten := by
  unfold tryMap at h
  split at h
  · cases h
    exact .inl rfl
  split at h
  · cases h
  dsimp only at h
  obtain ⟨_, -, h⟩ := bind_eq_ok h
  obtain ⟨ys, hys, rfl⟩ := join_ok h
  rw [List.mapM_map] at hys
  refine .inr ⟨ys, mapM_congr_ok hys fun c _ y hy => ?_, rfl⟩
  obtain ⟨⟨o, sz⟩, hsplit, hy⟩ := bind_eq_ok hy
  obtain ⟨_, _, hy⟩ := bind_eq_ok hy
  rw [mapIndices_eq] at hy
  obtain ⟨-, rfl, hstop⟩ := splitRange_ok (liftFault_ok hsplit)
  rw [chunkIndices, show chunkStart (stop - start) (r.chunkCount (stop - start)) (c + 1) -
    chunkStart (stop - start) (r.chunkCount (stop - start)) c = sz by omega]
  exact hy

/-- Every result of a loop that succeeds is the body's result on an index of the range. -/
theorem mem_of_tryMap_ok {r : Range} {width start stop : Nat} {body : Nat → Except Failure β}
    {xs : List β} (h : r.tryMap width start stop body = .ok xs) :
    ∀ x ∈ xs, ∃ i, start ≤ i ∧ i < stop ∧ body i = .ok x := by
  intro x hx
  rcases tryMap_ok_inv h with rfl | ⟨ys, hys, rfl⟩
  · cases hx
  obtain ⟨l, hl, hxl⟩ := List.mem_flatten.mp hx
  obtain ⟨c, hc, hcl⟩ := mem_of_mapM_ok hys l hl
  obtain ⟨i, hi, hbody⟩ := mem_of_mapM_ok hcl x hxl
  obtain ⟨hlo, hhi⟩ := mem_chunkIndices (List.mem_range.mp hc) hi
  exact ⟨i, hlo, by omega, hbody⟩

end SparseMatrix.Range

namespace SparseMatrix

/-! ## Copies chunk by chunk -/

/-- The slices of the first `k` chunks of a list, joined, are its items up to the start of
chunk `k`. -/
theorem slices_flatten {β : Type} (items : List β) (count k : Nat) :
    ((List.range k).map fun c => (items.drop (chunkStart items.length count c)).take
      (chunkStart items.length count (c + 1) - chunkStart items.length count c)).flatten =
      items.take (chunkStart items.length count k) := by
  induction k with
  | zero => simp [chunkStart_zero]
  | succ k ih =>
    have hmono : chunkStart items.length count k ≤ chunkStart items.length count (k + 1) :=
      chunkStart_mono (Nat.le_succ k)
    rw [List.range_succ, List.map_append, List.flatten_append, ih]
    simp only [List.map_cons, List.map_nil, List.flatten_cons, List.flatten_nil, List.append_nil]
    rw [← List.take_add, Nat.add_sub_cancel' hmono]

/-- A copy of a list of at most `Text.wordMax` items in at least one chunk copies every item
once, in order: no chunk faults, and the slices cover the list. -/
theorem copyChunks_eq {β : Type} {items : List β} {count : Nat} (hc : 0 < count)
    (hcount : count ≤ Text.wordMax) (hlen : items.length ≤ Text.wordMax) :
    copyChunks items count = .ok items := by
  unfold copyChunks
  rw [Range.mapM_of_ok (f := fun c => (items.drop (chunkStart items.length count c)).take
    (chunkStart items.length count (c + 1) - chunkStart items.length count c))]
  · rw [pure_bind, slices_flatten, chunkStart_count hc, List.take_length]
    rfl
  · -- each chunk is laid out by `splitRange` without a fault
    intro c hc'
    rw [splitRange_eq hc hcount (List.mem_range.mp hc') hlen, pure_bind]

/-- A copy in at least one chunk that succeeds copies every item once, in order: each
chunk it lays out starts where the one before ends. -/
theorem copyChunks_ok {β : Type} {items out : List β} {count : Nat} (hc : 0 < count)
    (h : copyChunks items count = .ok out) : out = items := by
  unfold copyChunks at h
  obtain ⟨slices, hslices, h⟩ := bind_eq_ok h
  cases h
  rw [eq_map_of_mapM_ok (f := fun c => (items.drop (chunkStart items.length count c)).take
    (chunkStart items.length count (c + 1) - chunkStart items.length count c)) hslices,
    slices_flatten, chunkStart_count hc, List.take_length]
  intro c _ slice hslice
  obtain ⟨⟨start, length⟩, hsplit, hslice⟩ := bind_eq_ok hslice
  cases hslice
  obtain ⟨-, rfl, hstop⟩ := splitRange_ok hsplit
  rw [← hstop, Nat.add_sub_cancel_left]

/-- An empty list is copied in no chunk. -/
theorem copyChunks_nil {β : Type} (r : Range) :
    copyChunks ([] : List β) (r.chunkCount 0) = .ok [] := by
  rw [show r.chunkCount 0 = 0 from Nat.min_zero _]
  rfl

/-- The copy in as many chunks as a loop over the list takes copies every item once, in
order, whatever the degree. -/
theorem copyChunks_chunkCount {β : Type} {items : List β} (d : Nat) (t : Bool)
    (hlen : items.length ≤ Text.wordMax) :
    copyChunks items ((Range.new d t).chunkCount items.length) = .ok items := by
  cases items with
  | nil => exact copyChunks_nil _
  | cons x xs =>
    -- a list that is not empty is cut into at least one chunk, at most one per item
    exact copyChunks_eq (Range.chunkCount_pos (Nat.le_max_right d 1) (Nat.succ_pos _))
      (Nat.le_trans (Nat.min_le_right _ _) hlen) hlen

/-- A copy in as many chunks as a loop over the list takes that succeeds copies every item
once, in order. -/
theorem copyChunks_chunkCount_ok {β : Type} {items out : List β} {d : Nat} {t : Bool}
    (h : copyChunks items ((Range.new d t).chunkCount items.length) = .ok out) : out = items := by
  cases items with
  | nil =>
    rw [List.length_nil, copyChunks_nil] at h
    cases h
    rfl
  | cons x xs => exact copyChunks_ok (Range.chunkCount_pos (Nat.le_max_right d 1) (Nat.succ_pos _)) h

end SparseMatrix
