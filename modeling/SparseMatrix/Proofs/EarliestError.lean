import SparseMatrix.Proofs.Loop

/-!
# Loops answer with the earliest error

A loop body that never faults, and only returns a value or a library error, gives a loop
whose answer does not depend on how the range is cut into chunks. Every chunk runs its
indices in order up to its first error, every chunk runs, and the earliest chunk that
failed decides; as the chunks are consecutive and in order, that is the error of the least
failing index. So `Range.tryMap` answers as the body run once over the range, left to
right (`tryMap_eq_sequential_of_errors`): the results in index order when every index
succeeds (`Range.mapM_of_ok`), the error of the least failing index otherwise
(`mapM_range'_eq_error`), `cancelled` on a cancelled range that is not empty, and no
results on an empty range. `tryMap_earliest_error` states this for every degree, the
degree zero included, which a range takes as one.

Two buffers stand before any answer. A loop of more than one chunk keeps its chunks'
answers in one before any chunk runs (`PartialsFit`), and the results are kept in another
(`fitsBuffer`). When either does not fit, neither the results nor the error come back: the
loop faults with `capacityOverflow`, whatever the body returns (`tryMap_partials_overflow`,
`tryMap_capacityOverflow`).
-/

namespace SparseMatrix

/-- A failure that is a library error, not a fault. -/
def Failure.IsError (e : Failure) : Prop :=
  ∃ e', e = .error e'

namespace Range

variable {β : Type}

@[simp] theorem degree_new (d : Nat) (c : Bool) : (new d c).degree = max d 1 :=
  rfl

@[simp] theorem cancelled_new (d : Nat) (c : Bool) : (new d c).cancelled = c :=
  rfl

/-! ## Joining chunks that fail with errors -/

theorem isFault_eq_false {p : Except Failure β} (hp : FailsWith Failure.IsError p) :
    isFault p = false := by
  match p, hp with
  | .ok _, _ => rfl
  | .error (.error _), _ => rfl
  | .error (.fault f), hp =>
    obtain ⟨e, he⟩ := hp (.fault f) rfl
    cases he

/-- Chunks that fail only with library errors are joined in order: the buffer of all
results, then the earliest error, else all results. -/
theorem join_of_errors {width len : Nat} {P : List (Except Failure (List β))}
    (hP : ∀ p ∈ P, FailsWith Failure.IsError p) :
    join width len P = (do fitsBuffer width len; (P.mapM id).map List.flatten : Except Failure _) := by
  have hnone : P.find? isFault = none :=
    List.find?_eq_none.mpr fun p hp => by rw [isFault_eq_false (hP p hp)]; exact Bool.false_ne_true
  unfold join
  rw [hnone]

/-- Chunks that fail with library errors or a buffer that does not fit fault when the
joined results do not fit one buffer. -/
theorem join_capacityOverflow {width len : Nat} {P : List (Except Failure (List β))}
    (hP : ∀ p ∈ P, FailsWith (fun e => e = .fault .capacityOverflow ∨ e.IsError) p)
    (h : ¬len * width ≤ bufferLimit) : join width len P = .error (.fault .capacityOverflow) := by
  unfold join
  cases hf : P.find? isFault with
  | none =>
    rw [fitsBuffer_eq_error h]
    rfl
  | some p =>
    -- the earliest chunk that faulted could only fault on its buffer
    obtain ⟨f, rfl⟩ := eq_fault_of_isFault (List.find?_some hf)
    rcases hP _ (List.mem_of_find?_eq_some hf) (.fault f) rfl with hcap | ⟨e, he⟩
    · rw [hcap]
    · cases he

/-- A loop whose body never faults has the answer of the sequential loop, whatever its
degree, as long as all results fit one buffer. -/
theorem tryMap_eq_sequential_of_errors {r : Range} {width start stop : Nat}
    {body : Nat → Except Failure β} (hd : 1 ≤ r.degree) (hlen : stop - start ≤ Text.wordMax)
    (hp : r.PartialsFit (stop - start))
    (hbody : ∀ i, start ≤ i → i < stop → FailsWith Failure.IsError (body i))
    (hfit : (stop - start) * width ≤ bufferLimit) :
    r.tryMap width start stop body = sequential r.cancelled width start stop body := by
  refine tryMap_eq_sequential_of_running fun hne hc => ?_
  have hcount : 1 ≤ r.chunkCount (stop - start) := chunkCount_pos hd (by omega)
  have hcover := chunks_flatten start (stop - start) (r.chunkCount (stop - start))
    (r.chunkCount (stop - start))
  rw [chunkStart_count (by omega)] at hcover
  have hchunks : ∀ P ∈ ((List.range (r.chunkCount (stop - start))).map
      (chunkIndices start (stop - start) (r.chunkCount (stop - start)))).map
      (fun ix => ix.mapM body), FailsWith Failure.IsError P := by
    intro P hP
    obtain ⟨ix, hix, rfl⟩ := List.mem_map.mp hP
    obtain ⟨c, hc, rfl⟩ := List.mem_map.mp hix
    refine failsWith_mapM fun i hi => ?_
    have hrange := mem_chunkIndices (List.mem_range.mp hc) hi
    exact hbody i (by omega) (by omega)
  rw [tryMap_eq_join hd hlen hne hc hp, chunks_of_fit hcount hfit, join_of_errors hchunks, ← hcover,
    mapM_flatten, List.mapM_map]
  rfl

/-! ## The loop run once over the range -/

/-- Running a body over consecutive indices stops at the least index where it fails, with
that index's error. -/
theorem mapM_range'_eq_error {ε : Type} {body : Nat → Except ε β} {i : Nat} {e : ε}
    (he : body i = .error e) :
    ∀ {start n : Nat}, start ≤ i → i < start + n →
      (∀ j, start ≤ j → j < i → ∃ x, body j = .ok x) →
      (List.range' start n).mapM body = .error e
  | _, 0, hi, hin, _ => absurd hin (by omega)
  | start, n + 1, hi, hin, hbefore => by
    rw [List.range'_succ, List.mapM_cons]
    by_cases hs : start = i
    · subst hs
      rw [he]
      rfl
    · -- the first index succeeds, and the rest of the range holds the least failing one
      obtain ⟨x, hx⟩ := hbefore start (Nat.le_refl _) (by omega)
      have hrest : (List.range' (start + 1) n).mapM body = .error e :=
        mapM_range'_eq_error he (by omega) (by omega) fun j hj hji => hbefore j (by omega) hji
      rw [hx, hrest]
      rfl

theorem failsWith_liftError {x : Except Error β} :
    FailsWith Failure.IsError (liftM x : Except Failure β) := by
  intro e he
  cases x with
  | error e' => exact ⟨e', by injection he with h; exact h.symm⟩
  | ok v => cases he

theorem mapM_liftError {l : List Nat} {body : Nat → Except Error β} :
    l.mapM (fun i => (liftM (body i) : Except Failure β)) = liftM (l.mapM body) := by
  induction l with
  | nil => rfl
  | cons i l ih =>
    rw [List.mapM_cons, List.mapM_cons, ih]
    cases body i with
    | error e => rfl
    | ok x =>
      cases l.mapM body with
      | error e => rfl
      | ok xs => rfl

/-- A loop whose results do not fit one buffer faults, whatever its degree and whatever
its body returns, once it runs. -/
theorem tryMap_capacityOverflow {r : Range} {width start stop : Nat}
    {body : Nat → Except Failure β} (hd : 1 ≤ r.degree) (hlen : stop - start ≤ Text.wordMax)
    (hne : start < stop) (hc : r.cancelled = false)
    (hbody : ∀ i, start ≤ i → i < stop → FailsWith Failure.IsError (body i))
    (hbig : ¬(stop - start) * width ≤ bufferLimit) :
    r.tryMap width start stop body = .error (.fault .capacityOverflow) := by
  by_cases hp : r.PartialsFit (stop - start)
  case neg => exact tryMap_partials_overflow hne hc hp
  rw [tryMap_eq_join hd hlen hne hc hp]
  refine join_capacityOverflow (fun p hp => ?_) hbig
  obtain ⟨c, hcm, rfl⟩ := List.mem_map.mp hp
  refine FailsWith.bind (fun e he => .inl (fitsBuffer_failsWith _ _ e he)) fun _ _ =>
    failsWith_mapM fun i hi => ?_
  have hrange := mem_chunkIndices (List.mem_range.mp hcm) hi
  exact fun e he => .inr (hbody i (by omega) (by omega) e he)

/-- For every degree, the degree zero taken as one, a loop over `[start, stop)` whose body
returns values or library errors and never faults answers as the body run once over the
range from left to right, when its chunks' answers and its results fit their buffers: no
results on an empty range, `cancelled` on a cancelled range that is not empty, the results
in index order when the body succeeds on every index, and otherwise the error of the least
index where it fails. When either buffer does not fit, the loop faults with
`capacityOverflow` instead. -/
theorem tryMap_earliest_error (d : Nat) (cancelled : Bool) (width start stop : Nat)
    (body : Nat → Except Error β) (hlen : stop - start ≤ Text.wordMax) :
    ((new d cancelled).PartialsFit (stop - start) → (stop - start) * width ≤ bufferLimit →
      (new d cancelled).tryMap width start stop (fun i => liftM (body i)) =
        liftM (if stop ≤ start then pure [] else if cancelled then .error .cancelled
          else (List.range' start (stop - start)).mapM body)) ∧
    (stop ≤ start → (new d cancelled).tryMap width start stop (fun i => liftM (body i)) = .ok []) ∧
    (start < stop → cancelled = true →
      (new d cancelled).tryMap width start stop (fun i => liftM (body i)) =
        .error (.error .cancelled)) ∧
    ((new d cancelled).PartialsFit (stop - start) → (stop - start) * width ≤ bufferLimit →
      cancelled = false → ∀ f : Nat → β, (∀ i, start ≤ i → i < stop → body i = .ok (f i)) →
      (new d cancelled).tryMap width start stop (fun i => liftM (body i)) =
        .ok ((List.range' start (stop - start)).map f)) ∧
    ((new d cancelled).PartialsFit (stop - start) → (stop - start) * width ≤ bufferLimit →
      cancelled = false → ∀ i e, start ≤ i → i < stop → body i = .error e →
      (∀ j, start ≤ j → j < i → ∃ x, body j = .ok x) →
      (new d cancelled).tryMap width start stop (fun i => liftM (body i)) =
        .error (.error e)) ∧
    (start < stop → cancelled = false →
      (¬(new d cancelled).PartialsFit (stop - start) ∨ ¬(stop - start) * width ≤ bufferLimit) →
      (new d cancelled).tryMap width start stop (fun i => liftM (body i)) =
        .error (.fault .capacityOverflow)) := by
  have hd : 1 ≤ (new d cancelled).degree := by
    rw [degree_new]
    exact Nat.le_max_right d 1
  have hbody : ∀ i, start ≤ i → i < stop → FailsWith Failure.IsError (liftM (body i)) :=
    fun _ _ _ => failsWith_liftError
  have hseq : (new d cancelled).PartialsFit (stop - start) →
      (stop - start) * width ≤ bufferLimit →
      (new d cancelled).tryMap width start stop (fun i => liftM (body i)) =
        liftM (if stop ≤ start then pure [] else if cancelled then .error .cancelled
          else (List.range' start (stop - start)).mapM body) := by
    intro hp hfit
    rw [tryMap_eq_sequential_of_errors hd hlen hp hbody hfit, sequential, cancelled_new]
    by_cases hse : stop ≤ start
    · rw [if_pos hse, if_pos hse]
      rfl
    rw [if_neg hse, if_neg hse]
    cases cancelled
    case true => rfl
    case false =>
      rw [if_neg Bool.false_ne_true, if_neg Bool.false_ne_true, fitsBuffer_eq_ok hfit, pure_bind,
        mapM_liftError]
  refine ⟨hseq, fun hse => ?_, fun hne hc => ?_, fun hp hfit hc f hf => ?_,
    fun hp hfit hc i e hi hin he hbefore => ?_, fun hne hc hbig => ?_⟩
  · exact tryMap_of_le hse
  · exact tryMap_cancelled hne (by rw [cancelled_new, hc])
  · rw [hseq hp hfit]
    by_cases hse : stop ≤ start
    · rw [if_pos hse, Nat.sub_eq_zero_of_le hse]
      rfl
    rw [if_neg hse, if_neg (by simp [hc]), mapM_of_ok fun j hj => ?_]
    · rfl
    · have hj' := List.mem_range'_1.mp hj
      exact hf j hj'.1 (by omega)
  · rw [hseq hp hfit, if_neg (by omega), if_neg (by simp [hc]),
      mapM_range'_eq_error he hi (by omega) hbefore]
    rfl
  · rcases hbig with hp | hbig
    · exact tryMap_partials_overflow hne (by rw [cancelled_new, hc]) hp
    · exact tryMap_capacityOverflow hd hlen hne (by rw [cancelled_new, hc]) hbody hbig

/-- A loop of degree four over `[3, 103)` whose body fails from index 25 on answers with
the error at 25. -/
theorem tryMap_earliest_error_from_25 :
    103 - 3 ≤ Text.wordMax ∧
    ((new 4 false).PartialsFit (103 - 3) → (103 - 3) * 8 ≤ bufferLimit →
      (new 4 false).tryMap 8 3 103 (fun i => liftM (if 25 ≤ i then
          (.error (.indexOutOfRange .row i 25) : Except Error Nat) else .ok i)) =
        liftM (if 103 ≤ 3 then pure [] else if false then .error .cancelled
          else (List.range' 3 (103 - 3)).mapM fun i => if 25 ≤ i then
            (.error (.indexOutOfRange .row i 25) : Except Error Nat) else .ok i)) ∧
    (103 ≤ 3 → (new 4 false).tryMap 8 3 103 (fun i => liftM (if 25 ≤ i then
        (.error (.indexOutOfRange .row i 25) : Except Error Nat) else .ok i)) = .ok []) ∧
    (3 < 103 → false = true → (new 4 false).tryMap 8 3 103 (fun i => liftM (if 25 ≤ i then
        (.error (.indexOutOfRange .row i 25) : Except Error Nat) else .ok i)) =
      .error (.error .cancelled)) ∧
    ((new 4 false).PartialsFit (103 - 3) → (103 - 3) * 8 ≤ bufferLimit → false = false →
      ∀ f : Nat → Nat, (∀ i, 3 ≤ i → i < 103 → (if 25 ≤ i then
        (.error (.indexOutOfRange .row i 25) : Except Error Nat) else .ok i) = .ok (f i)) →
      (new 4 false).tryMap 8 3 103 (fun i => liftM (if 25 ≤ i then
          (.error (.indexOutOfRange .row i 25) : Except Error Nat) else .ok i)) =
        .ok ((List.range' 3 (103 - 3)).map f)) ∧
    ((new 4 false).PartialsFit (103 - 3) → (103 - 3) * 8 ≤ bufferLimit → false = false →
      ∀ i e, 3 ≤ i → i < 103 →
      (if 25 ≤ i then (.error (.indexOutOfRange .row i 25) : Except Error Nat) else .ok i) =
        .error e →
      (∀ j, 3 ≤ j → j < i → ∃ x, (if 25 ≤ j then
        (.error (.indexOutOfRange .row j 25) : Except Error Nat) else .ok j) = .ok x) →
      (new 4 false).tryMap 8 3 103 (fun i => liftM (if 25 ≤ i then
          (.error (.indexOutOfRange .row i 25) : Except Error Nat) else .ok i)) =
        .error (.error e)) ∧
    (3 < 103 → false = false →
      (¬(new 4 false).PartialsFit (103 - 3) ∨ ¬(103 - 3) * 8 ≤ bufferLimit) →
      (new 4 false).tryMap 8 3 103 (fun i => liftM (if 25 ≤ i then
          (.error (.indexOutOfRange .row i 25) : Except Error Nat) else .ok i)) =
        .error (.fault .capacityOverflow)) :=
  ⟨by decide, tryMap_earliest_error 4 false 8 3 103 _ (by decide)⟩

/-- A loop over `2^61` indices with results of eight bytes faults before the error of its
first index can come back: the results could never fit one buffer. -/
theorem tryMap_overflows_before_first_error :
    (new 1 false).tryMap 8 0 2305843009213693952
        (fun _ => (liftM (.error .singular : Except Error Nat) : Except Failure Nat)) =
      .error (.fault .capacityOverflow) :=
  tryMap_capacityOverflow (by decide) (by decide) (by decide) rfl
    (fun _ _ _ => failsWith_liftError) (by decide)

end Range

end SparseMatrix
