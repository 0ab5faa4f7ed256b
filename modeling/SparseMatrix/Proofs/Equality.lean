import SparseMatrix.Proofs.Bounds

/-!
# Equality compares the values read

`beq` compares the sizes, then each written cell of either matrix with the other's value
at its key. With distinct keys a written cell is the value read at its key, and a key
that neither matrix writes reads zero on both sides. So, when the element's equality is
symmetric and zero equals zero, `beq` holds exactly when the sizes agree and the two
matrices read equal values at every index (`beq_iff_get`). So `beq` is blind to how a
value came to be read: matrices that read the same values compare alike with every
matrix, and a written zero never sets two matrices apart (`beq_congr_get`). Whatever the
element's equality, `beq` is symmetric, as each side checks the cells of both matrices
(`beq_comm`).

A matrix whose cells lie inside its bounds reads zero outside them
(`get_eq_zero_of_bounded`), so for such matrices the comparison over every index is the
comparison over the rows and columns of the size (`beq_iff_entrywise`). A cell on the
bounds, which only a write at the largest index leaves (the bounds saturate there), lies
outside every index the size names, yet `beq` compares it (`beq_sees_saturated_cell`).
-/

namespace SparseMatrix

variable {α : Type} [Arith α]

/-! ## Values read at keys -/

/-- With distinct keys, a written cell is the value read at its key. -/
theorem get_of_mem {m : SparseMatrix α} (hm : (m.entries.map Prod.fst).Nodup) {k : Key} {v : α}
    (hkv : (k, v) ∈ m.entries) : m.get k.row k.col = v := by
  rw [get, Store.find?_of_mem hm hkv, Option.getD_some]

/-- A key with no written cell reads zero. -/
theorem get_of_not_mem {m : SparseMatrix α} {r c : Nat}
    (h : ∀ v, ((⟨r, c⟩ : Key), v) ∉ m.entries) : m.get r c = Arith.zero := by
  rw [get, Store.find?_eq_none h, Option.getD_none]

/-- Cells inside the bounds leave zero at every index outside them. -/
theorem get_eq_zero_of_bounded {m : SparseMatrix α} (hin : m.store.Bounded 0) {r c : Nat}
    (h : m.rowCount ≤ r ∨ m.colCount ≤ c) : m.get r c = Arith.zero := by
  refine get_of_not_mem fun v hv => ?_
  have hlt := hin _ hv
  simp only [Nat.add_zero] at hlt
  rcases h with h | h
  · exact absurd hlt.1 (Nat.not_lt.mpr h)
  · exact absurd hlt.2 (Nat.not_lt.mpr h)

/-! ## Equality over every index -/

/-- Equality does not depend on the order of its operands: each side checks the cells of
both matrices against the other. -/
theorem beq_comm (A B : SparseMatrix α) : A.beq B = B.beq A := by
  have hdims : (A.dims == B.dims) = (B.dims == A.dims) := by
    by_cases h : A.dims = B.dims
    · rw [h]
    · rw [beq_eq_false_iff_ne.mpr h, beq_eq_false_iff_ne.mpr (Ne.symm h)]
  simp only [beq, hdims, Bool.and_assoc]
  rw [Bool.and_comm (A.entries.all _)]

section Symmetric

variable (heq : ∀ a b : α, Arith.eq a b = Arith.eq b a)
  (hz : Arith.eq (Arith.zero : α) Arith.zero = true)

include heq hz in
/-- With distinct keys, a symmetric element equality and zero equal to zero, two matrices
are equal exactly when their sizes agree and they read equal values at every index. -/
theorem beq_iff_get {A B : SparseMatrix α} (hA : (A.entries.map Prod.fst).Nodup)
    (hB : (B.entries.map Prod.fst).Nodup) :
    A.beq B = true ↔ A.dims = B.dims ∧ ∀ r c, Arith.eq (A.get r c) (B.get r c) = true := by
  simp only [beq, Bool.and_eq_true, List.all_eq_true, beq_iff_eq]
  constructor
  · rintro ⟨⟨hdims, hAB⟩, hBA⟩
    refine ⟨hdims, fun r c => ?_⟩
    by_cases ha : ∃ v, ((⟨r, c⟩ : Key), v) ∈ A.entries
    · obtain ⟨v, hv⟩ := ha
      rw [get_of_mem hA hv]
      exact hAB _ hv
    by_cases hb : ∃ w, ((⟨r, c⟩ : Key), w) ∈ B.entries
    · obtain ⟨w, hw⟩ := hb
      rw [get_of_mem hB hw, heq]
      exact hBA _ hw
    rw [get_of_not_mem fun v hv => ha ⟨v, hv⟩, get_of_not_mem fun w hw => hb ⟨w, hw⟩]
    exact hz
  · rintro ⟨hdims, hget⟩
    refine ⟨⟨hdims, fun kv hkv => ?_⟩, fun kv hkv => ?_⟩
    · have hv := get_of_mem hA hkv
      rw [← hv]
      exact hget _ _
    · have hw := get_of_mem hB hkv
      rw [← hw, heq]
      exact hget _ _

include heq hz in
/-- Two matrices of one size that read the same values compare alike with every matrix:
how a value came to be read, written or absent, does not matter. -/
theorem beq_congr_get {A A' B : SparseMatrix α} (hA : (A.entries.map Prod.fst).Nodup)
    (hA' : (A'.entries.map Prod.fst).Nodup) (hB : (B.entries.map Prod.fst).Nodup)
    (hdims : A'.dims = A.dims) (hget : ∀ r c, A'.get r c = A.get r c) :
    A'.beq B = A.beq B := by
  apply Bool.eq_iff_iff.mpr
  rw [beq_iff_get heq hz hA' hB, beq_iff_get heq hz hA hB, hdims]
  simp only [hget]

include heq hz in
/-- Matrices whose cells lie inside their bounds, each key once, are equal under a
symmetric element equality in which zero equals zero exactly when their sizes agree and
they read equal values inside the bounds, absent cells reading zero. Equality is
symmetric, and two matrices of one size reading the same values, one of them with zeros
written where the other has no cell, compare alike with every matrix. -/
theorem beq_iff_entrywise (A B : SparseMatrix α) (hA : (A.entries.map Prod.fst).Nodup)
    (hB : (B.entries.map Prod.fst).Nodup) (hinA : A.store.Bounded 0) (hinB : B.store.Bounded 0) :
    (A.beq B = true ↔ A.dims = B.dims ∧
      ∀ r c, r < A.rowCount → c < A.colCount → Arith.eq (A.get r c) (B.get r c) = true) ∧
    A.beq B = B.beq A ∧
    ∀ A' : SparseMatrix α, (A'.entries.map Prod.fst).Nodup → A'.dims = A.dims →
      (∀ r c, A'.get r c = A.get r c) → A'.beq B = A.beq B := by
  refine ⟨?_, beq_comm A B, fun A' hA' hdims hget => beq_congr_get heq hz hA hA' hB hdims hget⟩
  rw [beq_iff_get heq hz hA hB]
  constructor
  · rintro ⟨hdims, hget⟩
    exact ⟨hdims, fun r c _ _ => hget r c⟩
  · rintro ⟨hdims, hget⟩
    refine ⟨hdims, fun r c => ?_⟩
    by_cases hr : r < A.rowCount ∧ c < A.colCount
    · exact hget r c hr.1 hr.2
    have hrows : A.rowCount = B.rowCount := congrArg Prod.fst hdims
    have hcols : A.colCount = B.colCount := congrArg Prod.snd hdims
    have hout : A.rowCount ≤ r ∨ A.colCount ≤ c := by omega
    rw [get_eq_zero_of_bounded hinA hout, get_eq_zero_of_bounded hinB (by omega)]
    exact hz

end Symmetric

/-- The integers compare symmetrically, and zero equals zero. -/
theorem int_eq_symm : ∀ a b : Int, Arith.eq a b = Arith.eq b a := fun a b =>
  Bool.eq_iff_iff.mpr (by simp only [Arith.eq, beq_iff_eq]; exact eq_comm)

open Host in
/-- A `2 × 2` matrix with a zero written at `(1, 1)` against the same matrix without it. -/
theorem beq_iff_entrywise_stored_zero :
    (∀ a b : Int, Arith.eq a b = Arith.eq b a) ∧ Arith.eq (Arith.zero : Int) Arith.zero = true ∧
    ((((zeros 2 2 : SparseMatrix Int).set 0 0 1).set 1 1 0).entries.map Prod.fst).Nodup ∧
    (((zeros 2 2 : SparseMatrix Int).set 0 0 1).entries.map Prod.fst).Nodup ∧
    (((zeros 2 2 : SparseMatrix Int).set 0 0 1).set 1 1 0).store.Bounded 0 ∧
    ((zeros 2 2 : SparseMatrix Int).set 0 0 1).store.Bounded 0 ∧
    (((((zeros 2 2 : SparseMatrix Int).set 0 0 1).set 1 1 0).beq ((zeros 2 2 : SparseMatrix Int).set 0 0 1) = true ↔
        (((zeros 2 2 : SparseMatrix Int).set 0 0 1).set 1 1 0).dims = ((zeros 2 2 : SparseMatrix Int).set 0 0 1).dims ∧
      ∀ r c, r < (((zeros 2 2 : SparseMatrix Int).set 0 0 1).set 1 1 0).rowCount →
        c < (((zeros 2 2 : SparseMatrix Int).set 0 0 1).set 1 1 0).colCount →
        Arith.eq ((((zeros 2 2 : SparseMatrix Int).set 0 0 1).set 1 1 0).get r c) (((zeros 2 2 : SparseMatrix Int).set 0 0 1).get r c) = true) ∧
    (((zeros 2 2 : SparseMatrix Int).set 0 0 1).set 1 1 0).beq ((zeros 2 2 : SparseMatrix Int).set 0 0 1) =
      ((zeros 2 2 : SparseMatrix Int).set 0 0 1).beq (((zeros 2 2 : SparseMatrix Int).set 0 0 1).set 1 1 0) ∧
    ∀ A' : SparseMatrix Int, (A'.entries.map Prod.fst).Nodup →
      A'.dims = (((zeros 2 2 : SparseMatrix Int).set 0 0 1).set 1 1 0).dims →
      (∀ r c, A'.get r c = (((zeros 2 2 : SparseMatrix Int).set 0 0 1).set 1 1 0).get r c) →
      A'.beq ((zeros 2 2 : SparseMatrix Int).set 0 0 1) = (((zeros 2 2 : SparseMatrix Int).set 0 0 1).set 1 1 0).beq ((zeros 2 2 : SparseMatrix Int).set 0 0 1)) := by
  have hA : ((((zeros 2 2 : SparseMatrix Int).set 0 0 1).set 1 1 0).entries.map Prod.fst).Nodup := by decide
  have hB : (((zeros 2 2 : SparseMatrix Int).set 0 0 1).entries.map Prod.fst).Nodup := by decide
  have hinA : (((zeros 2 2 : SparseMatrix Int).set 0 0 1).set 1 1 0).store.Bounded 0 := by
    unfold Store.Bounded
    decide
  have hinB : ((zeros 2 2 : SparseMatrix Int).set 0 0 1).store.Bounded 0 := by
    unfold Store.Bounded
    decide
  exact ⟨int_eq_symm, rfl, hA, hB, hinA, hinB,
    beq_iff_entrywise int_eq_symm rfl _ _ hA hB hinA hinB⟩

open Host in
/-- A write at the largest row leaves a cell on the saturated bound: no index of the size
reaches it, so the matrix reads as the zero matrix of its size everywhere inside, yet
`beq` compares the cell and tells the two apart. -/
theorem beq_sees_saturated_cell :
    ((new : SparseMatrix Int).set Text.wordMax 0 1).dims = (zeros Text.wordMax 1 : SparseMatrix Int).dims ∧
    (∀ r c, r < ((new : SparseMatrix Int).set Text.wordMax 0 1).rowCount →
      c < ((new : SparseMatrix Int).set Text.wordMax 0 1).colCount →
      Arith.eq (((new : SparseMatrix Int).set Text.wordMax 0 1).get r c)
        ((zeros Text.wordMax 1 : SparseMatrix Int).get r c) = true) ∧
    ((new : SparseMatrix Int).set Text.wordMax 0 1).beq (zeros Text.wordMax 1) = false := by
  have hrows : ((new : SparseMatrix Int).set Text.wordMax 0 1).rowCount = Text.wordMax := by
    decide
  refine ⟨by decide, fun r c hr _ => ?_, by decide⟩
  rw [hrows] at hr
  rw [get_set, if_neg fun h => Nat.ne_of_gt hr h.1]
  rfl

end SparseMatrix
