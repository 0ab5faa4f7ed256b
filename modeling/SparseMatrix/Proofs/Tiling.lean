import SparseMatrix.Basic
import SparseMatrix.Proofs.Loop

/-!
# Chunks tile their range

`splitRange len c count` gives the start and the length of chunk `c` when `[0, len)` is cut
into `count` chunks. For every length and every number of chunks of at least one, both machine
words, every chunk is computed without a fault, and the chunks tile `[0, len)`: the first
starts at `0`, each starts where the one before ends and the last ends at `len` (`Tiles`). The
first `len % count` chunks hold `len / count + 1` indices and the others `len / count`.

The library cuts ranges in two places: every loop (`Range.tryMap`) and the copy of a matrix's
cells (`clone`, through `copyChunks`). Both take as many chunks as the degree allows and at
most one per index, so at least one for a range that is not empty, and lay out only the
chunks `0, …, count - 1`: a loop whose chunks' answers fit their buffer runs its body over
the tiles of its range (`tryMap_eq_join_tiles`), one whose answers do not fit faults before
it lays out any chunk, and a copy copies every cell once, in order
(`copyChunks_chunkCount`).
-/

namespace SparseMatrix

/-- `chunks`, given by their starts and lengths, cut `[start, stop)` into consecutive
intervals in order: the first starts at `start`, each starts where the one before ends, and
the last ends at `stop`. -/
inductive Tiles : Nat → List (Nat × Nat) → Nat → Prop
  | nil (stop : Nat) : Tiles stop [] stop
  | cons {start length stop : Nat} {chunks : List (Nat × Nat)} :
      Tiles (start + length) chunks stop → Tiles start ((start, length) :: chunks) stop

theorem tiles_nil_iff {start stop : Nat} : Tiles start [] stop ↔ start = stop := by
  constructor
  · rintro ⟨⟩
    rfl
  · rintro rfl
    exact .nil start

theorem tiles_cons_iff {start stop : Nat} {chunk : Nat × Nat} {chunks : List (Nat × Nat)} :
    Tiles start (chunk :: chunks) stop ↔ chunk.1 = start ∧ Tiles (start + chunk.2) chunks stop := by
  obtain ⟨s, l⟩ := chunk
  constructor
  · rintro (_ | h)
    exact ⟨rfl, h⟩
  · rintro ⟨rfl, h⟩
    exact .cons h

instance instDecidableTiles : (start : Nat) → (chunks : List (Nat × Nat)) → (stop : Nat) →
    Decidable (Tiles start chunks stop)
  | _, [], _ => decidable_of_iff _ tiles_nil_iff.symm
  | start, chunk :: chunks, stop =>
    have := instDecidableTiles (start + chunk.2) chunks stop
    decidable_of_iff _ tiles_cons_iff.symm

example : Tiles 0 [(0, 3), (3, 2), (5, 2)] 7 := by decide

example : ¬Tiles 0 [(0, 3), (4, 2), (6, 1)] 7 := by decide

/-- Chunk `c` of `[0, len)` cut into `count` chunks, as its start and its length. -/
def chunkBounds (len count c : Nat) : Nat × Nat :=
  (chunkStart len count c, chunkStart len count (c + 1) - chunkStart len count c)

/-- A chunk is one longer than the quotient while the remainder lasts. -/
theorem chunkBounds_length (len count c : Nat) :
    (chunkBounds len count c).2 = if c < len % count then len / count + 1 else len / count := by
  unfold chunkBounds
  rw [chunkStart_succ]
  omega

/-- The chunks `i, …, i + k - 1` tile the indices from the start of chunk `i` to the start of
chunk `i + k`. -/
theorem tiles_chunkBounds (len count k : Nat) :
    ∀ i, Tiles (chunkStart len count i) ((List.range' i k).map (chunkBounds len count))
      (chunkStart len count (i + k)) := by
  -- induction on the number of chunks, from chunk `i` on
  induction k with
  | zero => intro i; exact .nil _
  | succ k ih =>
    intro i
    have hmono : chunkStart len count i ≤ chunkStart len count (i + 1) :=
      chunkStart_mono (Nat.le_succ i)
    rw [List.range'_succ, List.map_cons]
    refine .cons ?_
    rw [Nat.add_sub_cancel' hmono, show i + (k + 1) = i + 1 + k by omega]
    exact ih (i + 1)

/-- Every chunk of a length and a number of chunks that are machine words, with at least one
chunk, is laid out without a fault. -/
theorem mapM_splitRange {len count : Nat} (hlen : len ≤ Text.wordMax) (hc : 0 < count)
    (hcount : count ≤ Text.wordMax) :
    (List.range count).mapM (fun c => splitRange len c count) =
      .ok ((List.range count).map (chunkBounds len count)) :=
  Range.mapM_of_ok fun _ hc' => splitRange_eq hc hcount (List.mem_range.mp hc') hlen

/-- The chunks of a range tile it, with the lengths of the remainder rule. -/
theorem splitRange_chunks {len count : Nat} (hlen : len ≤ Text.wordMax) (hc : 0 < count)
    (hcount : count ≤ Text.wordMax) :
    ∃ chunks, (List.range count).mapM (fun c => splitRange len c count) = .ok chunks ∧
      Tiles 0 chunks len ∧
      chunks.map Prod.snd = (List.range count).map fun c =>
        if c < len % count then len / count + 1 else len / count := by
  refine ⟨_, mapM_splitRange hlen hc hcount, ?_, ?_⟩
  · have htiles := tiles_chunkBounds len count count 0
    rwa [chunkStart_zero, Nat.zero_add, chunkStart_count hc, ← List.range_eq_range'] at htiles
  · rw [List.map_map]
    exact List.map_congr_left fun c _ => chunkBounds_length len count c

/-- A loop that runs, its chunks' answers fitting their buffer, lays out its chunks without
a fault and runs its body over them, each chunk laying out its own buffer first. -/
theorem tryMap_eq_join_tiles {β : Type} {d width start stop : Nat}
    {body : Nat → Except Failure β} (hne : start < stop) (hlen : stop - start ≤ Text.wordMax)
    (hp : (Range.new d false).PartialsFit (stop - start)) :
    (Range.new d false).tryMap width start stop body =
      Range.join width (stop - start)
        (((List.range ((Range.new d false).chunkCount (stop - start))).map
          (chunkBounds (stop - start) ((Range.new d false).chunkCount (stop - start)))).map
          fun p => (do fitsBuffer width p.2; mapIndices body (start + p.1) p.2 :
            Except Failure (List β))) := by
  rw [Range.tryMap_eq_join (Nat.le_max_right d 1) hlen hne rfl hp, List.map_map]
  congr 1
  refine List.map_congr_left fun c _ => ?_
  simp only [Function.comp, chunkIndices, chunkBounds, List.length_range', mapIndices_eq]

/-- **Chunks tile their range.** For every length and every number of chunks of at least one,
both machine words, every chunk `splitRange` lays out is computed without a fault; the chunks
tile `[0, len)` in order, the first `len % count` of them `len / count + 1` long and the others
`len / count`. Every loop over a range that is not empty cuts it into at least one chunk; when
its chunks' answers fit their buffer it lays out chunks `0, …, count - 1` without a fault and
runs its body over them, and otherwise it faults before it lays out any; the copy of a matrix
lays out its chunks of the cells without a fault and copies every cell once, in order. -/
theorem splitRange_tiles {α β : Type} :
    (∀ len count, len ≤ Text.wordMax → 0 < count → count ≤ Text.wordMax →
      ∃ chunks, (List.range count).mapM (fun c => splitRange len c count) = .ok chunks ∧
        Tiles 0 chunks len ∧
        chunks.map Prod.snd = (List.range count).map fun c =>
          if c < len % count then len / count + 1 else len / count) ∧
    (∀ (d width start stop : Nat) (body : Nat → Except Failure β), start < stop →
      stop - start ≤ Text.wordMax →
      0 < (Range.new d false).chunkCount (stop - start) ∧
      ∃ chunks, (List.range ((Range.new d false).chunkCount (stop - start))).mapM
          (fun c => splitRange (stop - start) c ((Range.new d false).chunkCount (stop - start))) =
            .ok chunks ∧
        ((Range.new d false).PartialsFit (stop - start) →
          (Range.new d false).tryMap width start stop body =
            Range.join width (stop - start) (chunks.map fun p =>
              (do fitsBuffer width p.2; mapIndices body (start + p.1) p.2 :
                Except Failure (List β)))) ∧
        (¬(Range.new d false).PartialsFit (stop - start) →
          (Range.new d false).tryMap width start stop body = .error (.fault .capacityOverflow))) ∧
    (∀ m : SparseMatrix α, m.entries.length ≤ Text.wordMax →
      copyChunks m.entries ((Range.new m.config.degree false).chunkCount m.entries.length) =
        .ok m.entries) := by
  refine ⟨fun len count hlen hc hcount => splitRange_chunks hlen hc hcount,
    fun d width start stop body hne hlen => ?_,
    fun m hlen => copyChunks_chunkCount _ _ hlen⟩
  have hpos : 0 < (Range.new d false).chunkCount (stop - start) :=
    Range.chunkCount_pos (Nat.le_max_right d 1) (by omega)
  exact ⟨hpos, _, mapM_splitRange hlen hpos (Nat.le_trans (Nat.min_le_right _ _) hlen),
    tryMap_eq_join_tiles hne hlen, Range.tryMap_partials_overflow hne rfl⟩

/-- The largest word cut in two: chunk `0` holds `2^63` indices and chunk `1` one fewer. -/
theorem splitRange_tiles_word_halves :
    ∃ chunks, (List.range 2).mapM (fun c => splitRange Text.wordMax c 2) = .ok chunks ∧
      Tiles 0 chunks Text.wordMax ∧
      chunks.map Prod.snd = [9223372036854775808, 9223372036854775807] := by
  obtain ⟨chunks, hsplit, htiles, hlengths⟩ :=
    (splitRange_tiles (α := Int) (β := Int)).1 Text.wordMax 2 (Nat.le_refl _) (by decide)
      (by decide)
  refine ⟨chunks, hsplit, htiles, ?_⟩
  rw [hlengths]
  decide

end SparseMatrix
