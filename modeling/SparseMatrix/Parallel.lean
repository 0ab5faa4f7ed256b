import SparseMatrix.Buffer
import SparseMatrix.Error
import SparseMatrix.Text.Blank
import SparseMatrix.Text.Integer

/-!
# Loops over index ranges

Bulk operations are loops over a range of indices, cut into at most `degree`
consecutive chunks. `splitRange len chunk count` gives the start and the length of a
chunk: the first `len % count` chunks are one longer than the others.

`Range.tryMap` runs a body on every index of `[start, stop)`. Each chunk runs its indices
in order and stops at its first failure; every chunk runs. A fault in any chunk stops the
call, the fault of the earliest such chunk; otherwise the error of the earliest failing
chunk is the answer, and otherwise the results in index order. A range whose token is
cancelled fails with `cancelled` as soon as it is not empty.

The results are kept in buffers, `width` bytes each (`Buffer`): every chunk first lays out
the buffer for its own results, and the joined results take one more buffer before the
chunks' errors are looked at. A loop that keeps no results has width zero. A loop of more
than one chunk first lays out the buffer of its chunks' answers, `partialBytes` each, before
any chunk runs (`Range.reservePartials`): a degree large enough for that buffer not to fit
faults at once, whatever the body.

The largest number of chunks is set by a matrix's configuration (`Config`), whose default is
the size of the worker pool of the host.
-/

namespace SparseMatrix

/-!
## Configuration

A `Config` holds the largest number of chunks a loop is cut into. The default is the
size of the worker pool of the `Host` the library runs on, and at least one. `Config.new`
refuses zero; `Config.ofEnv` reads the setting from the text of an environment variable,
trimmed, and falls back to the default when the variable is unset.
-/

/-- The machine the library runs on: the number of workers of its thread pool. -/
class Host where
  threads : Nat

namespace Host

/-- A host with one worker, on which the examples of the library are run. -/
scoped instance single : Host := ⟨1⟩

end Host

/-- Settings of a matrix. -/
structure Config where
  degree : Nat
  deriving DecidableEq, Repr

namespace Config

/-- The default: as many chunks per loop as the host has workers, and at least one. -/
def default [Host] : Config := ⟨max Host.threads 1⟩

/-- A configuration with a positive degree. -/
def new (degree : Nat) : Except Error Config :=
  if degree = 0 then .error .degreeNotPositive else pure ⟨degree⟩

/-- The configuration from the text of the environment variable, or the default when it
is unset. -/
def ofEnv [Host] : Option String → Except Error Config
  | none => pure default
  | some raw =>
    match Text.readSize? (Text.trimChars raw.toList) with
    | none => .error (.degreeText raw)
    | some degree => new degree

end Config

/-! ## Chunks and loops -/

/-- The start and length of chunk `chunk` when `[0, len)` is split into `count` chunks,
computed with checked word arithmetic: a zero `count` faults, and so does a chunk index
whose start does not fit. -/
def splitRange (len chunk count : Nat) : Except Fault (Nat × Nat) := do
  let size ← Size.div len count
  let rem ← Size.rem len count
  let chunkStart (i : Nat) : Except Fault Nat :=
    if i < rem then do
      let step ← Size.add size 1
      Size.mul i step
    else do
      let offset ← Size.mul i size
      Size.add rem offset
  let start ← chunkStart chunk
  let next ← Size.add chunk 1
  let stop ← chunkStart next
  let length ← Size.sub stop start
  return (start, length)

/-- The items of `items` copied chunk by chunk: `[0, items.length)` is cut into `count`
chunks by `splitRange`, and each chunk copies its slice, chunk `0` first. -/
def copyChunks {β : Type} (items : List β) (count : Nat) : Except Fault (List β) := do
  let slices ← (List.range count).mapM fun c => do
    let (start, length) ← splitRange items.length c count
    return (items.drop start).take length
  return slices.flatten

/-- `body` on the `count` indices from `start` on, in order, stopping at the first failure.
The indices are taken one at a time, so a failure on the first index ends the loop however
long the range is; the answer is that of `(List.range' start count).mapM body`
(`mapIndices_eq`). -/
def mapIndices {ε β : Type} (body : Nat → Except ε β) (start count : Nat) :
    Except ε (List β) :=
  go start count []
where
  /-- The loop from index `i` with `k` indices left, the results so far reversed. -/
  go (i : Nat) : Nat → List β → Except ε (List β)
    | 0, acc => pure acc.reverse
    | k + 1, acc =>
      match body i with
      | .error e => .error e
      | .ok x => go (i + 1) k (x :: acc)

theorem mapIndices_go {ε β : Type} (body : Nat → Except ε β) (k : Nat) :
    ∀ (i : Nat) (acc : List β), mapIndices.go body i k acc =
      ((List.range' i k).mapM body).map (acc.reverse ++ ·) := by
  induction k with
  | zero => intro i acc; simp [mapIndices.go, Except.map, pure, Except.pure]
  | succ k ih =>
    intro i acc
    rw [List.range'_succ, List.mapM_cons]
    simp only [mapIndices.go]
    cases h : body i with
    | error e => rfl
    | ok x =>
      show mapIndices.go body (i + 1) k (x :: acc) = _
      rw [ih (i + 1) (x :: acc)]
      cases (List.range' (i + 1) k).mapM body <;>
        simp [bind, Except.bind, Except.map, pure, Except.pure]

theorem mapIndices_eq {ε β : Type} (body : Nat → Except ε β) (start count : Nat) :
    mapIndices body start count = (List.range' start count).mapM body := by
  unfold mapIndices
  rw [mapIndices_go]
  cases (List.range' start count).mapM body <;> rfl

/-- How a loop runs: in at most `degree` chunks, and not at all once `cancelled`. -/
structure Range where
  degree : Nat
  cancelled : Bool
  deriving DecidableEq, Repr

namespace Range

/-- A range of at most `degree` chunks; a degree of zero counts as one. -/
def new (degree : Nat) (cancelled : Bool) : Range :=
  ⟨max degree 1, cancelled⟩

/-- The number of chunks for a range of `len` indices. -/
def chunkCount (r : Range) (len : Nat) : Nat :=
  min r.degree len

/-- Whether a partial result is a fault. -/
def isFault {β : Type} : Except Failure β → Bool
  | .error (.fault _) => true
  | _ => false

/-- Joins the chunks' results: the earliest fault, else the buffer of all `len` results
of `width` bytes, else the earliest error, else all results in order. -/
def join {β : Type} (width len : Nat) (partials : List (Except Failure (List β))) :
    Except Failure (List β) :=
  match partials.find? isFault with
  | some (.error f) => .error f
  | _ => do
    fitsBuffer width len
    (partials.mapM id).map List.flatten

/-- Lays out the buffer of the answers of `chunks` chunks before any of them runs. One
chunk keeps its answer alone; more take `partialBytes` bytes each. -/
def reservePartials (chunks : Nat) : Except Fault Unit :=
  if chunks = 1 then pure () else fitsBuffer partialBytes chunks

/-- Runs `body` on every index of `[start, stop)`, chunk by chunk, keeping results of
`width` bytes. -/
def tryMap {β : Type} (r : Range) (width start stop : Nat) (body : Nat → Except Failure β) :
    Except Failure (List β) :=
  if stop ≤ start then pure []
  else if r.cancelled then .error (.error .cancelled)
  else
    let len := stop - start
    let chunks := r.chunkCount len
    let runChunk (c : Nat) : Except Failure (List β) := do
      let (offset, size) ← splitRange len c chunks
      fitsBuffer width size
      mapIndices body (start + offset) size
    do
      reservePartials chunks
      join width len ((List.range chunks).map runChunk)

/-- A loop over `[start, stop)` whose body cannot fail: it fails only when the range is
not empty and cancelled, or when the buffer of its chunks' answers does not fit. -/
def guard (r : Range) (start stop : Nat) : Except Failure Unit :=
  if stop ≤ start then pure ()
  else if r.cancelled then .error (.error .cancelled)
  else liftM (reservePartials (r.chunkCount (stop - start)))

end Range

end SparseMatrix
