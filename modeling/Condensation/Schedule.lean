/-
  Schedules — work items over disjoint parts of shared buffers, in any order.

  Every kernel over elements, faces or rows is a body that gets the number of its item and the
  part of the buffer that belongs to the item.  A schedule fixes nothing but the order in which
  the items run, one after another, on the shared buffer.

  1. **The program** — `Schedule.run` runs the items of a kernel in the order of the schedule.
     `each` gives every item one entry of a vector; `chunks`, `chunkPairs` and `segmentPairs`
     split flat buffers into `Segment`s first and give every item its slice (or a pair of
     slices of two buffers).

  2. **Splitting** — `Segment.chunksFrom` cuts a buffer into pieces of one length (the last may
     be shorter), `Segment.ofOffsets` takes the lengths from an offset table.  A segment carries
     the proof that it lies in its buffer, and the pieces of one splitting follow each other, so
     no item sees what another one writes.

  3. **Bodies** may abort; a body that only computes is one that always ends in a value.
-/
import Condensation.Indexing
import Condensation.Outcome

namespace Condensation

/-- An order in which work items run: each item exactly once. -/
structure Schedule where
  order : (n : Nat) → List (Fin n)
  order_perm : ∀ n, (order n).Perm (List.finRange n)

/-! ## Splitting a buffer -/

/-- A contiguous part of a buffer of `n` entries. -/
structure Segment (n : Nat) where
  start : Nat
  length : Nat
  fits : start + length ≤ n

namespace Segment

variable {n : Nat} {α : Type}

/-- The entries of the segment. -/
def read (g : Segment n) (buf : Vector α n) : Vector α g.length :=
  Vector.ofFn fun j =>
    have inside : g.start + j < n := by have := g.fits; omega
    buf[g.start + j.val]

/-- The buffer with the entries of the segment replaced. -/
def write (g : Segment n) (buf : Vector α n) (part : Vector α g.length) : Vector α n :=
  Vector.ofFn fun j =>
    if h : g.start ≤ j ∧ j < g.start + g.length then
      have inside : j - g.start < g.length := by omega
      part[j.val - g.start]
    else buf.get j

/-- The pieces of `len` entries from position `start` on; the last piece holds what is left. -/
def chunksFrom (n len : Nat) (pos : 0 < len) (start : Nat) : List (Segment n) :=
  if h : start < n then
    ⟨start, min len (n - start), by omega⟩ :: chunksFrom n len pos (start + len)
  else []
termination_by n - start

/-- The segments whose lengths are the steps of an offset table, laid out from `start` on.  A
    table that steps down, or past the end of the buffer, has none. -/
def stepsFrom (n start : Nat) : List Nat → Option (List (Segment n))
  | a :: b :: rest =>
    if h : a ≤ b ∧ start + (b - a) ≤ n then
      (stepsFrom n (start + (b - a)) (b :: rest)).map (⟨start, b - a, h.2⟩ :: ·)
    else none
  | _ => some []

/-- The segments described by an offset table.  Only the steps of the table count, so the first
    segment starts at the front of the buffer whatever the first offset is. -/
def ofOffsets (n : Nat) (offsets : List Nat) : Option (List (Segment n)) :=
  stepsFrom n 0 offsets

end Segment

/-! ## Running the items -/

namespace Schedule

variable {σ α β : Type} {n m : Nat}

/-- The items in the order of their numbers. -/
def inOrder : Schedule := ⟨List.finRange, fun _ => .rfl⟩

/-- The items from the last to the first. -/
def backwards : Schedule := ⟨fun n => (List.finRange n).reverse, fun _ => List.reverse_perm _⟩

/-- **The program**: run all `n` items on the shared state, one after another. -/
def run (s : Schedule) (n : Nat) (item : Fin n → σ → Outcome σ) (init : σ) : Outcome σ :=
  (s.order n).foldlM (fun st i => item i st) init

/-- Every item owns one entry of the vector. -/
def each (s : Schedule) (v : Vector α n) (body : Fin n → α → Outcome α) :
    Outcome (Vector α n) :=
  s.run n (fun i w => do
    let a ← body i (w.get i)
    return w.put i a) v

/-- Every item owns one segment of the buffer. -/
def onSegments (s : Schedule) (segs : List (Segment n)) (buf : Vector α n)
    (body : Nat → {len : Nat} → Vector α len → Outcome (Vector α len)) : Outcome (Vector α n) :=
  s.run segs.length (fun i buf => do
    let part ← body i (segs[i].read buf)
    return segs[i].write buf part) buf

/-- Every item owns one segment of each of two buffers. -/
def onSegmentPairs (s : Schedule) (segs : List (Segment n × Segment m))
    (bufs : Vector α n × Vector β m)
    (body : Nat → {p q : Nat} → Vector α p → Vector β q → Outcome (Vector α p × Vector β q)) :
    Outcome (Vector α n × Vector β m) :=
  s.run segs.length (fun i bufs => do
    let parts ← body i (segs[i].1.read bufs.1) (segs[i].2.read bufs.2)
    return (segs[i].1.write bufs.1 parts.1, segs[i].2.write bufs.2 parts.2)) bufs

/-- Run over the consecutive chunks of `len` entries.  Chunks of length zero leave the buffer as
    it is; otherwise the length must divide the buffer. -/
def chunks (s : Schedule) (buf : Vector α n) (len : Nat)
    (body : Nat → {len : Nat} → Vector α len → Outcome (Vector α len)) : Outcome (Vector α n) :=
  if h : 0 < len then do
    Outcome.check (n % len = 0)
    s.onSegments (Segment.chunksFrom n len h 0) buf body
  else
    return buf

/-- Run over two buffers split into the same number of chunks. -/
def chunkPairs (s : Schedule) (a : Vector α n) (aLen : Nat) (b : Vector β m) (bLen : Nat)
    (body : Nat → {p q : Nat} → Vector α p → Vector β q → Outcome (Vector α p × Vector β q)) :
    Outcome (Vector α n × Vector β m) :=
  if h : 0 < aLen ∧ 0 < bLen then do
    Outcome.check (n / aLen = m / bLen)
    s.onSegmentPairs
      ((Segment.chunksFrom n aLen h.1 0).zip (Segment.chunksFrom m bLen h.2 0)) (a, b) body
  else
    return (a, b)

/-- Run over two buffers split at the same offset table; what lies behind the last offset stays
    as it is. -/
def segmentPairs (s : Schedule) (a : Vector α n) (b : Vector β m) (offsets : List Nat)
    (body : Nat → {p q : Nat} → Vector α p → Vector β q → Outcome (Vector α p × Vector β q)) :
    Outcome (Vector α n × Vector β m) := do
  let segsA ← Outcome.ofOption (Segment.ofOffsets n offsets)
  let segsB ← Outcome.ofOption (Segment.ofOffsets m offsets)
  s.onSegmentPairs (segsA.zip segsB) (a, b) body

end Schedule

end Condensation
