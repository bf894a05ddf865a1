/-
  Ownership — which rank owns which part of a global index space.

  Every rank owns one contiguous range of the indices `0, …, n - 1`, and the ranges follow each
  other in rank order; some of them may be empty.  Such a tiling is determined by the lengths of
  its ranges, and that is all an `Ownership` holds: starts and ends are sums of lengths.

  1. **Agreement** — `Ownership.gather` collects every rank's claimed range and refuses a family
     that leaves a gap, overlaps, or does not end at the global size.

  2. **Lookup** — `owner g` is the last rank whose range starts at or before `g` (among the ranks
     there are).  For an index of the space that is the rank whose range holds it: the ranks
     after it start later, and empty ranges before it are passed over.

  3. **Routing** — `countsPerOwner` says how many of some indices go to each rank.
-/
import Condensation.Ranks.Program

namespace Condensation

/-- A range of indices, from `first` up to but not including `last`. -/
structure IndexRange where
  first : Nat
  last : Nat
  deriving DecidableEq, Repr

namespace IndexRange

/-- Number of indices in the range. -/
def length (r : IndexRange) : Nat := r.last - r.first

/-- The index lies in the range. -/
def Holds (r : IndexRange) (g : Nat) : Prop := r.first ≤ g ∧ g < r.last

instance (r : IndexRange) (g : Nat) : Decidable (r.Holds g) :=
  inferInstanceAs (Decidable (_ ∧ _))

end IndexRange

/-- A tiling of a global index space by one range per rank, given by the lengths of the ranges. -/
structure Ownership where
  lengths : List Nat
  deriving DecidableEq, Repr

namespace Ownership

variable {S : Type}

/-- Number of ranks. -/
def numRanks (o : Ownership) : Nat := o.lengths.length

/-- Number of global indices. -/
def globalSize (o : Ownership) : Nat := o.lengths.foldr (· + ·) 0

/-- Where the range of rank `r` starts. -/
def start (o : Ownership) (r : Nat) : Nat := (o.lengths.take r).foldr (· + ·) 0

/-- The range of rank `r`. -/
def range (o : Ownership) (r : Nat) : IndexRange := ⟨o.start r, o.start (r + 1)⟩

/-- The range of a rank given by number; there is none beyond the last rank. -/
def rangeAt (o : Ownership) (r : Nat) : Outcome IndexRange :=
  if r < o.numRanks then .ok (o.range r) else .abort

/-! ## Agreement -/

/-- The lengths of claimed ranges (start and length in turn), given the rank to come and the end
    of the ranges before it.  Refuses the first range that does not start there. -/
def tiled (rank next : Nat) : List Nat → Outcome (List Nat × Nat)
  | start :: length :: rest => do
    let last ← Size.sum start length
    if start = next then
      let (lengths, stop) ← tiled (rank + 1) last rest
      return (length :: lengths, stop)
    else
      .fault (.badNumbering (.rangeGap rank start last next))
  | _ => return ([], next)

/-- Collect the ranges of all ranks.  Collective. -/
def gather (place : Place) (offset length global : Nat) : Program S Ownership := do
  let pairs ← Program.allGather [offset, length]
  let expected ← Size.product [2, place.size]
  Outcome.sameLength .gatheredRanges expected pairs.length
  let (lengths, stop) ← tiled 0 0 pairs
  Outcome.require (stop = global) (.badNumbering (.rangesCover stop global))
  return ⟨lengths⟩

/-! ## Lookup and routing -/

/-- The starts of all ranges, and the end of the last one. -/
def bounds (o : Ownership) : List Nat :=
  (List.range (o.numRanks + 1)).map o.start

/-- The rank that owns index `g`; beyond the end of the space, the last rank.  There is no answer
    without ranks. -/
def owner (o : Ownership) (g : Nat) : Outcome Nat :=
  if o.numRanks = 0 then .abort
  else .ok (min ((o.bounds.takeWhile (· ≤ g)).length - 1) (o.numRanks - 1))

/-- How many of the indices each rank owns. -/
def countsPerOwner (o : Ownership) (indices : List Nat) : Outcome (List Nat) := do
  let owners ← indices.mapM o.owner
  return (List.range o.numRanks).map fun r => owners.count r

end Ownership

end Condensation
