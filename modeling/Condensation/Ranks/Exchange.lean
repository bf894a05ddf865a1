/-
  Exchange — values, sums and matrix entries move to the ranks that own them.

  1. **Pulling** — `pull` asks the owners of some ascending indices for their values.

  2. **Pushing** — `push` sends contributions to the owners of their indices and adds up
     what arrives.

  3. **Routing** — `toRowOwners` sends every matrix entry to the owner of its row.

  A single rank never leaves its own memory.  What arrives is checked before it is used: an index
  outside the owned range, or data of the wrong length, is a fault.
-/
import Condensation.Ranks.Ownership
import Condensation.Algebra.Sparse.Triplets

namespace Condensation

namespace Exchange

variable {S : Type}

/-- The owned value at global index `g`. -/
def lookup (mine : IndexRange) (owned : List S) (g : Nat) : Outcome S :=
  if mine.Holds g then .ofOption owned[g - mine.first]?
  else .fault (.badExchange (.foreignIndex g mine.first mine.last))

/-- The values at the ascending global indices `wanted`.  Collective. -/
def pull (place : Place) (o : Ownership) (owned : List S) (wanted : List Nat) :
    Program S (List S) := do
  let mine ← o.rangeAt place.rank
  Outcome.sameLength .ownedValues mine.length owned.length
  if place.size = 1 then
    Program.ofOutcome (wanted.mapM (lookup mine owned))
  else
    let counts ← o.countsPerOwner wanted
    let (requests, requestCounts) ← Program.allToAllIndices wanted counts
    let replies ← Program.ofOutcome (requests.mapM (lookup mine owned))
    let (values, _) ← Program.allToAllValues replies requestCounts
    Outcome.sameLength .fetchedValues wanted.length values.length
    return values

/-- Add one contribution to the owned sums. -/
def addOwned [Add S] (mine : IndexRange) (sums : List S) (contribution : Nat × S) :
    Outcome (List S) :=
  if mine.Holds contribution.1 then
    .ok (sums.modify (contribution.1 - mine.first) (· + contribution.2))
  else .fault (.badExchange (.foreignIndex contribution.1 mine.first mine.last))

/-- The owned sums of contributions to the ascending global indices `indices`.  Collective. -/
def push [Zero S] [Add S] (place : Place) (o : Ownership) (indices : List Nat)
    (values : List S) : Program S (List S) := do
  Outcome.sameLength .contributions indices.length values.length
  let mine ← o.rangeAt place.rank
  let zeros : List S := List.replicate mine.length 0
  if place.size = 1 then
    Program.ofOutcome ((indices.zip values).foldlM (addOwned mine) zeros)
  else
    let counts ← o.countsPerOwner indices
    let (got, _) ← Program.allToAllIndices indices counts
    let (gotValues, _) ← Program.allToAllValues values counts
    Outcome.sameLength .receivedContributions got.length gotValues.length
    Program.ofOutcome ((got.zip gotValues).foldlM (addOwned mine) zeros)

/-- Put indices (row and column in turn) and values together again. -/
def pairUp : List Nat → List S → List (Triplet S)
  | row :: column :: indices, value :: values => ⟨row, column, value⟩ :: pairUp indices values
  | _, _ => []

/-- The matrix entries, of all ranks, whose rows this rank owns.  Collective. -/
def toRowOwners (place : Place) (o : Ownership) (triplets : List (Triplet S)) :
    Program S (List (Triplet S)) :=
  if place.size = 1 then
    return triplets
  else do
    let sorted := triplets.mergeSort fun a b => decide (a.row ≤ b.row)
    let counts ← o.countsPerOwner (sorted.map (·.row))
    let (indices, _) ← Program.allToAllIndices (sorted.flatMap fun t => [t.row, t.column])
      (counts.map (2 * ·))
    let (values, _) ← Program.allToAllValues (sorted.map (·.value)) counts
    Outcome.require (indices.length = 2 * values.length)
      (.badExchange (.unpairedTriplets indices.length values.length))
    return pairUp indices values

end Exchange

end Condensation
