/-
  Owner tables — the inverse of a table of targets.

  `OwnerTable.ofTargets` sorts the numbers `0, …, K - 1` by their targets among `L`: it counts how
  often each target occurs, turns the counts into the offsets where each target's list starts,
  and then lays the numbers down one after another, moving a cursor for every target.  The
  numbers of one target come out in ascending order.
-/
import Condensation.Indexing

namespace Condensation

/-- The numbers below `K`, arranged by their targets below `L`. -/
structure OwnerTable (K L : Nat) where
  offsets : Vector Nat (L + 1)
  owners : Vector (Fin K) K

namespace OwnerTable

variable {K L : Nat}

/-- Count one more occurrence of target `r`, one place behind it. -/
def countOne (o : Vector Nat (L + 1)) (r : Fin L) : Vector Nat (L + 1) :=
  o.put r.succ (o.get r.succ + 1)

/-- How often each target occurs, one place behind it. -/
def counts (targets : Vector (Fin L) K) : Vector Nat (L + 1) :=
  targets.toList.foldl countOne (Vector.replicate (L + 1) 0)

/-- Add what comes before target `r` to its count. -/
def addBefore (o : Vector Nat (L + 1)) (r : Fin L) : Vector Nat (L + 1) :=
  o.put r.succ (o.get r.succ + o.get r.castSucc)

/-- Where the list of each target starts, and where the last one ends. -/
def starts (counts : Vector Nat (L + 1)) : Vector Nat (L + 1) :=
  (List.finRange L).foldl addBefore counts

/-- Lay down number `k` at the cursor of its target. -/
def place (targets : Vector (Fin L) K) (state : Vector Nat L × Vector (Fin K) K) (k : Fin K) :
    Vector Nat L × Vector (Fin K) K :=
  let r := targets.get k
  (state.1.put r (state.1.get r + 1), state.2.setIfInBounds (state.1.get r) k)

/-- **The program**: sort the numbers by their targets. -/
def ofTargets (targets : Vector (Fin L) K) : OwnerTable K L :=
  let offsets := starts (counts targets)
  let cursors := Vector.ofFn fun r : Fin L => offsets.get r.castSucc
  { offsets := offsets
    owners := ((List.finRange K).foldl (place targets) (cursors, Vector.ofFn id)).2 }

/-- The numbers with target `r`. -/
def of (table : OwnerTable K L) (r : Fin L) : List (Fin K) :=
  (table.owners.toList.drop (table.offsets.get r.castSucc)).take
    (table.offsets.get r.succ - table.offsets.get r.castSucc)

end OwnerTable

end Condensation
