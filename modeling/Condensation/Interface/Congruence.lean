/-
  Congruence — the interface matrix in true degrees of freedom.

  With local interface matrices `H` and prolongations `P`, the distributed matrix is the sum of
  `Pᵀ H P` over all ranks.  `TrueDofs.congruence` expands the products of this rank into single
  entries, sends each of them to the owner of its row, and builds the rows that this rank owns
  from what arrives.
-/
import Condensation.Dofs.TrueDofs
import Condensation.Ranks.RowBlock

namespace Condensation

namespace TrueDofs

variable {S : Type} {l : Nat}

/-- The entries of `Pᵀ H P` that come from one entry of `H`, in row `i`.  Aborts where `H` has
    more columns than there are local degrees of freedom. -/
def expandEntry [Mul S] (link : TrueDofs S l) (i : Fin l) {c : Nat} (h : Fin c × S) :
    Outcome (List (Triplet S)) := do
  let right ← link.prolongation.rowAt h.1
  return (link.prolongation.row i).flatMap fun a =>
    right.map fun b => ⟨a.1, b.1, a.2 * h.2 * b.2⟩

/-- The entries of `Pᵀ H P` on this rank, row by row of `H`. -/
def expand [Mul S] (link : TrueDofs S l) {c : Nat} (H : Csr S l c) :
    Outcome (List (Triplet S)) := do
  let rows ← (List.finRange l).mapM fun i => (H.row i).mapM (link.expandEntry i)
  return rows.flatten.flatten

/-- A received entry, its row counted from the start of the owned range. -/
def ownedEntry (mine : IndexRange) (t : Triplet S) : Outcome (Triplet S) :=
  if mine.Holds t.row then .ok { t with row := t.row - mine.first }
  else .fault (.badExchange (.foreignRow t.row mine.first mine.last))

/-- **The program**: the owned rows of `Pᵀ H P`, summed over all ranks.  Collective. -/
def congruence [Add S] [Mul S] (link : TrueDofs S l) (place : Place) {r c : Nat} (H : Csr S r c) :
    Program S (RowBlock S) := do
  if h : r = l then
    let triplets ← link.expand (h ▸ H)
    -- every entry goes to the owner of its row, and only owned rows may arrive
    let ranges ← link.ranges place
    let received ← Exchange.toRowOwners place ranges triplets
    let mine ← ranges.rangeAt place.rank
    let owned ← Program.ofOutcome (received.mapM (ownedEntry mine))
    let rows ← Csr.ofTriplets link.numOwned link.numGlobal owned
    RowBlock.ofRows link.numGlobal link.offset rows
  else
    Outcome.fault (.wrongLength .traceMatrixRows l r)

end TrueDofs

end Condensation
