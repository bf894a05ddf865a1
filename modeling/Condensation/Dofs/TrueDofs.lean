/-
  True degrees of freedom — the unique unknowns behind the local ones.

  Local degrees of freedom may be copies of each other: shared between ranks, or tied together by
  periodicity.  The true ones are unique and numbered globally; each rank owns a contiguous range
  of them, ranks in order.

  1. **Data** — `TrueDofs S l` links `l` local degrees of freedom to the true ones: the
     prolongation `P` gives every local value as a combination of global true values, and the
     restriction names, for every owned true degree of freedom, the local one it is read from.

  2. **Construction** — `ofProlongation` takes both tables; `conforming` derives them from one
     signed table in which every local degree of freedom copies one true one, and reads each owned
     true one from its first copy.

  3. **Action** — `prolong` and `prolongTranspose` are `P` and `Pᵀ` over all ranks, `restrict` and
     `restrictTranspose` act within the rank, and `dependents` says which local degrees of
     freedom depend on a marked true one.  Only the true values that `P` references move.
-/
import Condensation.Dofs.Signed
import Condensation.Algebra.Sparse.Columns
import Condensation.Ranks.Exchange

namespace Condensation

/-- The link between `numLocal` local degrees of freedom and the true ones. -/
structure TrueDofs (S : Type) (numLocal : Nat) where
  numOwned : Nat
  numGlobal : Nat
  offset : Nat
  prolongation : Csr S numLocal numGlobal
  restriction : Vector (Signed (Fin numLocal)) numOwned
  fits : offset + numOwned ≤ numGlobal

namespace TrueDofs

variable {S : Type} {l : Nat}

/-! ## Construction -/

/-- The link with a given prolongation and restriction table. -/
def ofProlongation {g : Nat} (P : Csr S l g) (restriction : Array GatherEntry) (offset : Nat) :
    Outcome (TrueDofs S l) := do
  let last ← Size.sum offset restriction.size
  if h : offset + restriction.size ≤ g then
    let table ← Outcome.tabulate fun t : Fin restriction.size =>
      Outcome.orFault (.badNumbering (.trueDof t restriction[t] l)) (restriction[t].within l)
    return ⟨restriction.size, g, offset, P, table, h⟩
  else
    .fault (.badNumbering (.ownedTrueDofs offset last g))

/-- Take up local degree of freedom `k`, a copy of the true one that `entry` names: if that one is
    owned and has no copy yet, this is its first. -/
def takeCopy {numOwned : Nat} (offset : Nat) (copies : Vector GatherEntry numOwned)
    (entry : GatherEntry × Nat) : Outcome (Vector GatherEntry numOwned) :=
  match entry with
  | (none, k) => .fault (.badNumbering (.localWithoutTrue k))
  | (some g, k) => do
    let _ ← Size.sum offset numOwned
    if h : offset ≤ g.index ∧ g.index < offset + numOwned then
      let t : Fin numOwned := ⟨g.index - offset, by omega⟩
      return if (copies.get t).isNone then copies.put t (some ⟨k, g.orientation⟩) else copies
    else
      return copies

/-- The link in which every local degree of freedom is a signed copy of one true one. -/
def conforming [Add S] [One S] [Neg S] (localToTrue : Array GatherEntry)
    (numOwned offset numGlobal : Nat) : Outcome (TrueDofs S localToTrue.size) := do
  Size.table (numOwned - localToTrue.size)
  let copies ← localToTrue.toList.zipIdx.foldlM (takeCopy offset)
    (Vector.replicate numOwned (none : GatherEntry))
  match copies.toList.findIdx? (·.isNone) with
  | some t => .fault (.badNumbering (.trueWithoutCopy (t + offset)))
  | none =>
    let triplets := localToTrue.toList.zipIdx.filterMap fun e =>
      e.1.map fun g => (⟨e.2, g.index, g.orientation.factor⟩ : Triplet S)
    let P ← Csr.ofTriplets localToTrue.size numGlobal triplets
    ofProlongation P copies.toArray offset

/-- A link for a space with `n` local degrees of freedom, if it was made for that many. -/
def forSpace (what : Quantity) (n : Nat) :
    Option ((l : Nat) × TrueDofs S l) → Outcome (Option (TrueDofs S n))
  | none => return none
  | some ⟨l, link⟩ =>
    if h : l = n then return some (h ▸ link)
    else .fault (.wrongLength what n l)

/-! ## Action -/

/-- Who owns which true degrees of freedom.  Collective. -/
def ranges (link : TrueDofs S l) (place : Place) : Program S Ownership :=
  Ownership.gather place link.offset link.numOwned link.numGlobal

/-- The global numbers of the true degrees of freedom that `P` references. -/
def columns (link : TrueDofs S l) : List Nat :=
  link.prolongation.referenced.map Fin.val

/-- `P t`, with `t` the owned true values; `into` is the vector that gets it.  Collective. -/
def prolong [Zero S] [Add S] [Mul S] (link : TrueDofs S l) (place : Place) (t into : Array S) :
    Program S (Array S) := do
  Outcome.sameLength .ownedTrueVector link.numOwned t.size
  Outcome.sameLength .localVector l into.size
  let ranges ← link.ranges place
  let values ← Exchange.pull place ranges t.toList link.columns
  let values ← Outcome.exactly link.prolongation.referenced.length values
  return (link.prolongation.compressed.mulVec values).toArray

/-- The owned part of `Pᵀ v`, summed over all ranks; `into` is the vector that gets it.
    Collective. -/
def prolongTranspose [Zero S] [Add S] [Mul S] (link : TrueDofs S l) (place : Place)
    (v into : Array S) : Program S (Array S) := do
  let v ← Outcome.sized .localVector l v
  Outcome.sameLength .ownedTrueVector link.numOwned into.size
  let sums := link.prolongation.compressed.mulVecTranspose v
  let ranges ← link.ranges place
  let owned ← Exchange.push place ranges link.columns sums.toList
  let owned ← Outcome.exactly link.numOwned owned
  return owned.toArray

/-- The owned true values, each read from its local degree of freedom. -/
def restrictVec [One S] [Neg S] [Mul S] (link : TrueDofs S l) (v : Vector S l) :
    Vector S link.numOwned :=
  link.restriction.map fun g => g.read v.get

/-- Every owned true value, written to its local degree of freedom; zero elsewhere.  Where several
    true values go to one place, the last one stays. -/
def restrictTransposeVec [Zero S] [One S] [Neg S] [Mul S] (link : TrueDofs S l)
    (t : Vector S link.numOwned) : Vector S l :=
  (List.finRange link.numOwned).foldl
    (fun v k =>
      let g := link.restriction.get k
      v.put g.index (g.orientation.factor * t.get k))
    (Vector.replicate l 0)

/-- The owned true values of a local vector; `into` is the vector that gets them. -/
def restrict [One S] [Neg S] [Mul S] (link : TrueDofs S l) (v into : Array S) :
    Outcome (Array S) := do
  let v ← Outcome.sized .localVector l v
  Outcome.sameLength .ownedTrueVector link.numOwned into.size
  return (link.restrictVec v).toArray

/-- The local vector of some owned true values; `into` is the vector that gets it. -/
def restrictTranspose [Zero S] [One S] [Neg S] [Mul S] (link : TrueDofs S l) (t into : Array S) :
    Outcome (Array S) := do
  let t ← Outcome.sized .ownedTrueVector link.numOwned t
  Outcome.sameLength .localVector l into.size
  return (link.restrictTransposeVec t).toArray

/-- The local degrees of freedom with a stored, non-zero link to a marked true one, wherever that
    one is owned; `into` is the marker that gets them.  Collective. -/
def dependents [Zero S] [One S] [BEq S] (link : TrueDofs S l) (place : Place)
    (t into : Array Bool) : Program S (Array Bool) := do
  Outcome.sameLength .ownedTrueMarker link.numOwned t.size
  Outcome.sameLength .localMarker l into.size
  let owned : List S := t.toList.map fun b => if b then 1 else 0
  let ranges ← link.ranges place
  let marked ← Exchange.pull place ranges owned link.columns
  let marked ← Outcome.exactly link.prolongation.referenced.length marked
  return (Vector.ofFn fun i =>
    (link.prolongation.compressed.row i).any fun e => e.2 != 0 && marked.get e.1 != 0).toArray

end TrueDofs

end Condensation
