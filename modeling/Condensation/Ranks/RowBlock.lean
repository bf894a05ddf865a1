/-
  Row blocks — square matrices distributed by rows.

  Each rank stores a block of consecutive rows with global column numbers.  A product needs only
  the entries of the vector at the referenced columns: they are fetched from their owners, and
  the product runs on the matrix restricted to these columns.
-/
import Condensation.Ranks.Exchange
import Condensation.Algebra.Sparse.Columns

namespace Condensation

/-- The rows `offset, …, offset + rows - 1` of a square matrix. -/
structure RowBlock (S : Type) where
  globalSize : Nat
  rows : Nat
  offset : Nat
  block : Csr S rows globalSize
  fits : offset + rows ≤ globalSize

namespace RowBlock

variable {S : Type}

/-- The rows of `A` as part of a square matrix of the given size. -/
def ofRows (globalSize offset : Nat) {r c : Nat} (A : Csr S r c) : Outcome (RowBlock S) := do
  Outcome.sameLength .distributedColumns globalSize c
  let last ← Size.sum offset r
  if h : c = globalSize ∧ offset + r ≤ globalSize then
    return ⟨globalSize, r, offset, h.1 ▸ A, h.2⟩
  else
    .fault (.badNumbering (.ownedRows offset last globalSize))

/-- `A x` on the owned parts of both vectors; `into` is the vector that gets the result.
    Collective. -/
def mulVec [Zero S] [Add S] [Mul S] (A : RowBlock S) (place : Place) (x into : Array S) :
    Program S (Array S) := do
  Outcome.sameLength .ownedInput A.rows x.size
  Outcome.sameLength .ownedOutput A.rows into.size
  let ranges ← Ownership.gather place A.offset x.size A.globalSize
  let values ← Exchange.pull place ranges x.toList (A.block.referenced.map Fin.val)
  let values ← Outcome.exactly A.block.referenced.length values
  return (A.block.compressed.mulVec values).toArray

end RowBlock

end Condensation
