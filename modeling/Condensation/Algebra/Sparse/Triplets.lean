/-
  Triplets — sparse matrices from a list of positioned values.

  1. **The program** — `Csr.ofTriplets` sorts the triplets by row and column, refuses the first
     one (in that order) that lies outside the matrix, adds up the values of equal positions, and
     stores what is left.  A sum that comes out as zero is stored like any other.  `ofTriplets?`
     refuses more rows than there is room for, before any triplet is looked at.

  2. The sort is stable, so the values of one position are added in the order in which they were
     given.
-/
import Condensation.Algebra.Sparse

namespace Condensation

/-- A value at a position. -/
structure Triplet (S : Type) where
  row : Nat
  column : Nat
  value : S

namespace Triplet

variable {S : Type}

/-- Positions row by row, and within a row by column. -/
def before (a b : Triplet S) : Bool :=
  decide (a.row < b.row) || (decide (a.row = b.row) && decide (a.column ≤ b.column))

/-- The triplet lies in an `r × c` matrix. -/
def Inside (r c : Nat) (t : Triplet S) : Prop :=
  t.row < r ∧ t.column < c

instance (r c : Nat) (t : Triplet S) : Decidable (t.Inside r c) :=
  inferInstanceAs (Decidable (_ ∧ _))

/-- Add up neighbors with equal positions. -/
def merge [Add S] : List (Triplet S) → List (Triplet S)
  | a :: b :: rest =>
    if a.row = b.row ∧ a.column = b.column then
      merge ({ a with value := a.value + b.value } :: rest)
    else a :: merge (b :: rest)
  | short => short
termination_by l => l.length

end Triplet

namespace Csr

variable {S : Type}

/-- **The program**: the matrix with the given triplets, repeated positions added up. -/
def ofTriplets [Add S] (r c : Nat) (triplets : List (Triplet S)) : Outcome (Csr S r c) := do
  let sorted := triplets.mergeSort Triplet.before
  match sorted.find? fun t => ¬ t.Inside r c with
  | some t => .fault (.badNumbering (.tripletOutOfRange t.row t.column r c))
  | none =>
    let merged := Triplet.merge sorted
    let rowPtr := Array.ofFn fun i : Fin (r + 1) => merged.countP fun t => t.row < i.val
    ofParts r c rowPtr (merged.map (·.column)).toArray (merged.map (·.value)).toArray

/-- The matrix with the given triplets, if there is room for its rows. -/
def ofTriplets? [Add S] (r c : Nat) (triplets : List (Triplet S)) : Outcome (Csr S r c) := do
  Outcome.require (r + 1 < Size.tableLimit) (.badNumbering (.rowsWithoutRoom r))
  ofTriplets r c triplets

end Csr

end Condensation
