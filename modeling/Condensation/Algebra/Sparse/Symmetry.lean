/-
  Symmetry — the first stored entry that differs too much from the mirrored one.

  `Csr.asymmetry? A tol` walks the stored entries row by row and returns the first position
  `(i, j)` with `|A i j - A j i| > tol · max(1, |A i j|)`, together with the two (summed) entries.
  The mirrored entry is looked up by number, so a matrix with more columns than rows
  aborts where that row does not exist.
-/
import Condensation.Algebra.Sparse

namespace Condensation

/-- A position whose entry differs from the mirrored one. -/
structure Asymmetry (S : Type) where
  i : Nat
  j : Nat
  here : S
  mirrored : S

namespace Csr

variable {S : Type} {r c : Nat}
variable [Zero S] [One S] [Add S] [Sub S] [Mul S] [Neg S] [LT S] [DecidableLT S]

/-- Two mirrored entries differ by more than the tolerance allows. -/
def Differ (tol a b : S) : Prop :=
  tol * larger (magnitude a) 1 < magnitude (a - b)

instance (tol a b : S) : Decidable (Differ tol a b) :=
  inferInstanceAs (Decidable (_ < _))

/-- The asymmetry at `(i, j)`, if there is one. -/
def asymmetryAt (A : Csr S r c) (tol : S) (i : Fin r) (j : Fin c) :
    Outcome (Option (Asymmetry S)) := do
  let here := A.entry i j
  let mirrored ← A.entryAt j i
  return if Differ tol here mirrored then some ⟨i, j, here, mirrored⟩ else none

/-- The first of some positions at which the matrix is not symmetric. -/
def asymmetryAmong (A : Csr S r c) (tol : S) :
    List (Fin r × Fin c) → Outcome (Option (Asymmetry S))
  | [] => return none
  | p :: rest => do
    match ← A.asymmetryAt tol p.1 p.2 with
    | some found => return some found
    | none => A.asymmetryAmong tol rest

/-- **The program**: the first stored position at which the matrix is not symmetric. -/
def asymmetry? (A : Csr S r c) (tol : S) : Outcome (Option (Asymmetry S)) :=
  A.asymmetryAmong tol
    ((List.finRange r).flatMap fun i => (A.row i).map fun e => (i, e.1))

end Csr

end Condensation
