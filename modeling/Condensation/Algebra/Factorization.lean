/-
  Factorization — triangular factors of a square matrix, with row exchanges.

  1. **The program** — `Factors.ofMatrix` is Gaussian elimination.  In column `k` the rows from
     `k` on are scanned for the entry of largest magnitude (`pivotRow`: of several the first, and
     row `k` itself when none is larger than zero), whole rows are exchanged, and every later row
     is reduced (`eliminate`).  The multipliers stay in place of the entries they cleared.

  2. **Solving** — `Factors.solve` permutes the right-hand side and substitutes forward through
     the unit-lower and backward through the upper factor.  It first checks that the two stored
     permutations undo each other, and aborts if they do not.

  3. Zero pivots are not looked for: over floating-point numbers they show as infinite or
     undefined values, over a field they do not occur for an invertible matrix.
-/
import Condensation.Outcome
import Condensation.Algebra.Dense

namespace Condensation

/-- Triangular factors in one matrix (unit-lower below the diagonal, upper from the diagonal on)
    with the row exchanges: position `i` holds row `perm[i]` of the matrix. -/
structure Factors (S : Type) (n : Nat) where
  lu : Dense S n n
  perm : Vector (Fin n) n
  inverse : Vector (Fin n) n

namespace Factors

variable {S : Type} {n : Nat}

/-- Factors that were never computed: zeros throughout. -/
def blank [Zero S] : Factors S n :=
  ⟨.zero, Vector.ofFn fun i => ⟨0, i.pos⟩, Vector.ofFn fun i => ⟨0, i.pos⟩⟩

/-- The two permutations undo each other. -/
def Consistent (f : Factors S n) : Prop :=
  ∀ i : Fin n, f.inverse.get (f.perm.get i) = i

instance (f : Factors S n) : Decidable f.Consistent :=
  inferInstanceAs (Decidable (∀ _, _))

/-! ## Elimination -/

/-- Rows `p` and `q` exchanged, as a renumbering of the rows. -/
def exchange (p q i : Fin n) : Fin n :=
  if i = p then q else if i = q then p else i

section Elimination

variable [Zero S] [Neg S] [LT S] [DecidableLT S]

/-- The better pivot of the best row so far and row `i`: row `i` only if it is strictly larger. -/
def betterPivot (a : Dense S n n) (k : Fin n) (best : Fin n × S) (i : Fin n) : Fin n × S :=
  if best.2 < magnitude (a.entry i k) then (i, magnitude (a.entry i k)) else best

/-- The row from `k` on whose entry in column `k` is largest in magnitude. -/
def pivotRow (a : Dense S n n) (k : Fin n) : Fin n :=
  (((List.finRange n).filter (k ≤ ·)).foldl (betterPivot a k) (k, 0)).1

end Elimination

/-- Rows `p` and `q` of the matrix exchanged. -/
def swapRows (a : Dense S n n) (p q : Fin n) : Dense S n n :=
  .ofFn fun i j => a.entry (exchange p q i) j

/-- Clear column `k` below the diagonal; the multipliers take the place of what they clear. -/
def eliminate [Sub S] [Mul S] [Div S] (a : Dense S n n) (k : Fin n) : Dense S n n :=
  .ofFn fun i j =>
    if k < i then
      if j = k then a.entry i k / a.entry k k
      else if k < j then a.entry i j - a.entry i k / a.entry k k * a.entry k j
      else a.entry i j
    else a.entry i j

/-- One column of the elimination, on the matrix and its row numbers. -/
def step [Zero S] [Neg S] [LT S] [DecidableLT S] [Sub S] [Mul S] [Div S]
    (state : Dense S n n × Vector (Fin n) n) (k : Fin n) : Dense S n n × Vector (Fin n) n :=
  let p := pivotRow state.1 k
  (eliminate (swapRows state.1 k p) k, Vector.ofFn fun i => state.2.get (exchange k p i))

/-- **The program**: eliminate column by column, then invert the row numbers. -/
def ofMatrix [Zero S] [Neg S] [LT S] [DecidableLT S] [Sub S] [Mul S] [Div S]
    (a : Dense S n n) : Factors S n :=
  let last := (List.finRange n).foldl step (a, Vector.ofFn id)
  { lu := last.1
    perm := last.2
    inverse := Vector.ofFn fun i => (last.2.finIdxOf? i).getD i }

/-! ## Substitution -/

variable [Sub S] [Mul S] [Div S]

/-- Take the part of unknown `j` out of the later equations. -/
def forwardStep (lu : Dense S n n) (y : Vector S n) (j : Fin n) : Vector S n :=
  Vector.ofFn fun i => if j < i then y.get i - lu.entry i j * y.get j else y.get i

/-- Determine unknown `j` and take its part out of the earlier equations. -/
def backwardStep (lu : Dense S n n) (y : Vector S n) (j : Fin n) : Vector S n :=
  Vector.ofFn fun i =>
    if i = j then y.get j / lu.entry j j
    else if i < j then y.get i - lu.entry i j * (y.get j / lu.entry j j)
    else y.get i

/-- Substitution through both triangles, for a right-hand side in the order of the factors. -/
def substitute (lu : Dense S n n) (y : Vector S n) : Vector S n :=
  (List.finRange n).reverse.foldl (backwardStep lu) ((List.finRange n).foldl (forwardStep lu) y)

/-- Solve with the factors. -/
def solve (f : Factors S n) (x : Vector S n) : Outcome (Vector S n) := do
  Outcome.check f.Consistent
  return substitute f.lu (Vector.ofFn fun i => x.get (f.perm.get i))

end Factors

end Condensation
