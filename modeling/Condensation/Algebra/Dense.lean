/-
  Dense matrices — small column-major blocks and their products.

  1. **Data** — `Dense S m n` is one flat vector of `n * m` scalars, column after column.  The
     entry in row `i` and column `j` has the number of the pair (column, row), and all reasoning
     goes through `entry` and `entry_ofFn`.

  2. **Products** — the three products all add to a value that is already there:
     `y + a x`, `y + aᵀ x` and `c + aᵀ b`.
-/
import Condensation.Pairing
import Condensation.Algebra.Scalar

namespace Condensation

/-- An `m × n` matrix, stored column after column. -/
structure Dense (S : Type) (m n : Nat) where
  data : Vector S (n * m)

namespace Dense

variable {S : Type} {m n k : Nat}

/-- The entry in row `i` and column `j`. -/
def entry (a : Dense S m n) (i : Fin m) (j : Fin n) : S :=
  a.data.get (Pairing.join j i)

/-- The matrix with the given entries. -/
def ofFn (f : Fin m → Fin n → S) : Dense S m n :=
  ⟨Vector.ofFn fun p => f (Pairing.inner p) (Pairing.outer p)⟩

@[simp] theorem entry_ofFn (f : Fin m → Fin n → S) (i : Fin m) (j : Fin n) :
    (ofFn f).entry i j = f i j := by
  simp [entry, ofFn]

theorem ext_entry {a b : Dense S m n} (h : ∀ i j, a.entry i j = b.entry i j) : a = b := by
  obtain ⟨a⟩ := a
  obtain ⟨b⟩ := b
  congr 1
  refine Vector.ext_get fun p => ?_
  have := h (Pairing.inner p) (Pairing.outer p)
  simpa [entry] using this

/-- The matrix of zeros. -/
def zero [Zero S] : Dense S m n :=
  ofFn fun _ _ => 0

/-- Column `j`. -/
def column (a : Dense S m n) (j : Fin n) : Vector S m :=
  Vector.ofFn fun i => a.entry i j

/-- The matrix with the given columns. -/
def ofColumns (cols : Vector (Vector S m) n) : Dense S m n :=
  ofFn fun i j => (cols.get j).get i

/-- The matrix with row `i` replaced. -/
def setRow (a : Dense S m n) (i : Fin m) (row : Fin n → S) : Dense S m n :=
  ofFn fun i' j => if i' = i then row j else a.entry i' j

/-! ## Products -/

variable [Zero S] [Add S] [Mul S]

/-- `y + a x`. -/
def addMul (a : Dense S m n) (x : Vector S n) (y : Vector S m) : Vector S m :=
  Vector.ofFn fun i => y.get i + total fun j => a.entry i j * x.get j

/-- `y + aᵀ x`. -/
def addTransposeMul (a : Dense S m n) (x : Vector S m) (y : Vector S n) : Vector S n :=
  Vector.ofFn fun j => y.get j + total fun i => a.entry i j * x.get i

/-- `c + aᵀ b`. -/
def addTransposeProduct (a : Dense S m n) (b : Dense S m k) (c : Dense S n k) : Dense S n k :=
  ofFn fun i j => c.entry i j + total fun p => a.entry p i * b.entry p j

end Dense

end Condensation
