/-
  Operators — dense blocks and linear programs as matrices.

  1. **Blocks** — a dense block is a matrix through its entries (`Dense.toMatrix`), and the three
     products add a matrix product to a value that is already there.

  2. **Linear programs** — a program on vectors is `Linear` if it commutes with combinations of
     two vectors.  That survives composition and loops, and a linear program is the product with
     the matrix of its values at the unit vectors (`Linear.get_eq_sum`).

  3. **Loops** — a loop over all indices, upwards or downwards, carries an invariant that is
     indexed by the place it has reached.
-/
import Condensation.Algebra.Dense
import Mathlib.Algebra.BigOperators.Fin
import Mathlib.Data.Matrix.Mul
import Mathlib.LinearAlgebra.Pi
import Mathlib.Tactic.Ring

namespace Condensation

variable {S : Type}

/-- The total of a list of terms is their finite sum. -/
theorem total_eq_sum [AddCommMonoid S] {n : Nat} (f : Fin n → S) : total f = ∑ i, f i := by
  rw [total, List.sum_ofFn]

/-- A sum over some members of a list is one over all of them, with zero for the others. -/
theorem sum_filter {α : Type} [AddMonoid S] (l : List α) (p : α → Bool) (F : α → S) :
    ((l.filter p).map F).sum = (l.map fun a => if p a then F a else 0).sum := by
  induction l with
  | nil => rfl
  | cons a rest ih =>
    by_cases ha : p a = true
    · simp [ha, ih]
    · simp [ha, ih]

/-- So it is for members that are replaced. -/
theorem sum_filterMap {α β : Type} [AddMonoid S] (l : List α) (f : α → Option β) (F : β → S) :
    ((l.filterMap f).map F).sum = (l.map fun a => (f a).elim 0 F).sum := by
  induction l with
  | nil => rfl
  | cons a rest ih =>
    cases ha : f a with
    | none => simp [ha, ih]
    | some b => simp [ha, ih]

namespace Pairing

variable {a b : Nat}

/-- Pairs and their numbers. -/
def numbering (a b : Nat) : Fin a × Fin b ≃ Fin (a * b) where
  toFun p := join p.1 p.2
  invFun k := (outer k, inner k)
  left_inv p := by simp
  right_inv k := by simp

/-- A sum over all numbers is a sum over all pairs. -/
theorem sum_join [AddCommMonoid S] (f : Fin (a * b) → S) :
    ∑ k, f k = ∑ i, ∑ j, f (join i j) := by
  rw [← (numbering a b).sum_comp, Fintype.sum_prod_type]
  rfl

end Pairing

/-! ## Blocks -/

namespace Dense

variable {m n k : Nat}

/-- The block as a matrix. -/
def toMatrix (a : Dense S m n) : Matrix (Fin m) (Fin n) S := .of a.entry

@[simp] theorem toMatrix_apply (a : Dense S m n) (i : Fin m) (j : Fin n) :
    a.toMatrix i j = a.entry i j := rfl

@[simp] theorem entry_zero [Zero S] (i : Fin m) (j : Fin n) :
    (zero : Dense S m n).entry i j = 0 := by
  simp [zero]

@[simp] theorem get_column (a : Dense S m n) (j : Fin n) (i : Fin m) :
    (a.column j).get i = a.entry i j := by
  simp [column]

@[simp] theorem entry_ofColumns (cols : Vector (Vector S m) n) (i : Fin m) (j : Fin n) :
    (ofColumns cols).entry i j = (cols.get j).get i := by
  simp [ofColumns]

section Products

variable [NonUnitalNonAssocSemiring S]

theorem get_addMul (a : Dense S m n) (x : Vector S n) (y : Vector S m) (i : Fin m) :
    (a.addMul x y).get i = y.get i + ∑ j, a.entry i j * x.get j := by
  simp [addMul, total_eq_sum]

theorem get_addTransposeMul (a : Dense S m n) (x : Vector S m) (y : Vector S n) (j : Fin n) :
    (a.addTransposeMul x y).get j = y.get j + ∑ i, a.entry i j * x.get i := by
  simp [addTransposeMul, total_eq_sum]

theorem entry_addTransposeProduct (a : Dense S m n) (b : Dense S m k) (c : Dense S n k)
    (i : Fin n) (j : Fin k) :
    (a.addTransposeProduct b c).entry i j = c.entry i j + ∑ p, a.entry p i * b.entry p j := by
  simp [addTransposeProduct, total_eq_sum]

end Products

end Dense

/-! ## Linear programs -/

/-- The combination `a x + b y` of two vectors. -/
def combine [Add S] [Mul S] {n : Nat} (a b : S) (x y : Vector S n) : Vector S n :=
  .ofFn fun i => a * x.get i + b * y.get i

/-- The vector with entry one at `j`, and zeros. -/
def unitVec [Zero S] [One S] {n : Nat} (j : Fin n) : Vector S n :=
  .ofFn fun i => if i = j then 1 else 0

/-- The program commutes with combinations. -/
def Linear [Add S] [Mul S] {n m : Nat} (f : Vector S n → Vector S m) : Prop :=
  ∀ (a b : S) (x y : Vector S n), f (combine a b x y) = combine a b (f x) (f y)

namespace Linear

variable {n m k : Nat}

/-- A composition of linear maps is linear. -/
theorem comp [Add S] [Mul S] {g : Vector S m → Vector S k} {f : Vector S n → Vector S m}
    (hg : Linear g) (hf : Linear f) : Linear fun x => g (f x) := by
  intro a b x y
  simp only
  rw [hf, hg]

/-- A loop of linear steps is linear. -/
theorem foldl [Add S] [Mul S] {ι : Type} {step : Vector S n → ι → Vector S n}
    (hstep : ∀ i, Linear fun x => step x i) (items : List ι) :
    Linear fun x => items.foldl step x := by
  induction items with
  | nil => exact fun a b x y => rfl
  | cons i rest ih =>
    intro a b x y
    have first : step (combine a b x y) i = combine a b (step x i) (step y i) := hstep i a b x y
    simp only [List.foldl_cons]
    rw [first]
    exact ih a b _ _

/-- **Matrix of a linear program**: column `j` is its value at unit vector `j`. -/
theorem get_eq_sum [CommSemiring S] {f : Vector S n → Vector S m} (hf : Linear f)
    (x : Vector S n) (i : Fin m) : (f x).get i = ∑ j, (f (unitVec j)).get i * x.get j := by
  -- the program as a linear map between function spaces, where the sum formula is known
  let F : (Fin n → S) →ₗ[S] (Fin m → S) :=
    { toFun := fun v => (f (.ofFn v)).get
      map_add' := fun v w => by
        have h := hf 1 1 (.ofFn v) (.ofFn w)
        simp only [combine, Vector.get_ofFn_eq, one_mul] at h
        funext i
        show (f (.ofFn fun i => v i + w i)).get i = _
        rw [h, Vector.get_ofFn_eq]
        rfl
      map_smul' := fun a v => by
        have h := hf a 0 (.ofFn v) (.ofFn v)
        simp only [combine, Vector.get_ofFn_eq, zero_mul, add_zero] at h
        funext i
        show (f (.ofFn fun i => a * v i)).get i = _
        rw [h, Vector.get_ofFn_eq]
        rfl }
  have hx : Vector.ofFn x.get = x := Vector.ext_get fun i => by simp
  calc (f x).get i = F x.get i := by
        show (f x).get i = (f (.ofFn x.get)).get i
        rw [hx]
    _ = ∑ j, x.get j * F (fun i => if j = i then 1 else 0) i := by
      rw [LinearMap.pi_apply_eq_sum_univ F, Finset.sum_apply]
      rfl
    _ = ∑ j, (f (unitVec j)).get i * x.get j := by
      refine Finset.sum_congr rfl fun j _ => ?_
      rw [mul_comm]
      congr 1
      show (f _).get i = (f (unitVec j)).get i
      simp only [unitVec, eq_comm]

end Linear

/-! ## Loops over all indices -/

section Loops

variable {α : Type} {n : Nat}

/-- An upward loop: what holds before index `k` holds, one further, after it. -/
theorem foldl_finRange_invariant (f : α → Fin n → α) (P : Nat → α → Prop) {a : α} (start : P 0 a)
    (step : ∀ (k : Fin n) (b : α), P k b → P (k + 1) (f b k)) :
    P n ((List.finRange n).foldl f a) := by
  induction n generalizing a P with
  | zero => exact start
  | succ n ih =>
    rw [List.finRange_succ, List.foldl_cons, List.foldl_map]
    exact ih (fun b k => f b k.succ) (fun k b => P (k + 1) b) (step 0 a start)
      fun k b h => step k.succ b h

/-- A downward loop, in the same way. -/
theorem foldl_reverse_finRange_invariant (f : α → Fin n → α) (P : Nat → α → Prop) {a : α}
    (start : P n a) (step : ∀ (k : Fin n) (b : α), P (k + 1) b → P k (f b k)) :
    P 0 ((List.finRange n).reverse.foldl f a) := by
  rw [List.foldl_reverse]
  induction n generalizing P with
  | zero => exact start
  | succ n ih =>
    rw [List.finRange_succ, List.foldr_cons, List.foldr_map]
    refine step 0 _ ?_
    exact ih (fun b k => f b k.succ) (fun k b => P (k + 1) b) start fun k b h => step k.succ b h

end Loops

end Condensation
