/-
  Positivity — what a positive quadratic form gives.

  1. **Forms** — a matrix is `Positive` if its quadratic form is positive away from zero.  Symmetry
     is not needed anywhere.  A positive matrix is non-singular, and the form of its inverse
     vanishes at zero only (`Positive.eq_zero_of_inverse`).

  2. **Elements** — replacing rows and columns by those of the identity keeps a positive form
     (`Positive.patch`), and so does putting the elements together (`Positive.blocks`).
-/
import Condensation.Proofs.ElementSolves
import Mathlib.LinearAlgebra.Matrix.ToLinearEquiv

namespace Condensation

variable {S : Type}

open Matrix

/-- The quadratic form of the matrix is positive away from zero. -/
def Positive [NonUnitalNonAssocSemiring S] [LT S] {n : Nat}
    (A : Matrix (Fin n) (Fin n) S) : Prop :=
  ∀ x : Fin n → S, x ≠ 0 → 0 < x ⬝ᵥ (A *ᵥ x)

namespace Positive

variable [Field S] [LinearOrder S] {n : Nat} {A B : Matrix (Fin n) (Fin n) S}

theorem nonneg (hA : Positive A) (x : Fin n → S) : 0 ≤ x ⬝ᵥ (A *ᵥ x) := by
  by_cases hx : x = 0
  · simp [hx]
  · exact le_of_lt (hA x hx)

/-- A positive matrix is non-singular. -/
theorem det_ne_zero (hA : Positive A) : A.det ≠ 0 := by
  intro hdet
  obtain ⟨x, hx, hAx⟩ := Matrix.exists_mulVec_eq_zero_iff.2 hdet
  have := hA x hx
  rw [hAx, dotProduct_zero] at this
  exact lt_irrefl _ this

/-- **Forms**: the form of the inverse vanishes at zero only. -/
theorem eq_zero_of_inverse (hA : Positive A) (hAB : A * B = 1) {c : Fin n → S}
    (hc : c ⬝ᵥ (B *ᵥ c) = 0) : c = 0 := by
  -- the form of the inverse at `c` is the form of the matrix at the solution for `c`
  have hsolved : A *ᵥ (B *ᵥ c) = c := by
    rw [Matrix.mulVec_mulVec, hAB, Matrix.one_mulVec]
  have hform : (B *ᵥ c) ⬝ᵥ (A *ᵥ (B *ᵥ c)) = 0 := by
    rw [hsolved, dotProduct_comm, hc]
  by_cases hB : B *ᵥ c = 0
  · rw [← hsolved, hB, Matrix.mulVec_zero]
  · have := hA _ hB
    rw [hform] at this
    exact absurd this (lt_irrefl _)

/-- A matrix with one entry is as positive as the entry. -/
theorem of_one [IsStrictOrderedRing S] {A : Matrix (Fin 1) (Fin 1) S} (h : 0 < A 0 0) :
    Positive A := by
  intro x hx
  have hx0 : x 0 ≠ 0 := fun h0 => hx (funext fun i => by rwa [Subsingleton.elim i 0])
  have hform : x ⬝ᵥ (A *ᵥ x) = A 0 0 * (x 0 * x 0) := by
    simp only [dotProduct, Matrix.mulVec, Fin.sum_univ_one]
    ring
  rw [hform]
  exact mul_pos h (mul_self_pos.2 hx0)

/-- **Elements**: the block-diagonal matrix of positive blocks is positive. -/
theorem blocks [IsStrictOrderedRing S] {ne m : Nat} {M : Fin ne → Matrix (Fin m) (Fin m) S}
    (hM : ∀ e, Positive (M e)) :
    Positive (blocks M) := by
  intro x hx
  have parts : x ⬝ᵥ (Condensation.blocks M *ᵥ x) =
      ∑ e, (fun i => x (Pairing.join e i)) ⬝ᵥ (M e *ᵥ fun i => x (Pairing.join e i)) := by
    rw [dotProduct, Pairing.sum_join]
    refine Finset.sum_congr rfl fun e _ => ?_
    simp only [blocks_mulVec, Pairing.outer_join, Pairing.inner_join]
    rfl
  obtain ⟨k, hk⟩ := Function.ne_iff.1 hx
  rw [parts]
  refine Finset.sum_pos' (fun e _ => (hM e).nonneg _) ⟨Pairing.outer k, Finset.mem_univ _, ?_⟩
  refine hM _ _ (Function.ne_iff.2 ⟨Pairing.inner k, ?_⟩)
  rwa [Pairing.join_split]

end Positive

/-! ## Patched matrices -/

section Patch

variable [Field S] {m : Nat} (a : Dense S m m) (essential : Vector Bool m) (x : Fin m → S)

/-- The values away from the essential places. -/
def masked {n : Nat} (marks : Vector Bool n) (x : Fin n → S) (i : Fin n) : S :=
  if marks.get i then 0 else x i

theorem masked_sub {n : Nat} (marks : Vector Bool n) (x y : Fin n → S) :
    masked marks (x - y) = masked marks x - masked marks y := by
  funext i
  by_cases hi : marks.get i = true <;> simp [masked, hi]

/-- A patched matrix gives back essential values, and does not see them in the other rows. -/
theorem patch_mulVec (i : Fin m) :
    ((a.patch essential).toMatrix *ᵥ x) i =
      if essential.get i then x i else (a.toMatrix *ᵥ masked essential x) i := by
  have entries : ∀ j, (a.patch essential).toMatrix i j * x j =
      if essential.get i then (if i = j then x j else 0)
      else a.toMatrix i j * masked essential x j := by
    intro j
    simp only [Dense.patch, Dense.toMatrix_apply, Dense.entry_ofFn, masked]
    by_cases hi : essential.get i = true
    · by_cases hij : i = j
      · subst hij
        simp [hi]
      · simp [hi, hij]
    · by_cases hj : essential.get j = true
      · have hij : i ≠ j := fun h => hi (h ▸ hj)
        simp [hi, hj, hij]
      · simp [hi, hj]
  rw [Matrix.mulVec, dotProduct, Finset.sum_congr rfl fun j _ => entries j]
  by_cases hi : essential.get i = true
  · simp [hi]
  · simp only [hi]
    rfl

variable [LinearOrder S] [IsStrictOrderedRing S] {a}

theorem Positive.patch (ha : Positive a.toMatrix) : Positive (a.patch essential).toMatrix := by
  intro x hx
  have split : x ⬝ᵥ ((a.patch essential).toMatrix *ᵥ x) =
      (∑ i, if essential.get i then x i * x i else 0) +
        masked essential x ⬝ᵥ (a.toMatrix *ᵥ masked essential x) := by
    simp only [dotProduct, ← Finset.sum_add_distrib]
    refine Finset.sum_congr rfl fun i _ => ?_
    rw [patch_mulVec]
    by_cases hi : essential.get i = true <;> simp [hi, masked]
  have squares : ∀ i, 0 ≤ if essential.get i then x i * x i else 0 := by
    intro i
    split_ifs
    · exact mul_self_nonneg _
    · exact le_rfl
  rw [split]
  by_cases hmask : masked essential x = 0
  -- then some essential value is not zero
  · obtain ⟨i, hi⟩ := Function.ne_iff.1 hx
    have hess : essential.get i = true := by
      by_contra h
      have := congrFun hmask i
      simp only [masked, h] at this
      exact hi (by simpa using this)
    refine add_pos_of_pos_of_nonneg (Finset.sum_pos' (fun i _ => squares i)
      ⟨i, Finset.mem_univ _, ?_⟩) (ha.nonneg _)
    rw [if_pos hess]
    exact mul_self_pos.2 hi
  · exact add_pos_of_nonneg_of_pos (Finset.sum_nonneg fun i _ => squares i) (ha _ hmask)

end Patch

end Condensation
