/-
  Patched solves — after a matrix was taken, its element solves the patched system.

  1. **Clearing (`foldl_clear`)** — the rows and columns of the essential degrees of freedom may be
     cleared one after the other, in any order and also twice: what comes out is the patched matrix.

  2. **Solutions (`patch_mulVec_masked`)** — a patched matrix commutes with dropping the essential
     values.  So a solution keeps the essential values, and they show nowhere else.

  3. **The store (`solve_after_assembly`)** — whatever the factors of an element were before, they
     are now those of its patched matrix, and the other elements have kept theirs.
-/
import Condensation.Proofs.ElementSolves
import Condensation.Proofs.Positivity

namespace Condensation

variable {S : Type} {ne m : Nat}

open Matrix

/-! ## Clearing -/

namespace Dense

variable [Zero S] [One S]

/-- The matrix with row and column `i` replaced by those of the identity. -/
def clear (a : Dense S m m) (i : Fin m) : Dense S m m :=
  .ofFn fun p q => if p = i ∨ q = i then (if p = q then 1 else 0) else a.entry p q

theorem entry_foldl_clear (a : Dense S m m) (order : List (Fin m)) (p q : Fin m) :
    (order.foldl clear a).entry p q =
      if p ∈ order ∨ q ∈ order then (if p = q then 1 else 0) else a.entry p q := by
  induction order generalizing a with
  | nil => simp
  | cons i order ih =>
    rw [List.foldl_cons, ih, clear, entry_ofFn]
    by_cases hlater : p ∈ order ∨ q ∈ order
    · have hsome : p ∈ i :: order ∨ q ∈ i :: order := hlater.imp (.tail i) (.tail i)
      rw [if_pos hlater, if_pos hsome]
    · -- what was cleared first is not written again
      rw [if_neg hlater]
      rw [not_or] at hlater
      refine if_congr ?_ rfl rfl
      simp [hlater.1, hlater.2]

/-- **Clearing**: the order in which rows and columns are cleared does not show. -/
theorem foldl_clear (a : Dense S m m) {essential : Vector Bool m} {order : List (Fin m)}
    (horder : ∀ i, i ∈ order ↔ essential.get i = true) :
    order.foldl clear a = a.patch essential := by
  apply ext_entry
  intro p q
  rw [entry_foldl_clear, patch, entry_ofFn]
  refine if_congr ?_ rfl rfl
  rw [horder, horder, Bool.or_eq_true]

end Dense

/-! ## Solutions -/

/-- The vectors `solved` are the only solutions of the systems with matrix `M`.  Essential values
    stay as they are, and the other values of a solution do not depend on them. -/
structure SolvesPatched [Semiring S] (M : Matrix (Fin m) (Fin m) S) (essential : Vector Bool m)
    (solved : Vector S m → Vector S m) : Prop where
  solution : ∀ x y, M *ᵥ y.get = x.get ↔ y = solved x
  kept : ∀ x i, essential.get i = true → (solved x).get i = x.get i
  unseen : ∀ x x', (∀ i, essential.get i = false → x.get i = x'.get i) →
    ∀ i, essential.get i = false → (solved x).get i = (solved x').get i

section Solutions

variable [Field S] {a : Dense S m m} {essential : Vector Bool m}

/-- Essential values can be dropped before or after the product. -/
theorem patch_mulVec_masked (x : Fin m → S) :
    (a.patch essential).toMatrix *ᵥ masked essential x =
      masked essential ((a.patch essential).toMatrix *ᵥ x) := by
  have htwice : masked essential (masked essential x) = masked essential x := by
    funext i
    by_cases hi : essential.get i = true <;> simp [masked, hi]
  funext i
  rw [patch_mulVec, htwice]
  by_cases hi : essential.get i = true
  · simp [masked, hi]
  · simp [masked, hi, patch_mulVec]

section Inverse

variable {A : Matrix (Fin m) (Fin m) S} (h : A.det ≠ 0) (x : Fin m → S)

include h

theorem mulVec_inv_mulVec : A *ᵥ (A⁻¹ *ᵥ x) = x := by
  rw [Matrix.mulVec_mulVec, Matrix.mul_nonsing_inv _ (isUnit_iff_ne_zero.2 h), Matrix.one_mulVec]

theorem inv_mulVec_mulVec : A⁻¹ *ᵥ (A *ᵥ x) = x := by
  rw [Matrix.mulVec_mulVec, Matrix.nonsing_inv_mul _ (isUnit_iff_ne_zero.2 h), Matrix.one_mulVec]

end Inverse

/-- So can those of a solution. -/
theorem patch_inv_mulVec_masked (h : (a.patch essential).toMatrix.det ≠ 0) (x : Fin m → S) :
    (a.patch essential).toMatrix⁻¹ *ᵥ masked essential x =
      masked essential ((a.patch essential).toMatrix⁻¹ *ᵥ x) := by
  let M := (a.patch essential).toMatrix
  calc M⁻¹ *ᵥ masked essential x
      = M⁻¹ *ᵥ masked essential (M *ᵥ (M⁻¹ *ᵥ x)) := by rw [mulVec_inv_mulVec h]
    _ = M⁻¹ *ᵥ (M *ᵥ masked essential (M⁻¹ *ᵥ x)) := by rw [patch_mulVec_masked]
    _ = masked essential (M⁻¹ *ᵥ x) := inv_mulVec_mulVec h _

/-- **Solutions** of patched systems. -/
theorem solvesPatched (h : (a.patch essential).toMatrix.det ≠ 0) :
    SolvesPatched (a.patch essential).toMatrix essential fun x =>
      .ofFn ((a.patch essential).toMatrix⁻¹ *ᵥ x.get) := by
  constructor
  case solution =>
    intro x y
    constructor
    · intro hy
      apply Vector.ext_get
      intro i
      rw [Vector.get_ofFn_eq, ← hy, inv_mulVec_mulVec h]
    · rintro rfl
      rw [Vector.ofFn_get, mulVec_inv_mulVec h]
  case kept =>
    intro x i hi
    have hrow := patch_mulVec a essential ((a.patch essential).toMatrix⁻¹ *ᵥ x.get) i
    rw [mulVec_inv_mulVec h, if_pos hi] at hrow
    rw [Vector.get_ofFn_eq, hrow]
  case unseen =>
    intro x x' hsame i hi
    have hmasked : masked essential x.get = masked essential x'.get := by
      funext j
      by_cases hj : essential.get j = true
      · simp [masked, hj]
      · simp [masked, hj, hsame j (by simpa using hj)]
    -- away from the essential places both are the solution for the same masked values
    have hsolved := congrArg ((a.patch essential).toMatrix⁻¹ *ᵥ ·) hmasked
    simp only [patch_inv_mulVec_masked h] at hsolved
    have hi' := congrFun hsolved i
    rw [Vector.get_ofFn_eq, Vector.get_ofFn_eq]
    simpa [masked, hi] using hi'

end Solutions

/-! ## The store -/

namespace ElementStore

variable [Field S] [LinearOrder S]

/-- An element whose slot came from a matrix solves with it. -/
theorem solve_slotOf {store : ElementStore S ne m} {e : Fin ne} {a : Dense S m m}
    {essential : Vector Bool m} (h : store.slots.get e = slotOf a essential) (x : Vector S m) :
    store.solve e x.toArray =
      .ok (Vector.ofFn ((Factors.ofMatrix (a.patch essential)).solution *ᵥ x.get)).toArray := by
  rw [solve_eq, h, slotOf, Factors.solve_eq _ (Factors.consistent_ofMatrix _)]
  rfl

/-- **The store**: after the matrix of element `e` was taken, the element solves the system whose
    rows and columns of essential degrees of freedom are cleared, and the other elements are as
    they were. -/
theorem solve_after_assembly [IsStrictOrderedRing S] (store : ElementStore S ne m) (e : Fin ne)
    (a : Dense S m m) (marked : Vector Bool (ne * m)) {order : List (Fin m)}
    (horder : ∀ i, i ∈ order ↔ (Pairing.part marked e).get i = true)
    (h : (order.foldl Dense.clear a).toMatrix.det ≠ 0) :
    ∃ (next : ElementStore S ne m) (solved : Vector S m → Vector S m),
      store.assemble e a.data.toArray marked.toArray = .ok next ∧
      (∀ x, next.solve e x.toArray = .ok (solved x).toArray) ∧
      SolvesPatched (order.foldl Dense.clear a).toMatrix (Pairing.part marked e) solved ∧
      ∀ f, f ≠ e → next.slots.get f = store.slots.get f := by
  rw [Dense.foldl_clear a horder] at h ⊢
  let next : ElementStore S ne m := ⟨store.slots.put e (slotOf a (Pairing.part marked e))⟩
  have hslot : next.slots.get e = slotOf a (Pairing.part marked e) := Vector.get_put_self _ _ _
  refine ⟨next, _, ?_, ?_, solvesPatched h, ?_⟩
  · rw [assemble, element_eq, Outcome.ok_bind, Outcome.sized_toArray, Outcome.ok_bind,
      Outcome.sized_toArray, Outcome.ok_bind, Outcome.pure_eq]
  · intro x
    rw [solve_slotOf hslot, Factors.solution_ofMatrix h]
  · intro f hf
    exact Vector.get_put_of_ne _ _ (Ne.symm hf)

/-! ### An exchange of rows around an essential place -/

/-- Three degrees of freedom; the first has no entry on the diagonal. -/
def crossed : Dense ℚ 3 3 :=
  ⟨#v[0, 7, 2, 7, 7, 7, 3, 7, 1]⟩

/-- The second one of the second element is essential. -/
def crossedMarks : Vector Bool (2 * 3) :=
  #v[true, true, false, false, true, false]

/-- So it is for the second of two elements that have had no matrix yet: `3 y₂ = 3`, `y₁ = 5`, and
    `2 y₀ + y₂ = 3`. -/
theorem solve_after_assembly_crossed :
    ∃ next : ElementStore ℚ 2 3,
      (⟨Vector.replicate 2 ⟨.blank, false⟩⟩ : ElementStore ℚ 2 3).assemble 1
        crossed.data.toArray crossedMarks.toArray = .ok next ∧
      next.solve 1 #[3, 5, 3] = .ok #[1, 5, 1] ∧
      next.slots.get 0 = ⟨.blank, false⟩ := by
  have hcleared : ([1].foldl Dense.clear crossed).toMatrix = !![0, 0, 3; 0, 1, 0; 2, 0, 1] := by
    decide +kernel
  have horder : ∀ i, i ∈ [1] ↔ (Pairing.part crossedMarks 1).get i = true := by decide
  have hdet : ([1].foldl Dense.clear crossed).toMatrix.det ≠ 0 := by
    rw [hcleared, Matrix.det_fin_three]
    decide +kernel
  obtain ⟨next, solved, hnext, hsolve, hsolved, hothers⟩ :=
    solve_after_assembly ⟨Vector.replicate 2 ⟨.blank, false⟩⟩ 1 crossed crossedMarks horder hdet
  have hvalues : #v[(1 : ℚ), 5, 1] = solved #v[3, 5, 3] := by
    rw [← hsolved.solution, hcleared]
    decide +kernel
  refine ⟨next, hnext, (hsolve #v[3, 5, 3]).trans ?_, (hothers 0 (by decide)).trans ?_⟩
  · rw [← hvalues]
  · exact Vector.get_replicate_eq _ _

end ElementStore

end Condensation
