/-
  Jump operator — the two walks over the coupling blocks use one matrix.

  1. **Face rows** — what a face degree of freedom sees of a broken vector is a row of numbers
     (`faceRow`): on each element the sum over the sides that its face has there.

  2. **The matrix** — an interface degree of freedom sees what its face degrees of freedom see
     together (`jumpMatrix`).  Walking over the faces multiplies by this matrix (`jumpVec_eq`).

  3. **The transpose** — the other walk goes over the elements and the faces around each of them.
     It collects the same products, so it multiplies by the transpose (`jumpTransposeVec_eq`).
-/
import Condensation.Reduction
import Condensation.Proofs.FaceSlots
import Condensation.Proofs.Grouping
import Condensation.Proofs.Scheduling

namespace Condensation

variable {S : Type} {disc : Discretization S}

open Matrix

/-- Sums over the parts of a list by key add up to the sum over the list. -/
theorem sum_fiber {α β M : Type} [AddCommMonoid M] [Fintype β] [DecidableEq β] (l : List α)
    (key : α → β) (F : β → α → M) :
    ∑ b, ((l.filter fun a => key a = b).map (F b)).sum = (l.map fun a => F (key a) a).sum := by
  induction l with
  | nil => simp
  | cons a rest ih =>
    have split : ∀ b, (((a :: rest).filter fun a => key a = b).map (F b)).sum =
        (if key a = b then F b a else 0) + ((rest.filter fun a => key a = b).map (F b)).sum := by
      intro b
      by_cases h : key a = b <;> simp [h]
    rw [Finset.sum_congr rfl fun b _ => split b, Finset.sum_add_distrib, ih, List.map_cons,
      List.sum_cons]
    simp

namespace Coupling

/-! ## Face rows -/

/-- What number `j` on face `f` sees of broken degree of freedom `k`. -/
def faceRow [Zero S] [Add S] (c : Coupling disc) (f : Fin disc.nf) (j : Fin disc.n)
    (k : Fin disc.numBroken) : S :=
  ((sidesOn disc (Pairing.outer k) f).map fun side =>
    (c.block side).entry (Pairing.inner k) j).sum

/-- What interface degree of freedom `r` sees of broken degree of freedom `k`. -/
def jumpMatrix [Zero S] [Add S] (c : Coupling disc) :
    Matrix (Fin disc.trace.numLocal) (Fin disc.numBroken) S :=
  .of fun r k => ((disc.trace.ownerTable.of r).map fun q =>
    c.faceRow (Pairing.outer q) (Pairing.inner q) k).sum

variable [CommSemiring S]

/-- A face row is applied side by side. -/
theorem sum_faceRow (c : Coupling disc) (f : Fin disc.nf) (j : Fin disc.n)
    (x : Fin disc.numBroken → S) :
    ∑ k, c.faceRow f j k * x k = ((disc.adjacency.faces.get f).localSides.map fun side =>
      ∑ i, (c.block side).entry i j * x (Pairing.join side.element i)).sum := by
  have onElement : ∀ e : Fin disc.ne,
      ∑ i, c.faceRow f j (Pairing.join e i) * x (Pairing.join e i) =
        ((sidesOn disc e f).map fun side =>
          ∑ i, (c.block side).entry i j * x (Pairing.join e i)).sum := by
    intro e
    simp only [faceRow, Pairing.outer_join, Pairing.inner_join]
    induction sidesOn disc e f with
    | nil => simp
    | cons side rest ih =>
      simp only [List.map_cons, List.sum_cons, add_mul, Finset.sum_add_distrib, ih]
  calc ∑ k, c.faceRow f j k * x k
      = ∑ e, ((sidesOn disc e f).map fun side =>
          ∑ i, (c.block side).entry i j * x (Pairing.join e i)).sum := by
        rw [Pairing.sum_join]
        exact Finset.sum_congr rfl fun e _ => onElement e
    _ = _ := sum_fiber _ (fun side => side.element) fun e side =>
        ∑ i, (c.block side).entry i j * x (Pairing.join e i)

/-- The rows of all faces add up to the walk around one element. -/
theorem sum_faceRow_faces (c : Coupling disc) (w : Fin disc.nf → Fin disc.n → S)
    (e : Fin disc.ne) (i : Fin disc.m) :
    ∑ g, ∑ j, c.faceRow g j (Pairing.join e i) * w g j =
      ((facesOf disc e).map fun x => ∑ j, (c.block x.1).entry i j * w x.2 j).sum := by
  rw [sum_facesOf e fun side g => ∑ j, (c.block side).entry i j * w g j]
  refine Finset.sum_congr rfl fun g _ => ?_
  simp only [faceRow, Pairing.outer_join, Pairing.inner_join]
  induction sidesOn disc e g with
  | nil => simp
  | cons side rest ih =>
    simp only [List.map_cons, List.sum_cons, add_mul, Finset.sum_add_distrib, ih]

/-! ## The matrix -/

theorem jumpMatrix_mulVec (c : Coupling disc) (x : Fin disc.numBroken → S)
    (r : Fin disc.trace.numLocal) :
    (c.jumpMatrix *ᵥ x) r = ((disc.trace.ownerTable.of r).map fun q =>
      ∑ k, c.faceRow (Pairing.outer q) (Pairing.inner q) k * x k).sum := by
  simp only [Matrix.mulVec, dotProduct, jumpMatrix, Matrix.of_apply]
  induction disc.trace.ownerTable.of r with
  | nil => simp
  | cons q rest ih =>
    simp only [List.map_cons, List.sum_cons, add_mul, Finset.sum_add_distrib, ih]

theorem jumpMatrix_transpose_mulVec (c : Coupling disc) (v : Fin disc.trace.numLocal → S)
    (k : Fin disc.numBroken) :
    (c.jumpMatrixᵀ *ᵥ v) k = ∑ g, ∑ j, c.faceRow g j k * v (disc.trace.faceDof g j) := by
  have unfolded : ∀ r, c.jumpMatrix r k * v r =
      (((List.finRange _).filter fun q => disc.trace.gather.get q = r).map fun q =>
        c.faceRow (Pairing.outer q) (Pairing.inner q) k * v r).sum := by
    intro r
    rw [← TraceSpace.ownerTable_of, jumpMatrix, Matrix.of_apply, List.sum_map_mul_right]
  calc (c.jumpMatrixᵀ *ᵥ v) k = ∑ r, c.jumpMatrix r k * v r := rfl
    _ = ∑ q, c.faceRow (Pairing.outer q) (Pairing.inner q) k * v (disc.trace.gather.get q) := by
      rw [Finset.sum_congr rfl fun r _ => unfolded r, sum_fiber _ disc.trace.gather.get fun r q =>
        c.faceRow (Pairing.outer q) (Pairing.inner q) k * v r, ← List.ofFn_eq_map, List.sum_ofFn]
    _ = ∑ g, ∑ j, c.faceRow g j k * v (disc.trace.faceDof g j) := by
      rw [Pairing.sum_join]
      simp only [Pairing.outer_join, Pairing.inner_join]
      rfl

end Coupling

/-! ## The walks -/

namespace Reduction

variable [CommSemiring S]

theorem get_faceJump (red : Reduction disc) (x : Vector S disc.numBroken) (f : Fin disc.nf)
    (j : Fin disc.n) :
    (red.faceJump x f).get j = ∑ k, red.coupling.faceRow f j k * x.get k := by
  have walk : ∀ (sides : List (Slot disc.ne disc.fpe)) (y : Vector S disc.n),
      (sides.foldl (fun y side =>
        (red.coupling.block side).addTransposeMul (Pairing.part x side.element) y) y).get j =
        y.get j + (sides.map fun side =>
          ∑ i, (red.coupling.block side).entry i j * x.get (Pairing.join side.element i)).sum := by
    intro sides
    induction sides with
    | nil => simp
    | cons side rest ih =>
      intro y
      rw [List.foldl_cons, ih, Dense.get_addTransposeMul, List.map_cons, List.sum_cons, add_assoc]
      simp only [Pairing.get_part]
  rw [faceJump, walk, Vector.get_replicate_eq, zero_add, Coupling.sum_faceRow]

/-- **The matrix**: walking over the faces is the product with it. -/
theorem jumpVec_eq (red : Reduction disc) (s : Schedule) (x : Vector S disc.numBroken) :
    red.jumpVec s x = .ok (.ofFn (red.coupling.jumpMatrix *ᵥ x.get)) := by
  rw [jumpVec, s.each_pure, Outcome.ok_bind, s.each_pure]
  congr 2
  funext r
  rw [Coupling.jumpMatrix_mulVec]
  simp only [Vector.get_ofFn_eq, get_faceJump]

theorem get_elementLoad (red : Reduction disc) (v : Vector S disc.trace.numLocal)
    (e : Fin disc.ne) (i : Fin disc.m) :
    (red.elementLoad v e).get i =
      ((Coupling.facesOf disc e).map fun x =>
        ∑ j, (red.coupling.block x.1).entry i j * v.get (disc.trace.faceDof x.2 j)).sum := by
  have walk : ∀ (around : List (Slot disc.ne disc.fpe × Fin disc.nf)) (y : Vector S disc.m),
      (around.foldl (fun y side => (red.coupling.block side.1).addMul
        (Vector.ofFn fun j => v.get (disc.trace.faceDof side.2 j)) y) y).get i =
        y.get i + (around.map fun x =>
          ∑ j, (red.coupling.block x.1).entry i j * v.get (disc.trace.faceDof x.2 j)).sum := by
    intro around
    induction around with
    | nil => simp
    | cons side rest ih =>
      intro y
      rw [List.foldl_cons, ih, Dense.get_addMul, List.map_cons, List.sum_cons, add_assoc]
      simp only [Vector.get_ofFn_eq]
  rw [elementLoad, walk, Vector.get_replicate_eq, zero_add]

/-- **The transpose**: walking over the elements is the product with the transpose. -/
theorem jumpTransposeVec_eq (red : Reduction disc) (s : Schedule)
    (v : Vector S disc.trace.numLocal) :
    red.jumpTransposeVec s v = .ok (.ofFn (red.coupling.jumpMatrixᵀ *ᵥ v.get)) := by
  rw [jumpTransposeVec, s.each_pure, Outcome.ok_bind, Outcome.pure_eq]
  congr 1
  refine Vector.ext_get fun k => ?_
  have around := red.coupling.sum_faceRow_faces (fun g j => v.get (disc.trace.faceDof g j))
    (Pairing.outer k) (Pairing.inner k)
  rw [Pairing.join_split] at around
  rw [Pairing.get_ofParts, Vector.get_ofFn_eq, Vector.get_ofFn_eq, get_elementLoad,
    Coupling.jumpMatrix_transpose_mulVec, around]

/-- The same on an array of the right length; what comes in with it does not matter. -/
theorem jump_eq (red : Reduction disc) (s : Schedule) (x : Vector S disc.numBroken)
    {into : Array S} (hinto : into.size = disc.trace.numLocal) :
    red.jump s x.toArray into = .ok (Vector.ofFn (red.coupling.jumpMatrix *ᵥ x.get)).toArray := by
  have hlen : Outcome.sameLength .traceVector disc.trace.numLocal into.size = .ok () :=
    Outcome.require_eq_ok_iff.2 hinto.symm
  rw [jump, Outcome.sized_toArray, Outcome.ok_bind, hlen, Outcome.ok_bind, jumpVec_eq]
  rfl

theorem jumpTranspose_eq (red : Reduction disc) (s : Schedule) (v : Vector S disc.trace.numLocal)
    {into : Array S} (hinto : into.size = disc.numBroken) :
    red.jumpTranspose s v.toArray into =
      .ok (Vector.ofFn (red.coupling.jumpMatrixᵀ *ᵥ v.get)).toArray := by
  have hlen : Outcome.sameLength .brokenVector disc.numBroken into.size = .ok () :=
    Outcome.require_eq_ok_iff.2 hinto.symm
  rw [jumpTranspose, Outcome.sized_toArray, Outcome.ok_bind, hlen, Outcome.ok_bind,
    jumpTransposeVec_eq]
  rfl

end Reduction

end Condensation
