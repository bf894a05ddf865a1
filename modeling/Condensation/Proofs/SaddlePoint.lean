/-
  Saddle point — the condensed system and the original one have the same solutions.

  The original system asks for a broken vector `x` and an interface vector `v` such that
  `A x + Cᵀ v` is the load in every place that is not essential, `x` vanishes in the essential
  places, and the faces see no jump: `C x = 0`.  The condensed system is `H v = C A⁻¹ load`.

  1. **Essential places** — the patched matrix is the identity there and `C` does not see them, so
     the load may be cleared in these places before it is solved for (`jump_solve_masked`).  Hence
     the solution of the original system, for given `v`, is `A⁻¹` of the cleared residual as soon
     as the faces see no jump of it (`saddlePoint_iff`).

  2. **Rows of the identity** — a row of `H` becomes a row of the identity if it received nothing.
     Then the form of `A⁻¹` vanishes at the face rows, and they are zero (`jumpMatrix_of_empty`):
     nothing is lost by the patch.

  3. **The crux (`condensed_iff_saddlePoint`)** — so both systems have the same interface vectors,
     but that the condensed one also fixes the interface unknowns that nothing is coupled to.
-/
import Condensation.Proofs.Composition
import Condensation.Proofs.Positivity
import Condensation.Proofs.Preparation

namespace Condensation

variable {S : Type} {disc : Discretization S}

open Matrix

/-! ## The original system -/

/-- The patched element matrices as one matrix. -/
def elementMatrix [Zero S] [One S] {ne m : Nat} (batch : Vector S (ne * (m * m)))
    (essential : Vector Bool (ne * m)) : Matrix (Fin (ne * m)) (Fin (ne * m)) S :=
  blocks fun e => ElementStore.patched batch essential e

/-- The broken vector `x` solves the original system together with the interface vector `v`. -/
structure SaddlePoint [CommSemiring S] (red : Reduction disc)
    (batch : Vector S (disc.ne * (disc.m * disc.m))) (load : Vector S disc.numBroken)
    (v : Vector S disc.trace.numLocal) (x : Vector S disc.numBroken) : Prop where
  essential : ∀ k, red.essential.get k = true → x.get k = 0
  balance : ∃ t, red.jumpTransposeVec .inOrder v = .ok t ∧ ∀ k, red.essential.get k = false →
    (elementMatrix batch red.essential *ᵥ x.get) k + t.get k = load.get k
  continuity : red.jumpVec .inOrder x = .ok (.replicate _ 0)

/-! ## Essential places -/

section Essential

variable [Field S]

theorem elementMatrix_mulVec {ne m : Nat} (batch : Vector S (ne * (m * m)))
    (essential : Vector Bool (ne * m)) (x : Fin (ne * m) → S) (k : Fin (ne * m)) :
    (elementMatrix batch essential *ᵥ x) k = if essential.get k then x k else
      ((⟨Pairing.part batch (Pairing.outer k)⟩ : Dense S m m).toMatrix *ᵥ
        fun i => masked essential x (Pairing.join (Pairing.outer k) i)) (Pairing.inner k) := by
  rw [elementMatrix, blocks_mulVec, ElementStore.patched, patch_mulVec, Pairing.get_part,
    Pairing.join_split]
  refine if_congr Iff.rfl rfl ?_
  congr 2
  funext i
  simp [masked]

/-- Vectors in the essential places stay as they are. -/
theorem elementMatrix_mulVec_essential {ne m : Nat} (batch : Vector S (ne * (m * m)))
    (essential : Vector Bool (ne * m)) {d : Fin (ne * m) → S}
    (hd : ∀ k, essential.get k = false → d k = 0) :
    elementMatrix batch essential *ᵥ d = d := by
  have hmask : masked essential d = 0 := by
    funext k
    by_cases hk : essential.get k = true
    · simp [masked, hk]
    · simp [masked, hk, hd k (by simpa using hk)]
  funext k
  rw [elementMatrix_mulVec, hmask]
  by_cases hk : essential.get k = true
  · rw [if_pos hk]
  · have hzero : (fun i => (0 : Fin (ne * m) → S) (Pairing.join (Pairing.outer k) i)) = 0 := rfl
    rw [if_neg hk, hzero, Matrix.mulVec_zero, hd k (by simpa using hk)]
    rfl

/-- No face sees an essential place. -/
theorem jumpMatrix_essential {c : Coupling disc} {essential : Vector Bool disc.numBroken}
    (hc : c.Cleared essential) (r : Fin disc.trace.numLocal) {k : Fin disc.numBroken}
    (hk : essential.get k = true) : c.jumpMatrix r k = 0 := by
  have row : ∀ f j, c.faceRow f j k = 0 := by
    intro f j
    refine List.sum_eq_zero fun a ha => ?_
    obtain ⟨side, hside, rfl⟩ := List.mem_map.1 ha
    have he : side.element = Pairing.outer k := by simpa using (List.mem_filter.1 hside).2
    refine hc side _ _ ?_
    rw [he, Pairing.join_split]
    exact hk
  simp [Coupling.jumpMatrix, row]

variable {batch : Vector S (disc.ne * (disc.m * disc.m))} {essential : Vector Bool disc.numBroken}
  {B : Matrix (Fin disc.numBroken) (Fin disc.numBroken) S}

/-- **Essential places** of the load do not matter for the jump of its solution. -/
theorem jump_solve_masked {c : Coupling disc} (hc : c.Cleared essential)
    (hBA : B * elementMatrix batch essential = 1) (y : Fin disc.numBroken → S) :
    c.jumpMatrix *ᵥ (B *ᵥ masked essential y) = c.jumpMatrix *ᵥ (B *ᵥ y) := by
  let d : Fin disc.numBroken → S := y - masked essential y
  have hd : ∀ k, essential.get k = false → d k = 0 := by
    intro k hk
    simp [d, masked, hk]
  have hBd : B *ᵥ d = d := by
    conv_lhs => rw [← elementMatrix_mulVec_essential batch essential hd]
    rw [Matrix.mulVec_mulVec, hBA, Matrix.one_mulVec]
  have hCd : c.jumpMatrix *ᵥ d = 0 := by
    funext r
    show ∑ k, c.jumpMatrix r k * d k = 0
    refine Finset.sum_eq_zero fun k _ => ?_
    by_cases hk : essential.get k = true
    · rw [jumpMatrix_essential hc r hk, zero_mul]
    · rw [hd k (by simpa using hk), mul_zero]
  have hy : y = masked essential y + d := by simp [d]
  conv_rhs => rw [hy, Matrix.mulVec_add, hBd, Matrix.mulVec_add, hCd, add_zero]

/-- For a given interface vector there is at most one solution: `A⁻¹` of the cleared residual. -/
theorem saddlePoint_iff {red : Reduction disc} {load : Vector S disc.numBroken}
    (hAB : elementMatrix batch red.essential * B = 1)
    (hBA : B * elementMatrix batch red.essential = 1)
    (v : Vector S disc.trace.numLocal) (x : Vector S disc.numBroken) :
    SaddlePoint red batch load v x ↔
      x.get = B *ᵥ masked red.essential (load.get - red.coupling.jumpMatrixᵀ *ᵥ v.get) ∧
        red.coupling.jumpMatrix *ᵥ x.get = 0 := by
  have hrows : ∀ k, red.essential.get k = true →
      (elementMatrix batch red.essential *ᵥ x.get) k = x.get k := by
    intro k hk
    rw [elementMatrix_mulVec, if_pos hk]
  have hjump : red.jumpVec .inOrder x = .ok (.replicate _ 0) ↔
      red.coupling.jumpMatrix *ᵥ x.get = 0 := by
    rw [red.jumpVec_eq, Outcome.ok.injEq]
    constructor
    · intro h
      funext r
      have := congrArg (fun w => w.get r) h
      simpa using this
    · intro h
      refine Vector.ext_get fun r => ?_
      simp [h]
  have hsolve : x.get = B *ᵥ masked red.essential (load.get - red.coupling.jumpMatrixᵀ *ᵥ v.get) ↔
      elementMatrix batch red.essential *ᵥ x.get =
        masked red.essential (load.get - red.coupling.jumpMatrixᵀ *ᵥ v.get) := by
    constructor
    · intro h
      rw [h, Matrix.mulVec_mulVec, hAB, Matrix.one_mulVec]
    · intro h
      rw [← h, Matrix.mulVec_mulVec, hBA, Matrix.one_mulVec]
  rw [hsolve]
  constructor
  · rintro ⟨hess, ⟨t, ht, hbal⟩, hcont⟩
    rw [red.jumpTransposeVec_eq, Outcome.ok.injEq] at ht
    refine ⟨?_, hjump.1 hcont⟩
    funext k
    by_cases hk : red.essential.get k = true
    · rw [hrows k hk, hess k hk]
      simp [masked, hk]
    · have := hbal k (by simpa using hk)
      rw [← ht, Vector.get_ofFn_eq] at this
      simp only [masked, hk, Pi.sub_apply]
      rw [← this]
      simp
  · rintro ⟨hA, hcont⟩
    refine ⟨fun k hk => ?_, ⟨_, red.jumpTransposeVec_eq .inOrder v, fun k hk => ?_⟩,
      hjump.2 hcont⟩
    · rw [← hrows k hk, hA]
      simp [masked, hk]
    · rw [hA, Vector.get_ofFn_eq]
      simp [masked, hk]

end Essential

/-! ## Rows of the identity -/

/-- A row that receives nothing has zeros in the blocks it would be read from. -/
theorem FaceGraph.entry_of_empty [Zero S] [BEq S] [LawfulBEq S] {nf : Nat} {space : TraceSpace S nf}
    {graph : FaceGraph S nf space.dofsPerFace} {r : Fin space.numLocal}
    (hr : graph.rowEntries space r = []) {q : Fin (nf * space.dofsPerFace)}
    (hq : q ∈ space.ownerTable.of r) {link : Fin nf × Dense S space.dofsPerFace space.dofsPerFace}
    (hlink : link ∈ (graph.faces.get (Pairing.outer q)).linked) (j : Fin space.dofsPerFace) :
    link.2.entry (Pairing.inner q) j = 0 := by
  unfold FaceGraph.rowEntries at hr
  have hface := List.flatMap_eq_nil_iff.1 hr q hq
  have hblock := List.flatMap_eq_nil_iff.1 hface link hlink
  by_contra hne
  have := List.filterMap_eq_nil_iff.1 hblock j (List.mem_finRange j)
  simp [hne] at this

section Rows

variable [Field S] [LinearOrder S] [IsStrictOrderedRing S]
  {batch : Vector S (disc.ne * (disc.m * disc.m))} {essential : Vector Bool disc.numBroken}

/-- Non-singular patched matrices are solved with by the inverse of their block-diagonal matrix. -/
theorem elementMatrix_inverses {essential : Vector Bool disc.numBroken}
    (hdet : ∀ e, (ElementStore.patched batch essential e).det ≠ 0) :
    elementMatrix batch essential * (ElementStore.ofBatch batch essential).inverse = 1 ∧
      (ElementStore.ofBatch batch essential).inverse * elementMatrix batch essential = 1 := by
  have hunit : ∀ e, IsUnit (ElementStore.patched batch essential e).det :=
    fun e => isUnit_iff_ne_zero.2 (hdet e)
  refine ⟨?_, ?_⟩
  · rw [ElementStore.inverse_ofBatch hdet, elementMatrix, blocks_mul]
    simp only [Matrix.mul_nonsing_inv _ (hunit _)]
    exact blocks_one
  · rw [ElementStore.inverse_ofBatch hdet, elementMatrix, blocks_mul]
    simp only [Matrix.nonsing_inv_mul _ (hunit _)]
    exact blocks_one

/-- The matrix of the elements, and the one that solves with it. -/
theorem elementMatrix_mul_inverse
    (hpos : ∀ e, Positive (⟨Pairing.part batch e⟩ : Dense S disc.m disc.m).toMatrix)
    (essential : Vector Bool disc.numBroken) :
    Positive (elementMatrix batch essential) ∧
      elementMatrix batch essential * (ElementStore.ofBatch batch essential).inverse = 1 ∧
      (ElementStore.ofBatch batch essential).inverse * elementMatrix batch essential = 1 := by
  have hpatched : ∀ e, Positive (ElementStore.patched batch essential e) :=
    fun e => (hpos e).patch (Pairing.part essential e)
  exact ⟨.blocks hpatched, elementMatrix_inverses fun e => (hpatched e).det_ne_zero⟩

/-- **Rows of the identity** stand where the faces see nothing. -/
theorem jumpMatrix_of_empty
    (hpos : ∀ e, Positive (⟨Pairing.part batch e⟩ : Dense S disc.m disc.m).toMatrix)
    {c : Coupling disc} {s : Schedule} {rows : Coupling.Assembled S disc.trace.numLocal}
    (hrows : c.assemble s (ElementStore.ofBatch batch essential) = .ok rows)
    {r : Fin disc.trace.numLocal} (hr : r ∈ rows.emptyRows) (k : Fin disc.numBroken) :
    c.jumpMatrix r k = 0 := by
  obtain ⟨presolved, graph, hblocks, hlinked, hempty, -⟩ :=
    Coupling.assemble_spec (ElementStore.built_ofBatch batch essential) hrows
  have hnone : graph.rowEntries disc.trace r = [] := by
    simpa [hempty, FaceGraph.unreached] using hr
  obtain ⟨hA, hAB, -⟩ := elementMatrix_mul_inverse hpos essential
  have row : ∀ q ∈ disc.trace.ownerTable.of r,
      c.faceRow (Pairing.outer q) (Pairing.inner q) = 0 := by
    intro q hq
    -- the weight one at the face degree of freedom itself makes its own face row the load
    let w : Fin disc.nf → Fin disc.n → S := fun g j =>
      if g = Pairing.outer q then (if j = Pairing.inner q then 1 else 0) else 0
    have load : (fun l => ∑ g, ∑ j, c.faceRow g j l * w g j) =
        c.faceRow (Pairing.outer q) (Pairing.inner q) := by
      funext l
      rw [Finset.sum_eq_single (Pairing.outer q)]
      · simp [w]
      · intro g _ hg
        simp [w, hg]
      · simp
    have hsum := Coupling.sum_coupled c presolved _ hblocks w (Pairing.outer q) (Pairing.inner q)
    have hzero : ((Coupling.coupled c presolved (Pairing.outer q)).map
        (FaceLinks.pull w (Pairing.inner q))).sum = 0 := by
      refine List.sum_eq_zero fun a ha => ?_
      obtain ⟨link, hlink, rfl⟩ := List.mem_map.1 ha
      rw [← hlinked] at hlink
      refine Finset.sum_eq_zero fun j _ => ?_
      rw [FaceGraph.entry_of_empty hnone hq hlink j, zero_mul]
    rw [hzero, load] at hsum
    exact hA.eq_zero_of_inverse hAB hsum.symm
  refine List.sum_eq_zero fun a ha => ?_
  obtain ⟨q, hq, rfl⟩ := List.mem_map.1 ha
  rw [row q hq]
  rfl

/-! ## Both systems -/

/-- **The crux**: an interface vector solves the condensed system exactly when it vanishes in the
    rows of the identity and belongs to a solution of the original system. -/
theorem condensed_iff_saddlePoint {red : Reduction disc}
    (hcleared : red.coupling.Cleared red.essential)
    (hpos : ∀ e, Positive (⟨Pairing.part batch e⟩ : Dense S disc.m disc.m).toMatrix)
    {s : Schedule} {rows : Coupling.Assembled S disc.trace.numLocal}
    (hrows : red.coupling.assemble s (ElementStore.ofBatch batch red.essential) = .ok rows)
    (load : Vector S disc.numBroken) (v : Vector S disc.trace.numLocal) :
    (∀ r, (rows.matrix.mulVec v).get r = (red.coupling.jumpMatrix *ᵥ
        ((ElementStore.ofBatch batch red.essential).inverse *ᵥ load.get)) r) ↔
      (∀ r ∈ rows.emptyRows, v.get r = 0) ∧ ∃ x, SaddlePoint red batch load v x := by
  obtain ⟨-, hAB, hBA⟩ := elementMatrix_mul_inverse hpos red.essential
  generalize hB : (ElementStore.ofBatch batch red.essential).inverse = B at hAB hBA
  have hrow := Coupling.mulVec_row (ElementStore.built_ofBatch batch red.essential) hrows v
  have hempty : ∀ r ∈ rows.emptyRows, ∀ y, (red.coupling.jumpMatrix *ᵥ y) r = 0 := by
    intro r hr y
    show ∑ k, red.coupling.jumpMatrix r k * y k = 0
    refine Finset.sum_eq_zero fun k _ => ?_
    rw [jumpMatrix_of_empty hpos hrows hr, zero_mul]
  have hresidual : red.coupling.jumpMatrix *ᵥ (B *ᵥ
      masked red.essential (load.get - red.coupling.jumpMatrixᵀ *ᵥ v.get)) =
        red.coupling.jumpMatrix *ᵥ (B *ᵥ load.get) - red.coupling.schur
          (ElementStore.ofBatch batch red.essential) *ᵥ v.get := by
    rw [jump_solve_masked hcleared hBA, Matrix.mulVec_sub, Matrix.mulVec_sub, Coupling.schur, hB,
      Matrix.mulVec_mulVec, Matrix.mulVec_mulVec, Matrix.mulVec_mulVec, Matrix.mul_assoc]
  constructor
  · intro h
    have hvanish : ∀ r ∈ rows.emptyRows, v.get r = 0 := by
      intro r hr
      rw [← ((hrow r).2 hr).1, h r]
      exact hempty r hr _
    refine ⟨hvanish, .ofFn (B *ᵥ masked red.essential
      (load.get - red.coupling.jumpMatrixᵀ *ᵥ v.get)), ?_⟩
    rw [saddlePoint_iff hAB hBA]
    refine ⟨Vector.ofFn_get _, ?_⟩
    rw [Vector.ofFn_get, hresidual]
    funext r
    rw [Pi.sub_apply, Pi.zero_apply, sub_eq_zero]
    by_cases hr : r ∈ rows.emptyRows
    · rw [hempty r hr, ((hrow r).2 hr).2]
    · rw [← h r, (hrow r).1 hr]
  · rintro ⟨hvanish, x, hx⟩ r
    obtain ⟨hsolved, hcont⟩ := (saddlePoint_iff hAB hBA v x).1 hx
    rw [hsolved, hresidual] at hcont
    have := congrFun hcont r
    rw [Pi.sub_apply, Pi.zero_apply, sub_eq_zero] at this
    by_cases hr : r ∈ rows.emptyRows
    · rw [((hrow r).2 hr).1, hvanish r hr, hempty r hr]
    · rw [(hrow r).1 hr, this]

end Rows

end Condensation
