/-
  Element solves — solving in every element is the product with one block-diagonal matrix.

  1. **Stores** — what was built from matrices solves consistently: each slot is without a matrix or
     holds the factors of one (`Built`).

  2. **The inverse** — a slot acts as a matrix, and one without a matrix as zero
     (`ElementSlot.inverse`); the store acts as the block-diagonal matrix of its slots
     (`solveVec_eq`).

  3. **Patching** — for non-singular patched matrices this is the inverse of their block-diagonal
     matrix (`inverse_ofBatch`).
-/
import Condensation.ElementStore
import Condensation.Proofs.Elimination
import Condensation.Proofs.Scheduling

namespace Condensation

variable {S : Type} {ne m : Nat}

open Matrix

/-! ## Block-diagonal matrices -/

/-- The matrix with one block for each element. -/
def blocks [Zero S] (M : Fin ne → Matrix (Fin m) (Fin m) S) :
    Matrix (Fin (ne * m)) (Fin (ne * m)) S :=
  .of fun k l =>
    if Pairing.outer k = Pairing.outer l then
      M (Pairing.outer k) (Pairing.inner k) (Pairing.inner l)
    else 0

section Blocks

variable [CommSemiring S]

theorem blocks_mulVec (M : Fin ne → Matrix (Fin m) (Fin m) S) (x : Fin (ne * m) → S)
    (k : Fin (ne * m)) :
    (blocks M *ᵥ x) k = (M (Pairing.outer k) *ᵥ fun j => x (Pairing.join (Pairing.outer k) j))
      (Pairing.inner k) := by
  simp only [Matrix.mulVec, dotProduct, blocks, Matrix.of_apply]
  rw [Pairing.sum_join, Finset.sum_eq_single (Pairing.outer k)]
  · simp
  · intro e _ he
    refine Finset.sum_eq_zero fun j _ => ?_
    simp [Ne.symm he]
  · simp

/-- Products of block-diagonal matrices are taken block by block. -/
theorem blocks_mul (M N : Fin ne → Matrix (Fin m) (Fin m) S) :
    blocks M * blocks N = blocks fun e => M e * N e := by
  funext k l
  have := blocks_mulVec M (fun q => blocks N q l) k
  rw [Matrix.mul_apply]
  show (blocks M *ᵥ fun q => blocks N q l) k = _
  rw [this]
  simp only [Matrix.mulVec, dotProduct, blocks, Matrix.of_apply, Pairing.outer_join,
    Pairing.inner_join]
  by_cases h : Pairing.outer k = Pairing.outer l
  · simp [h, Matrix.mul_apply]
  · simp [h]

theorem blocks_one : (blocks fun _ => 1 : Matrix (Fin (ne * m)) (Fin (ne * m)) S) = 1 := by
  funext k l
  simp only [blocks, Matrix.of_apply, Matrix.one_apply]
  by_cases h : k = l
  · subst h
    simp
  · rw [if_neg h]
    by_cases ho : Pairing.outer k = Pairing.outer l
    · have hi : Pairing.inner k ≠ Pairing.inner l := fun hi => h (by
        rw [← Pairing.join_split k, ← Pairing.join_split l, ho, hi])
      rw [if_pos ho, if_neg hi]
    · rw [if_neg ho]

end Blocks

/-! ## Stores -/

namespace ElementStore

/-- In the beginning no element has a matrix. -/
theorem slot_of_empty [Zero S] {store : ElementStore S ne m} (h : empty? ne m = .ok store)
    (e : Fin ne) : store.slots.get e = ⟨.blank, false⟩ := by
  unfold empty? at h
  obtain ⟨_, -, h⟩ := Outcome.bind_eq_ok_iff.1 h
  obtain ⟨_, -, h⟩ := Outcome.bind_eq_ok_iff.1 h
  obtain ⟨_, -, h⟩ := Outcome.bind_eq_ok_iff.1 h
  obtain ⟨_, -, h⟩ := Outcome.bind_eq_ok_iff.1 h
  obtain ⟨_, -, h⟩ := Outcome.bind_eq_ok_iff.1 h
  obtain rfl : (⟨Vector.replicate ne ⟨.blank, false⟩⟩ : ElementStore S ne m) = store := by
    simpa using h
  exact Vector.get_replicate_eq _ e

theorem element_eq (store : ElementStore S ne m) (e : Fin ne) : store.element e = .ok e :=
  dif_pos e.isLt

section Solving

variable [Sub S] [Mul S] [Div S]

/-- Solving in an element that there is goes by its factors. -/
theorem solve_eq (store : ElementStore S ne m) (e : Fin ne) (x : Vector S m) :
    store.solve e x.toArray =
      (store.slots.get e).factors.solve x >>= fun y => pure y.toArray := by
  rw [solve, element_eq, Outcome.ok_bind, Outcome.sized_toArray, Outcome.ok_bind]

/-- Solving in all elements is solving in every slot, in any order. -/
theorem solveVec_eq_parts [Zero S] {store : ElementStore S ne m} {parts : Fin ne → Vector S m}
    {x : Vector S (ne * m)}
    (h : ∀ e, solveSlot (store.slots.get e) (Pairing.part x e) = .ok (parts e)) (s : Schedule) :
    store.solveVec s x = .ok (Pairing.ofParts (.ofFn parts)) := by
  have hparts : s.each (Vector.ofFn (Pairing.part x))
      (fun e xe => solveSlot (store.slots.get e) xe) = .ok (.ofFn parts) := by
    refine s.each_eq_ok_iff.2 fun e => ?_
    rw [Vector.get_ofFn_eq, Vector.get_ofFn_eq]
    exact h e
  rw [solveVec, hparts]
  rfl

end Solving

section Built

variable [Zero S] [One S] [Neg S] [LT S] [DecidableLT S] [Sub S] [Mul S] [Div S]

/-- Taking a matrix of the right length for an element that there is. -/
theorem assemble_eq (store : ElementStore S ne m) (e : Fin ne) (a : Dense S m m)
    (marked : Vector Bool (ne * m)) :
    store.assemble e a.data.toArray marked.toArray =
      .ok ⟨store.slots.put e (slotOf a (Pairing.part marked e))⟩ := by
  rw [assemble, element_eq, Outcome.ok_bind, Outcome.sized_toArray, Outcome.ok_bind,
    Outcome.sized_toArray, Outcome.ok_bind, Outcome.pure_eq]

/-- Every slot is without a matrix, or holds the factors of one. -/
def Built (store : ElementStore S ne m) : Prop :=
  ∀ e, (store.slots.get e).assembled = true → ∃ a essential, store.slots.get e = slotOf a essential

/-- Taking the matrix of one element replaces its slot. -/
theorem of_assemble {store next : ElementStore S ne m} {e : Nat} {matrix : Array S}
    {essential : Array Bool} (h : store.assemble e matrix essential = .ok next) :
    ∃ (f : Fin ne) (a : Dense S m m) (marked : Vector Bool (ne * m)),
      f.val = e ∧ a.data.toArray = matrix ∧ marked.toArray = essential ∧
        next = ⟨store.slots.put f (slotOf a (Pairing.part marked f))⟩ := by
  unfold assemble at h
  obtain ⟨f, hf, h⟩ := Outcome.bind_eq_ok_iff.1 h
  obtain ⟨a, ha, h⟩ := Outcome.bind_eq_ok_iff.1 h
  obtain ⟨marked, hmarked, h⟩ := Outcome.bind_eq_ok_iff.1 h
  obtain rfl : (⟨store.slots.put f (slotOf ⟨a⟩ (Pairing.part marked f))⟩ : ElementStore S ne m) =
    next := by simpa using h
  refine ⟨f, ⟨a⟩, marked, ?_, Outcome.sized_eq_ok_iff.1 ha, Outcome.sized_eq_ok_iff.1 hmarked, rfl⟩
  unfold element at hf
  split at hf
  · simpa using (congrArg Fin.val (Outcome.ok.inj hf)).symm
  · exact absurd hf (by simp)

/-- The store after all matrices were taken. -/
def ofBatch (batch : Vector S (ne * (m * m))) (marked : Vector Bool (ne * m)) :
    ElementStore S ne m :=
  ⟨.ofFn fun e => slotOf ⟨Pairing.part batch e⟩ (Pairing.part marked e)⟩

theorem assembleAll_eq (store : ElementStore S ne m) (s : Schedule)
    (batch : Vector S (ne * (m * m))) (marked : Vector Bool (ne * m)) :
    store.assembleAll s batch.toArray marked.toArray = .ok (ofBatch batch marked) := by
  rw [assembleAll, Outcome.sized_toArray, Outcome.ok_bind, Outcome.sized_toArray, Outcome.ok_bind,
    s.each_pure]
  rfl

/-- Taking all matrices replaces all slots. -/
theorem of_assembleAll {store next : ElementStore S ne m} {s : Schedule} {batch : Array S}
    {essential : Array Bool} (h : store.assembleAll s batch essential = .ok next) :
    ∃ (matrices : Vector S (ne * (m * m))) (marked : Vector Bool (ne * m)),
      matrices.toArray = batch ∧ marked.toArray = essential ∧ next = ofBatch matrices marked := by
  obtain ⟨matrices, hmatrices, hrest⟩ := Outcome.bind_eq_ok_iff.1 h
  obtain ⟨marked, hmarked, -⟩ := Outcome.bind_eq_ok_iff.1 hrest
  obtain rfl := Outcome.sized_eq_ok_iff.1 hmatrices
  obtain rfl := Outcome.sized_eq_ok_iff.1 hmarked
  rw [assembleAll_eq] at h
  exact ⟨matrices, marked, rfl, rfl, (Outcome.ok.inj h).symm⟩

theorem built_ofBatch (batch : Vector S (ne * (m * m))) (marked : Vector Bool (ne * m)) :
    (ofBatch batch marked).Built :=
  fun e _ => ⟨_, _, Vector.get_ofFn_eq _ e⟩

end Built

end ElementStore

/-! ## The inverse -/

/-- What a slot does to a vector, as a matrix. -/
def ElementSlot.inverse [Field S] (slot : ElementSlot S m) : Matrix (Fin m) (Fin m) S :=
  if slot.assembled then slot.factors.solution else 0

namespace ElementStore

/-- What a store does to a vector, as a matrix. -/
def inverse [Field S] (store : ElementStore S ne m) : Matrix (Fin (ne * m)) (Fin (ne * m)) S :=
  blocks fun e => (store.slots.get e).inverse

/-- The patched matrix of every element. -/
def patched [Zero S] [One S] (batch : Vector S (ne * (m * m))) (marked : Vector Bool (ne * m))
    (e : Fin ne) :
    Matrix (Fin m) (Fin m) S :=
  (Dense.patch ⟨Pairing.part batch e⟩ (Pairing.part marked e)).toMatrix

variable [Field S] [LinearOrder S]

theorem solveSlot_eq {store : ElementStore S ne m} (hbuilt : store.Built) (e : Fin ne)
    (x : Vector S m) :
    solveSlot (store.slots.get e) x =
      .ok (.ofFn ((store.slots.get e).inverse *ᵥ x.get)) := by
  unfold solveSlot ElementSlot.inverse
  by_cases he : (store.slots.get e).assembled = true
  · obtain ⟨a, essential, hslot⟩ := hbuilt e he
    have hconsistent : (store.slots.get e).factors.Consistent := by
      rw [hslot]
      exact Factors.consistent_ofMatrix _
    rw [if_pos he, if_pos he, Factors.solve_eq _ hconsistent]
  · rw [if_neg he, if_neg he]
    congr 1
    refine Vector.ext_get fun i => ?_
    simp

/-- **The inverse**: solving in every element is the product with one matrix. -/
theorem solveVec_eq {store : ElementStore S ne m} (hbuilt : store.Built) (s : Schedule)
    (x : Vector S (ne * m)) :
    store.solveVec s x = .ok (.ofFn (store.inverse *ᵥ x.get)) := by
  rw [solveVec_eq_parts (fun e => solveSlot_eq hbuilt e _) s]
  congr 1
  refine Vector.ext_get fun k => ?_
  rw [Pairing.get_ofParts, Vector.get_ofFn_eq, Vector.get_ofFn_eq, Vector.get_ofFn_eq, inverse,
    blocks_mulVec]
  congr 1
  funext j
  simp

/-- The same on an array of the right length. -/
theorem solveAll_eq {store : ElementStore S ne m} (hbuilt : store.Built) (s : Schedule)
    (x : Vector S (ne * m)) :
    store.solveAll s x.toArray = .ok (Vector.ofFn (store.inverse *ᵥ x.get)).toArray := by
  rw [solveAll, Outcome.sized_toArray, Outcome.ok_bind, solveVec_eq hbuilt]
  rfl

/-! ## Patched matrices -/

/-- **Patching**: the store of non-singular patched matrices holds their inverses. -/
theorem inverse_ofBatch [IsStrictOrderedRing S] {batch : Vector S (ne * (m * m))}
    {marked : Vector Bool (ne * m)}
    (h : ∀ e, (patched batch marked e).det ≠ 0) :
    (ofBatch batch marked).inverse = blocks fun e => (patched batch marked e)⁻¹ := by
  unfold inverse
  congr 1
  funext e
  rw [ofBatch, Vector.get_ofFn_eq]
  exact Factors.solution_ofMatrix (h e)

end ElementStore

end Condensation
