/-
  Interface form — the symmetry and the quadratic form of the assembled interface matrix.

  Nothing makes the interface matrix symmetric: its blocks are added up face by face, from
  different sides.  It is symmetric because all of them are blocks of one product `C A⁻¹ Cᵀ`.

  1. **Stores** — `Holds` says which matrix every element was given, if any.  Every assembly keeps
     a description of this kind, so every history of a session has one (`holds_after`).

  2. **Elements** — a symmetric patched matrix has a symmetric inverse, a positive one has a
     positive inverse, and an element without a matrix counts as zero.

  3. **The crux (`form_assemble`)** — the form of the assembled matrix is the sum, over the
     elements, of the forms of their inverses at what `Cᵀ` does to them, and of the squares in the
     patched rows.  So it is not negative, and it vanishes just where all of these do.
-/
import Condensation.Proofs.EmptyCopies
import Condensation.Proofs.Histories
import Mathlib.LinearAlgebra.Matrix.Symmetric

namespace Condensation

variable {S : Type}

open Matrix

/-! ## Stores -/

namespace ElementStore

section Holds

variable {ne m : Nat} [Zero S] [One S] [Neg S] [LT S] [DecidableLT S] [Sub S] [Mul S] [Div S]

/-- The elements have the given matrices, patched in the marked places; the others have none. -/
def Holds (store : ElementStore S ne m) (given : Fin ne → Option (Dense S m m))
    (marked : Vector Bool (ne * m)) : Prop :=
  ∀ e, match given e with
    | some a => store.slots.get e = slotOf a (Pairing.part marked e)
    | none => (store.slots.get e).assembled = false

variable {store next : ElementStore S ne m} {given : Fin ne → Option (Dense S m m)}
  {marked : Vector Bool (ne * m)}

theorem Holds.slot_some (h : store.Holds given marked) {e : Fin ne} {a : Dense S m m}
    (he : given e = some a) : store.slots.get e = slotOf a (Pairing.part marked e) := by
  have := h e
  rwa [he] at this

theorem Holds.slot_none (h : store.Holds given marked) {e : Fin ne} (he : given e = none) :
    (store.slots.get e).assembled = false := by
  have := h e
  rwa [he] at this

theorem holds_of_slots (hsome : ∀ e a, given e = some a →
      store.slots.get e = slotOf a (Pairing.part marked e))
    (hnone : ∀ e, given e = none → (store.slots.get e).assembled = false) :
    store.Holds given marked := by
  intro e
  cases he : given e with
  | some a => exact hsome e a he
  | none => exact hnone e he

theorem Holds.built (h : store.Holds given marked) : store.Built := by
  intro e hassembled
  cases he : given e with
  | some a => exact ⟨a, _, h.slot_some he⟩
  | none => exact absurd (h.slot_none he) (by simp [hassembled])

/-- In the beginning no element has a matrix. -/
theorem holds_empty (h : empty? ne m = .ok store) : store.Holds (fun _ => none) marked :=
  fun e => congrArg ElementSlot.assembled (slot_of_empty h e)

/-- One element gets a matrix, and the others keep theirs. -/
theorem Holds.assemble (hholds : store.Holds given marked) {e : Nat} {matrix : Array S}
    (h : store.assemble e matrix marked.toArray = .ok next) :
    ∃ (f : Fin ne) (a : Dense S m m), f.val = e ∧ a.data.toArray = matrix ∧
      next.Holds (fun e' => if e' = f then some a else given e') marked := by
  obtain ⟨f, a, marked', hval, ha, hmarked, rfl⟩ := of_assemble h
  obtain rfl := Vector.toArray_inj.1 hmarked
  refine ⟨f, a, hval, ha, holds_of_slots (fun e' b hb => ?_) fun e' hnone => ?_⟩
  · by_cases he : e' = f
    · subst he
      obtain rfl : a = b := by simpa using hb
      exact Vector.get_put_self _ _ _
    · rw [if_neg he] at hb
      rw [Vector.get_put_of_ne _ _ (Ne.symm he)]
      exact hholds.slot_some hb
  · by_cases he : e' = f
    · simp [he] at hnone
    · rw [if_neg he] at hnone
      rw [Vector.get_put_of_ne _ _ (Ne.symm he)]
      exact hholds.slot_none hnone

/-- All elements get a matrix. -/
theorem holds_assembleAll {s : Schedule} {batch : Array S}
    (h : store.assembleAll s batch marked.toArray = .ok next) :
    ∃ matrices : Vector S (ne * (m * m)), matrices.toArray = batch ∧
      next.Holds (fun e => some ⟨Pairing.part matrices e⟩) marked := by
  obtain ⟨matrices, marks, rfl, hmarks, rfl⟩ := of_assembleAll h
  obtain rfl : marks = marked := Vector.toArray_inj.1 hmarks
  exact ⟨matrices, rfl, fun e => Vector.get_ofFn_eq _ e⟩

end Holds

end ElementStore

namespace Session

variable [Zero S] [One S] [BEq S]

/-- A new reduction has an empty store. -/
theorem store_of_newReduction {disc : Discretization S} {options : Options S}
    {essential : List Nat} {s : Schedule} {place : Place} {faces : FaceBlocks S}
    {reduction : Reduction disc}
    (h : (newReduction disc options essential s place faces).runAlone = .ok reduction) :
    ElementStore.empty? disc.ne disc.m = .ok reduction.store := by
  rw [newReduction_eq, Program.runAlone_bind] at h
  obtain ⟨_, -, h⟩ := Outcome.bind_eq_ok_iff.1 h
  rw [Program.runAlone_bind] at h
  obtain ⟨marked, -, h⟩ := Outcome.bind_eq_ok_iff.1 h
  exact (of_reductionFrom h).2.2.2

variable [Add S] [Sub S] [Mul S] [Div S] [Neg S] [LT S] [DecidableLT S]

/-- **Stores**: after every history each element has a patched matrix that it was given, or
    none. -/
theorem holds_after {disc : Discretization S} {options : Options S} {fresh : Session S}
    (hstart : start disc options = .ok fresh) (ops : List (Operation S))
    {reduction : Reduction (fresh.after ops).disc}
    (h : (fresh.after ops).reduction = some reduction) :
    ∃ given, reduction.store.Holds given reduction.essential := by
  obtain ⟨-, rfl⟩ := start_eq hstart
  refine after_keeps (P := fun session => ∀ reduction, session.reduction = some reduction →
    ∃ given, reduction.store.Holds given reduction.essential) ?_ ?_ ?_ ops reduction h
  · intro session op next hholds hop reduction hreduction
    cases hop with
    | prepare _ made =>
      obtain rfl := Option.some.inj hreduction
      exact ⟨_, ElementStore.holds_empty (store_of_newReduction made)⟩
    | prepareAgain _ made =>
      obtain rfl := Option.some.inj hreduction
      exact ⟨_, ElementStore.holds_empty (store_of_newReduction made)⟩
    | assemble held taken =>
      obtain rfl := Option.some.inj hreduction
      obtain ⟨given, hgiven⟩ := hholds _ held
      obtain ⟨_, _, -, -, hnext⟩ := hgiven.assemble taken
      exact ⟨_, hnext⟩
    | assembleAll held taken =>
      obtain rfl := Option.some.inj hreduction
      obtain ⟨_, -, hnext⟩ := ElementStore.holds_assembleAll taken
      exact ⟨_, hnext⟩
    | finalize | handOver | reduce | recover => exact hholds reduction hreduction
    | reset | update => exact absurd hreduction (by simp [reset])
  · exact fun session essential hholds _ => hholds
  · exact fun reduction hreduction => absurd hreduction (by simp)

end Session

/-! ## Elements -/

section Elements

variable [Field S] {ne m : Nat}

theorem blocks_isSymm {M : Fin ne → Matrix (Fin m) (Fin m) S} (h : ∀ e, (M e).IsSymm) :
    (blocks M).IsSymm := by
  refine Matrix.IsSymm.ext fun k l => ?_
  simp only [blocks, Matrix.of_apply]
  by_cases he : Pairing.outer k = Pairing.outer l
  · rw [if_pos he, if_pos he.symm, he]
    exact (h _).apply _ _
  · rw [if_neg he, if_neg (Ne.symm he)]

/-- Patching keeps a matrix symmetric. -/
theorem Dense.isSymm_patch {a : Dense S m m} (h : a.toMatrix.IsSymm) (marked : Vector Bool m) :
    (a.patch marked).toMatrix.IsSymm := by
  refine Matrix.IsSymm.ext fun i j => ?_
  have hij : a.entry j i = a.entry i j := h.apply i j
  simp only [Dense.toMatrix_apply, Dense.patch, Dense.entry_ofFn, hij, Bool.or_comm, eq_comm]

/-- The form of a block-diagonal matrix is the sum of the forms of its blocks. -/
theorem form_blocks (M : Fin ne → Matrix (Fin m) (Fin m) S) (x : Fin (ne * m) → S) :
    x ⬝ᵥ (blocks M *ᵥ x) =
      ∑ e, (fun i => x (Pairing.join e i)) ⬝ᵥ (M e *ᵥ fun i => x (Pairing.join e i)) := by
  rw [dotProduct, Pairing.sum_join]
  refine Finset.sum_congr rfl fun e _ => ?_
  simp only [blocks_mulVec, Pairing.outer_join, Pairing.inner_join]
  rfl

variable [LinearOrder S]

/-- The inverse of a positive matrix is positive. -/
theorem Positive.inv {A : Matrix (Fin m) (Fin m) S} (hA : Positive A) : Positive A⁻¹ := by
  intro x hx
  have hAinv : A * A⁻¹ = 1 := Matrix.mul_nonsing_inv _ (isUnit_iff_ne_zero.2 hA.det_ne_zero)
  have hsolved : A *ᵥ (A⁻¹ *ᵥ x) = x := by
    rw [Matrix.mulVec_mulVec, hAinv, Matrix.one_mulVec]
  have hne : A⁻¹ *ᵥ x ≠ 0 := fun h => hx (by rw [← hsolved, h, Matrix.mulVec_zero])
  have hpos := hA _ hne
  rwa [hsolved, dotProduct_comm] at hpos

/-- The form of a positive matrix vanishes at zero only. -/
theorem Positive.form_eq_zero_iff {A : Matrix (Fin m) (Fin m) S} (hA : Positive A)
    (x : Fin m → S) : x ⬝ᵥ (A *ᵥ x) = 0 ↔ x = 0 := by
  constructor
  · intro h
    by_contra hx
    exact absurd h (ne_of_gt (hA x hx))
  · rintro rfl
    simp

namespace ElementStore

variable {store : ElementStore S ne m} {given : Fin ne → Option (Dense S m m)}
  {marked : Vector Bool (ne * m)}

theorem inverse_of_none (h : store.Holds given marked) {e : Fin ne} (he : given e = none) :
    (store.slots.get e).inverse = 0 := by
  simp [ElementSlot.inverse, h.slot_none he]

variable [IsStrictOrderedRing S]

theorem inverse_of_some (h : store.Holds given marked) {e : Fin ne} {a : Dense S m m}
    (he : given e = some a) (hdet : (a.patch (Pairing.part marked e)).toMatrix.det ≠ 0) :
    (store.slots.get e).inverse = (a.patch (Pairing.part marked e)).toMatrix⁻¹ := by
  rw [h.slot_some he]
  exact Factors.solution_ofMatrix hdet

/-- Symmetric elements are solved with by a symmetric matrix. -/
theorem inverse_isSymm (h : store.Holds given marked)
    (hsymm : ∀ e a, given e = some a → (a.patch (Pairing.part marked e)).toMatrix.IsSymm ∧
      (a.patch (Pairing.part marked e)).toMatrix.det ≠ 0) : store.inverse.IsSymm := by
  refine blocks_isSymm fun e => ?_
  cases he : given e with
  | some a =>
    obtain ⟨hsymm, hdet⟩ := hsymm e a he
    rw [inverse_of_some h he hdet, Matrix.IsSymm, Matrix.transpose_nonsing_inv, hsymm]
  | none =>
    rw [inverse_of_none h he]
    exact Matrix.isSymm_zero

/-- The form of a solved positive element is not negative, and vanishes only where the element
    has no matrix or is not loaded. -/
theorem form_inverse (h : store.Holds given marked)
    (hpos : ∀ e a, given e = some a → Positive a.toMatrix) (e : Fin ne) (x : Fin m → S) :
    0 ≤ x ⬝ᵥ ((store.slots.get e).inverse *ᵥ x) ∧
      (x ⬝ᵥ ((store.slots.get e).inverse *ᵥ x) = 0 ↔ (given e ≠ none → x = 0)) := by
  cases he : given e with
  | some a =>
    have hpatched := (hpos e a he).patch (Pairing.part marked e)
    rw [inverse_of_some h he hpatched.det_ne_zero]
    refine ⟨hpatched.inv.nonneg x, (hpatched.inv.form_eq_zero_iff x).trans ?_⟩
    simp
  | none =>
    rw [inverse_of_none h he]
    simp

end ElementStore

end Elements

/-! ## The form -/

namespace Coupling

variable {disc : Discretization S} [Field S] {c : Coupling disc}
  {store : ElementStore S disc.ne disc.m}

theorem schur_isSymm (h : store.inverse.IsSymm) : (c.schur store).IsSymm := by
  rw [schur, Matrix.IsSymm, Matrix.transpose_mul, Matrix.transpose_mul, Matrix.transpose_transpose,
    h, Matrix.mul_assoc]

variable [LinearOrder S] {s : Schedule} {rows : Assembled S disc.trace.numLocal}

/-- The assembled matrix of symmetric elements is symmetric, patched rows included. -/
theorem entry_assemble_comm (hbuilt : store.Built) (h : c.assemble s store = .ok rows)
    (hsymm : store.inverse.IsSymm) (i j : Fin disc.trace.numLocal) :
    rows.matrix.entry i j = rows.matrix.entry j i := by
  have hpatch : (i = j ∧ i ∈ rows.emptyRows) ↔ (j = i ∧ j ∈ rows.emptyRows) := by
    constructor
    · rintro ⟨rfl, hi⟩
      exact ⟨rfl, hi⟩
    · rintro ⟨rfl, hi⟩
      exact ⟨rfl, hi⟩
  rw [entry_assemble hbuilt h, entry_assemble hbuilt h, (schur_isSymm hsymm).apply,
    if_congr hpatch rfl rfl]

/-- **The crux**: the form of the assembled matrix, element by element and patched row by patched
    row. -/
theorem form_assemble (hbuilt : store.Built) (h : c.assemble s store = .ok rows)
    (v : Vector S disc.trace.numLocal) :
    v.get ⬝ᵥ (rows.matrix.mulVec v).get =
      (∑ e, (fun i => (c.jumpMatrixᵀ *ᵥ v.get) (Pairing.join e i)) ⬝ᵥ
        ((store.slots.get e).inverse *ᵥ
          fun i => (c.jumpMatrixᵀ *ᵥ v.get) (Pairing.join e i))) +
      ∑ r, if r ∈ rows.emptyRows then v.get r * v.get r else 0 := by
  have hrow : ∀ r, v.get r * (rows.matrix.mulVec v).get r =
      v.get r * (c.schur store *ᵥ v.get) r +
        if r ∈ rows.emptyRows then v.get r * v.get r else 0 := by
    intro r
    obtain ⟨hcoupled, hempty⟩ := mulVec_row hbuilt h v r
    by_cases hr : r ∈ rows.emptyRows
    · rw [(hempty hr).1, (hempty hr).2, if_pos hr, mul_zero, zero_add]
    · rw [hcoupled hr, if_neg hr, add_zero]
  have hschur : v.get ⬝ᵥ (c.schur store *ᵥ v.get) =
      (c.jumpMatrixᵀ *ᵥ v.get) ⬝ᵥ (store.inverse *ᵥ (c.jumpMatrixᵀ *ᵥ v.get)) := by
    rw [schur, ← Matrix.mulVec_mulVec, ← Matrix.mulVec_mulVec, Matrix.dotProduct_mulVec,
      Matrix.mulVec_transpose]
  rw [← form_blocks, dotProduct, Finset.sum_congr rfl fun r _ => hrow r, Finset.sum_add_distrib]
  exact congrArg (· + _) hschur

end Coupling

/-! ## The result -/

namespace Reduction

variable {disc : Discretization S} [Field S] [LinearOrder S] [IsStrictOrderedRing S]

/-- **The result**: where the patched matrices that the elements were given are symmetric and
    non-singular, the assembled interface matrix is symmetric, patched rows included.  Where the
    given matrices are positive, its form is not negative, and it vanishes at an interface vector
    just if `Cᵀ` of it vanishes on all elements with a matrix, and it does in the patched rows. -/
theorem assembled_symmetric_semidefinite (red : Reduction disc)
    {given : Fin disc.ne → Option (Dense S disc.m disc.m)}
    (hgiven : red.store.Holds given red.essential) (s : Schedule)
    {rows : Coupling.Assembled S disc.trace.numLocal}
    (hrows : red.coupling.assemble s red.store = .ok rows) :
    ((∀ e a, given e = some a →
        (a.patch (Pairing.part red.essential e)).toMatrix.IsSymm ∧
          (a.patch (Pairing.part red.essential e)).toMatrix.det ≠ 0) →
      ∀ i j, rows.matrix.entry i j = rows.matrix.entry j i) ∧
    ((∀ e a, given e = some a → Positive a.toMatrix) →
      ∀ v : Vector S disc.trace.numLocal, 0 ≤ v.get ⬝ᵥ (rows.matrix.mulVec v).get ∧
        ∃ load : Vector S disc.numBroken,
          (∀ s' (into : Array S), into.size = disc.numBroken →
            red.jumpTranspose s' v.toArray into = .ok load.toArray) ∧
          (v.get ⬝ᵥ (rows.matrix.mulVec v).get = 0 ↔
            (∀ e, given e ≠ none → ∀ i, load.get (Pairing.join e i) = 0) ∧
              ∀ r ∈ rows.emptyRows, v.get r = 0)) := by
  refine ⟨fun hsymm => ?_, fun hpos v => ?_⟩
  · exact Coupling.entry_assemble_comm hgiven.built hrows (ElementStore.inverse_isSymm hgiven hsymm)
  · have hform := Coupling.form_assemble hgiven.built hrows v
    have helement := fun e => ElementStore.form_inverse hgiven hpos e
      fun i => (red.coupling.jumpMatrixᵀ *ᵥ v.get) (Pairing.join e i)
    have hsquare : ∀ r, 0 ≤ if r ∈ rows.emptyRows then v.get r * v.get r else 0 := by
      intro r
      split_ifs
      · exact mul_self_nonneg _
      · exact le_rfl
    have helements := Finset.sum_nonneg fun e (_ : e ∈ Finset.univ) => (helement e).1
    have hsquares := Finset.sum_nonneg fun r (_ : r ∈ Finset.univ) => hsquare r
    refine ⟨hform ▸ add_nonneg helements hsquares, .ofFn (red.coupling.jumpMatrixᵀ *ᵥ v.get),
      fun s' into hinto => red.jumpTranspose_eq s' v hinto, ?_⟩
    -- a sum of terms that are not negative vanishes when all of them do
    rw [hform, add_eq_zero_iff_of_nonneg helements hsquares,
      Finset.sum_eq_zero_iff_of_nonneg fun e _ => (helement e).1,
      Finset.sum_eq_zero_iff_of_nonneg fun r _ => hsquare r]
    refine and_congr ?_ ?_
    · refine ⟨fun h e he i => ?_, fun h e _ => ?_⟩
      · rw [Vector.get_ofFn_eq]
        exact congrFun ((helement e).2.1 (h e (Finset.mem_univ e)) he) i
      · refine (helement e).2.2 fun he => funext fun i => ?_
        have := h e he i
        rwa [Vector.get_ofFn_eq] at this
    · refine ⟨fun h r hr => ?_, fun h r _ => ?_⟩
      · have := h r (Finset.mem_univ r)
        rw [if_pos hr] at this
        exact mul_self_eq_zero.1 this
      · by_cases hr : r ∈ rows.emptyRows
        · rw [if_pos hr, h r hr, mul_zero]
        · rw [if_neg hr]

/-- The matrices that the elements of `oneAssembled` were given. -/
def oneGiven (e : Fin twoElements.ne) : Option (Dense Rat twoElements.m twoElements.m) :=
  if e.val = 0 then some (.ofFn fun _ _ => 2) else none

/-- So it is for two elements of which the second has no matrix. -/
theorem oneAssembled_symmetric_semidefinite :
    oneAssembled.store.Holds oneGiven oneAssembled.essential ∧
    ∃ rows, oneAssembled.coupling.assemble .inOrder oneAssembled.store = .ok rows ∧
      (∀ i j, rows.matrix.entry i j = rows.matrix.entry j i) ∧
      ∀ v : Vector Rat twoElements.trace.numLocal, 0 ≤ v.get ⬝ᵥ (rows.matrix.mulVec v).get := by
  have hgiven : oneAssembled.store.Holds oneGiven oneAssembled.essential := by
    intro e
    change Fin 2 at e
    fin_cases e
    · rfl
    · rfl
  have hmatrix : ∀ e a, oneGiven e = some a → a = .ofFn fun _ _ => 2 := by
    intro e a ha
    unfold oneGiven at ha
    split at ha
    · exact (Option.some.inj ha).symm
    · exact absurd ha (by simp)
  have hpos : ∀ e a, oneGiven e = some a → Positive a.toMatrix := by
    intro e a ha
    rw [hmatrix e a ha]
    exact Positive.of_one (show (0 : Rat) < 2 by norm_num)
  have hsymm : ∀ e a, oneGiven e = some a →
      (a.patch (Pairing.part oneAssembled.essential e)).toMatrix.IsSymm ∧
        (a.patch (Pairing.part oneAssembled.essential e)).toMatrix.det ≠ 0 := by
    intro e a ha
    refine ⟨Dense.isSymm_patch ?_ _, ((hpos e a ha).patch _).det_ne_zero⟩
    rw [hmatrix e a ha]
    exact Matrix.IsSymm.ext fun i j => by simp
  obtain ⟨rows, hrows⟩ := Coupling.assemble_returns room_twoElements (by decide)
    oneAssembled.coupling .inOrder built_oneAssembled
  obtain ⟨hcomm, hform⟩ := assembled_symmetric_semidefinite oneAssembled hgiven .inOrder hrows
  exact ⟨hgiven, rows, hrows, hcomm hsymm, fun v => (hform hpos v).1⟩

end Reduction

end Condensation
