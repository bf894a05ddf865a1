/-
  Composition — the assembled interface matrix is the composed operator.

  The interface matrix is assembled face by face: presolved blocks, products in the places of a
  face, rows of face degrees of freedom, zeros left out.  The operators go the other way round,
  element by element, and never form a block.

  1. **Presolving** — a presolved block is the block of the same slot, with the inverse of its
     element applied to it (`entry_presolve`).

  2. **One face (`sum_coupled`)** — the blocks of a face, weighted and added up, are its face row
     applied to what the elements make of the load that the weights put on them.

  3. **The crux (`mulVec_row`)** — a row that receives anything therefore multiplies as `C A⁻¹ Cᵀ`
     does; a row of the identity stands only where `C A⁻¹ Cᵀ` has a zero row.
-/
import Condensation.Interface.Assembly
import Condensation.Proofs.ElementSolves
import Condensation.Proofs.JumpOperator
import Condensation.Proofs.LinkedFaces
import Condensation.Proofs.RowLayout
import Mathlib.Data.Rat.Defs
import Mathlib.Tactic.FinCases

namespace Condensation

variable {S : Type} {disc : Discretization S}

open Matrix

/-! ## Rows without zeros -/

/-- Leaving out zeros does not change a weighted sum. -/
theorem sum_nonzero [Semiring S] [BEq S] [LawfulBEq S] {n L : Nat} (value : Fin n → S)
    (target : Fin n → Fin L) (v : Fin L → S) :
    (((List.finRange n).filterMap fun j =>
      if value j == 0 then none else some (target j, value j)).map fun e => e.2 * v e.1).sum =
        ∑ j, value j * v (target j) := by
  rw [sum_filterMap, ← List.ofFn_eq_map, List.sum_ofFn]
  refine Finset.sum_congr rfl fun j _ => ?_
  by_cases hj : value j = 0
  · simp [hj]
  · simp [hj]

namespace FaceGraph

/-- What a row of the graph makes of a vector. -/
theorem sum_rowEntries [Semiring S] [BEq S] [LawfulBEq S] {nf : Nat} (space : TraceSpace S nf)
    (graph : FaceGraph S nf space.dofsPerFace) (v : Fin space.numLocal → S)
    (r : Fin space.numLocal) :
    ((graph.rowEntries space r).map fun e => e.2 * v e.1).sum =
      ((space.ownerTable.of r).map fun q =>
        ((graph.faces.get (Pairing.outer q)).linked.map
          (FaceLinks.pull (fun g j => v (space.faceDof g j)) (Pairing.inner q))).sum).sum := by
  rw [rowEntries, List.map_flatMap, List.flatMap, List.sum_flatten, List.map_map]
  refine congrArg List.sum (List.map_congr_left fun q _ => ?_)
  simp only [Function.comp_apply]
  rw [List.map_flatMap, List.flatMap, List.sum_flatten, List.map_map]
  refine congrArg List.sum (List.map_congr_left fun link _ => ?_)
  exact sum_nonzero (fun j => link.2.entry (Pairing.inner q) j) (fun j => space.faceDof link.1 j) v

end FaceGraph

/-! ## Presolving -/

namespace Coupling

section Presolve

variable [Field S] [LinearOrder S]

/-- **Presolving**: every block has the inverse of its element applied to it. -/
theorem presolve_returns (c : Coupling disc) (s : Schedule)
    {store : ElementStore S disc.ne disc.m} (hbuilt : store.Built) :
    ∃ presolved, c.presolve s store = .ok presolved ∧
      ∀ (side : Slot disc.ne disc.fpe) (i : Fin disc.m) (j : Fin disc.n),
        (presolved.block side).entry i j =
          ∑ q, (store.slots.get side.element).inverse i q * (c.block side).entry q j := by
  have columns : ∀ (k : Fin (disc.ne * disc.fpe)) (b : Dense S disc.m disc.n),
      solveColumns (store.slots.get (Pairing.outer k)) b =
        .ok (.ofColumns (.ofFn fun j =>
          .ofFn ((store.slots.get (Pairing.outer k)).inverse *ᵥ (b.column j).get))) := by
    intro k b
    have hall : Outcome.tabulate (fun j => ElementStore.solveSlot (store.slots.get (Pairing.outer k))
        (b.column j)) = .ok (.ofFn fun j =>
          .ofFn ((store.slots.get (Pairing.outer k)).inverse *ᵥ (b.column j).get)) := by
      refine Outcome.tabulate_eq_ok_iff.2 fun j => ?_
      rw [ElementStore.solveSlot_eq hbuilt, Vector.get_ofFn_eq]
    rw [solveColumns, hall]
    rfl
  refine ⟨⟨.ofFn fun k => .ofColumns (.ofFn fun j => .ofFn
    ((store.slots.get (Pairing.outer k)).inverse *ᵥ ((c.blocks.get k).column j).get))⟩, ?_, ?_⟩
  · rw [presolve, s.each_eq_ok_iff.2 fun k => by rw [columns, Vector.get_ofFn_eq]]
    rfl
  · intro side i j
    simp only [block, Vector.get_ofFn_eq, Dense.entry_ofColumns, Slot.number, Pairing.outer_join,
      Matrix.mulVec, dotProduct, Dense.get_column]

end Presolve

/-! ## One face -/

section Faces

variable [Field S]

/-- Products with presolved blocks, around one element. -/
theorem sum_presolved {m n : Nat} {ι : Type} (around : List ι) (a : Fin m → S)
    (M : Matrix (Fin m) (Fin m) S) (b presolved : ι → Dense S m n) (w : ι → Fin n → S)
    (h : ∀ o ∈ around, ∀ i j, (presolved o).entry i j = ∑ q, M i q * (b o).entry q j) :
    (around.map fun o => ∑ j, (∑ p, a p * (presolved o).entry p j) * w o j).sum =
      ∑ p, a p * ∑ q, M p q * (around.map fun o => ∑ j, (b o).entry q j * w o j).sum := by
  induction around with
  | nil => simp
  | cons o rest ih =>
    have hrest := ih fun o ho => h o (List.mem_cons_of_mem _ ho)
    have first : ∑ j, (∑ p, a p * (presolved o).entry p j) * w o j =
        ∑ p, a p * ∑ q, M p q * ∑ j, (b o).entry q j * w o j := by
      have entries : ∀ p j, (presolved o).entry p j = (M * (b o).toMatrix) p j := by
        intro p j
        rw [h o (by simp), Matrix.mul_apply]
        rfl
      calc ∑ j, (∑ p, a p * (presolved o).entry p j) * w o j
          = (a ᵥ* (M * (b o).toMatrix)) ⬝ᵥ w o := by
            simp only [entries]
            rfl
        _ = a ⬝ᵥ (M *ᵥ ((b o).toMatrix *ᵥ w o)) := by
            rw [← Matrix.dotProduct_mulVec, Matrix.mulVec_mulVec]
        _ = _ := rfl
    simp only [List.map_cons, List.sum_cons, first, hrest, mul_add, Finset.sum_add_distrib]

/-- **One face**: its blocks, weighted and added up, are its face row applied to the solved load. -/
theorem sum_coupled (c presolved : Coupling disc) (store : ElementStore S disc.ne disc.m)
    (h : ∀ (side : Slot disc.ne disc.fpe) (i : Fin disc.m) (j : Fin disc.n),
      (presolved.block side).entry i j =
        ∑ q, (store.slots.get side.element).inverse i q * (c.block side).entry q j)
    (w : Fin disc.nf → Fin disc.n → S) (f : Fin disc.nf) (i : Fin disc.n) :
    ((coupled c presolved f).map (FaceLinks.pull w i)).sum =
      ∑ k, c.faceRow f i k * (store.inverse *ᵥ fun l => ∑ g, ∑ j, c.faceRow g j l * w g j) k := by
  rw [coupled, FaceLinks.sum_linked, sum_faceRow, products, List.map_flatMap, List.flatMap,
    List.sum_flatten, List.map_map]
  refine congrArg List.sum (List.map_congr_left fun side _ => ?_)
  simp only [Function.comp_apply, List.map_map]
  -- only the faces around the element of this side take part
  have around := sum_presolved (facesOf disc side.element) (fun p => (c.block side).entry p i)
    (store.slots.get side.element).inverse (fun o => c.block o.1) (fun o => presolved.block o.1)
    (fun o => w o.2) fun o ho p j => by
      rw [h, (mem_facesOf.1 ho).1]
  refine Eq.trans around (Finset.sum_congr rfl fun p _ => ?_)
  rw [ElementStore.inverse, blocks_mulVec, Pairing.outer_join, Pairing.inner_join]
  simp only [sum_faceRow_faces]
  rfl

end Faces

/-! ## All rows -/

section Rows

variable [Field S] [LinearOrder S]

/-- `C A⁻¹ Cᵀ`, for a given store. -/
def schur (c : Coupling disc) (store : ElementStore S disc.ne disc.m) :
    Matrix (Fin disc.trace.numLocal) (Fin disc.trace.numLocal) S :=
  c.jumpMatrix * store.inverse * c.jumpMatrixᵀ

/-- How an assembled matrix came about. -/
theorem assemble_spec {c : Coupling disc} {s : Schedule} {store : ElementStore S disc.ne disc.m}
    (hbuilt : store.Built) {rows : Assembled S disc.trace.numLocal}
    (h : c.assemble s store = .ok rows) :
    ∃ (presolved : Coupling disc) (graph : FaceGraph S disc.nf disc.trace.dofsPerFace),
      (∀ (side : Slot disc.ne disc.fpe) (i : Fin disc.m) (j : Fin disc.n),
        (presolved.block side).entry i j =
          ∑ q, (store.slots.get side.element).inverse i q * (c.block side).entry q j) ∧
      (∀ f, (graph.faces.get f).linked = coupled c presolved f) ∧
      rows.emptyRows = FaceGraph.unreached disc.trace graph ∧
      ∀ r, rows.matrix.row r = FaceGraph.storedRow disc.trace graph r := by
  unfold assemble at h
  obtain ⟨presolved, hpresolve, h⟩ := Outcome.bind_eq_ok_iff.1 h
  obtain ⟨graph, hgraph, h⟩ := Outcome.bind_eq_ok_iff.1 h
  obtain ⟨laid, hlaid, h⟩ := Outcome.bind_eq_ok_iff.1 h
  obtain ⟨presolved', hpresolve', hblocks⟩ := c.presolve_returns s hbuilt
  obtain ⟨laid', hlaid', hempty, hrows⟩ := FaceGraph.toRows_returns disc.trace graph s
  have hp : presolved' = presolved := by
    have := hpresolve'.symm.trans hpresolve
    simpa using this
  have hl : laid' = laid := by
    have := hlaid'.symm.trans hlaid
    simpa using this
  have hassembled : (⟨laid, graph.numLinks⟩ : Assembled S disc.trace.numLocal) = rows := by
    simpa using h
  subst hp hl hassembled
  exact ⟨presolved', graph, hblocks, fun f => (holds_faceGraph hgraph f).linked_eq, hempty, hrows⟩

/-- What the entries of a row make of a vector, before it is patched. -/
theorem sum_rowEntries_eq {c presolved : Coupling disc} {store : ElementStore S disc.ne disc.m}
    {graph : FaceGraph S disc.nf disc.trace.dofsPerFace}
    (hblocks : ∀ (side : Slot disc.ne disc.fpe) (i : Fin disc.m) (j : Fin disc.n),
      (presolved.block side).entry i j =
        ∑ q, (store.slots.get side.element).inverse i q * (c.block side).entry q j)
    (hlinked : ∀ f, (graph.faces.get f).linked = coupled c presolved f)
    (v : Fin disc.trace.numLocal → S) (r : Fin disc.trace.numLocal) :
    ((graph.rowEntries disc.trace r).map fun e => e.2 * v e.1).sum = (c.schur store *ᵥ v) r := by
  have load : (fun l => ∑ g, ∑ j, c.faceRow g j l * v (disc.trace.faceDof g j)) =
      c.jumpMatrixᵀ *ᵥ v := by
    funext l
    rw [jumpMatrix_transpose_mulVec]
  rw [FaceGraph.sum_rowEntries, schur, ← Matrix.mulVec_mulVec, ← Matrix.mulVec_mulVec,
    jumpMatrix_mulVec]
  refine congrArg List.sum (List.map_congr_left fun q _ => ?_)
  rw [hlinked, sum_coupled c presolved store hblocks, load]

/-- **The crux**: a row multiplies as `C A⁻¹ Cᵀ` does, or it is a row of the identity and
    `C A⁻¹ Cᵀ` gives zero there. -/
theorem mulVec_row {c : Coupling disc} {s : Schedule} {store : ElementStore S disc.ne disc.m}
    (hbuilt : store.Built) {rows : Assembled S disc.trace.numLocal}
    (h : c.assemble s store = .ok rows) (v : Vector S disc.trace.numLocal)
    (r : Fin disc.trace.numLocal) :
    (r ∉ rows.emptyRows → (rows.matrix.mulVec v).get r = (c.schur store *ᵥ v.get) r) ∧
      (r ∈ rows.emptyRows →
        (rows.matrix.mulVec v).get r = v.get r ∧ (c.schur store *ᵥ v.get) r = 0) := by
  obtain ⟨presolved, graph, hblocks, hlinked, hempty, hrows⟩ := assemble_spec hbuilt h
  have hsum := sum_rowEntries_eq hblocks hlinked v.get r
  have hmem : r ∈ rows.emptyRows ↔ graph.rowEntries disc.trace r = [] := by
    simp [hempty, FaceGraph.unreached]
  rw [Csr.mulVec, Vector.get_ofFn_eq, hrows, FaceGraph.storedRow, hmem]
  constructor
  · intro hne
    rw [if_neg hne, hsum]
  · intro he
    rw [if_pos he, ← hsum, he]
    simp

/-- With room for the blocks, the interface matrix is assembled. -/
theorem assemble_returns (hroom : RoomForLinks disc) (hpos : 0 < disc.fpe) (c : Coupling disc)
    (s : Schedule) {store : ElementStore S disc.ne disc.m} (hbuilt : store.Built) :
    ∃ rows, c.assemble s store = .ok rows := by
  obtain ⟨presolved, hpresolve, -⟩ := c.presolve_returns s hbuilt
  obtain ⟨graph, hgraph⟩ := faceGraph_returns hroom hpos c presolved s
  obtain ⟨laid, hlaid, -⟩ := FaceGraph.toRows_returns disc.trace graph s
  refine ⟨⟨laid, graph.numLinks⟩, ?_⟩
  rw [assemble, hpresolve, Outcome.ok_bind, hgraph, Outcome.ok_bind, hlaid]
  rfl

end Rows

end Coupling

/-! ## Two elements -/

/-- Two elements with one broken degree of freedom each, that meet in one face; the second
    interface degree of freedom is on no face. -/
def twoElements : Discretization Rat where
  mesh := ⟨2, 2, 2, ⟨true, true, false⟩⟩
  adjacency :=
    { numFaces := 1
      slots := #v[none, some ⟨0, Nat.zero_lt_one⟩, some ⟨0, Nat.zero_lt_one⟩, none]
      faces := #v[⟨⟨⟨0, Nat.zero_lt_two⟩, ⟨1, Nat.one_lt_two⟩⟩,
        .inside ⟨⟨1, Nat.one_lt_two⟩, ⟨0, Nat.zero_lt_two⟩⟩⟩]
      slot_iff := by
        rintro ⟨e, i⟩ f
        revert e i f
        decide
      sides_nodup := by decide }
  flux := ⟨1, 2, #v[.plus ⟨0, Nat.zero_lt_two⟩, .plus ⟨1, Nat.one_lt_two⟩], none⟩
  trace := ⟨1, 2, #v[⟨0, Nat.zero_lt_two⟩], none, Nat.zero_lt_one⟩

/-- Both elements see the face with weight one, and the second one has no matrix yet. -/
def oneAssembled : Reduction twoElements where
  essential := #v[false, false]
  copies := .among twoElements.flux.gather
  coupling := ⟨.ofFn fun k => .ofFn fun _ _ => if k.val = 1 ∨ k.val = 2 then 1 else 0⟩
  store := ⟨#v[ElementStore.slotOf (.ofFn fun _ _ => 2) #v[false], ⟨.blank, false⟩]⟩

theorem built_oneAssembled : oneAssembled.store.Built := by
  intro e he
  change Fin 2 at e
  fin_cases e
  · exact ⟨_, _, rfl⟩
  · exact absurd he (by decide)

theorem room_twoElements : Coupling.RoomForLinks twoElements :=
  ⟨by decide, by decide, by decide⟩

/-! ## The composed operator -/

namespace Reduction

/-- An element without a matrix is solved to zero. -/
theorem inverse_mulVec_of_unassembled [Field S] {ne m : Nat} {store : ElementStore S ne m}
    {e : Fin ne}
    (he : (store.slots.get e).assembled = false) (x : Fin (ne * m) → S) (i : Fin m) :
    (store.inverse *ᵥ x) (Pairing.join e i) = 0 := by
  rw [ElementStore.inverse, blocks_mulVec, Pairing.outer_join]
  simp [ElementSlot.inverse, he]

/-- **The composed operator**: the rows of the assembled interface matrix that received anything
    act as `C A⁻¹ Cᵀ`, program after program and in any order of the work; the other rows are rows
    of the identity, and `C A⁻¹ Cᵀ` vanishes there.  Elements without a matrix take no part. -/
theorem assembled_acts_as_composition [Field S] [LinearOrder S] (red : Reduction disc)
    (hbuilt : red.store.Built) (s s₁ s₂ s₃ : Schedule)
    {rows : Coupling.Assembled S disc.trace.numLocal}
    (hrows : red.coupling.assemble s red.store = .ok rows) (v : Vector S disc.trace.numLocal)
    {broken trace : Array S} (hbroken : broken.size = disc.numBroken)
    (htrace : trace.size = disc.trace.numLocal) :
    ∃ (load solved : Vector S disc.numBroken) (y : Vector S disc.trace.numLocal),
      red.jumpTranspose s₁ v.toArray broken = .ok load.toArray ∧
      red.solveElements s₂ load.toArray = .ok solved.toArray ∧
      red.jump s₃ solved.toArray trace = .ok y.toArray ∧
      (∀ e, (red.store.slots.get e).assembled = false →
        ∀ i, solved.get (Pairing.join e i) = 0) ∧
      (∀ r, r ∉ rows.emptyRows → (rows.matrix.mulVec v).get r = y.get r) ∧
      (∀ r, r ∈ rows.emptyRows → (rows.matrix.mulVec v).get r = v.get r ∧ y.get r = 0) := by
  let load : Vector S disc.numBroken := .ofFn (red.coupling.jumpMatrixᵀ *ᵥ v.get)
  let solved : Vector S disc.numBroken := .ofFn (red.store.inverse *ᵥ load.get)
  let y : Vector S disc.trace.numLocal := .ofFn (red.coupling.jumpMatrix *ᵥ solved.get)
  have hload : load.get = red.coupling.jumpMatrixᵀ *ᵥ v.get := by
    funext k
    exact Vector.get_ofFn_eq _ k
  have hsolved : solved.get = red.store.inverse *ᵥ load.get := by
    funext k
    exact Vector.get_ofFn_eq _ k
  have hy : ∀ r, y.get r = (red.coupling.schur red.store *ᵥ v.get) r := by
    intro r
    rw [Coupling.schur, ← Matrix.mulVec_mulVec, ← Matrix.mulVec_mulVec, ← hload, ← hsolved]
    exact Vector.get_ofFn_eq _ r
  refine ⟨load, solved, y, red.jumpTranspose_eq s₁ v hbroken,
    ElementStore.solveAll_eq hbuilt s₂ load, red.jump_eq s₃ solved htrace, ?_, ?_, ?_⟩
  · intro e he i
    rw [hsolved]
    exact inverse_mulVec_of_unassembled he _ i
  · intro r hr
    rw [hy]
    exact (Coupling.mulVec_row hbuilt hrows v r).1 hr
  · intro r hr
    rw [hy]
    exact (Coupling.mulVec_row hbuilt hrows v r).2 hr

/-- So it is for two elements of which the second has no matrix. -/
theorem oneAssembled_acts_as_composition :
    ∃ rows, oneAssembled.coupling.assemble .inOrder oneAssembled.store = .ok rows ∧
      ∃ (load solved : Vector Rat twoElements.numBroken) (y : Vector Rat twoElements.trace.numLocal),
        oneAssembled.jumpTranspose .inOrder #[3, 5] #[7, 7] = .ok load.toArray ∧
        oneAssembled.solveElements .backwards load.toArray = .ok solved.toArray ∧
        oneAssembled.jump .inOrder solved.toArray #[0, 9] = .ok y.toArray ∧
        (∀ r, r ∉ rows.emptyRows → (rows.matrix.mulVec #v[3, 5]).get r = y.get r) ∧
        (∀ r, r ∈ rows.emptyRows →
          (rows.matrix.mulVec #v[3, 5]).get r = (#v[3, 5] : Vector Rat 2).get r ∧ y.get r = 0) := by
  obtain ⟨rows, hrows⟩ := Coupling.assemble_returns room_twoElements (by decide)
    oneAssembled.coupling .inOrder built_oneAssembled
  obtain ⟨load, solved, y, h₁, h₂, h₃, -, h₄, h₅⟩ := assembled_acts_as_composition oneAssembled
    built_oneAssembled .inOrder .inOrder .backwards .inOrder hrows #v[3, 5]
    (show (#[7, 7] : Array Rat).size = 2 from rfl) (show (#[0, 9] : Array Rat).size = 2 from rfl)
  exact ⟨rows, hrows, load, solved, y, h₁, h₂, h₃, h₄, h₅⟩

end Reduction

end Condensation
