/-
  Accepted inputs — what the constructors accept, the sessions can handle.

  1. **Room** — a discretization fits when the products of its sizes stay in range and its tables go
     into memory (`Discretization.Fits`).  Nothing is asked of vectors, lists, blocks or matrices.

  2. **Stages** — then every stage of a session is orderly with a single rank: preparation,
     assembly, finalization, reduction and recovery.

  3. **The crux (`orderly_solveSlot`)** — the only fact about earlier requests that later ones rely
     on is that every slot marked as assembled holds the factors of some matrix, singular or not:
     elimination exchanges whole rows, so its permutations always undo each other, and slots that
     were given no matrix are not solved with.

  4. **Positions (`WritesInside`)** — where a write outside of its table would be dropped there is
     none.

  5. **The result (`accepted_inputs_end`)** — a session stays sound, request by request
     (`Sound.perform`), so the stages are orderly after every history.
-/
import Condensation.Proofs.EmptyCopies
import Condensation.Proofs.Endings
import Condensation.Proofs.InterfaceForm
import Condensation.Proofs.ScatteredBlocks

namespace Condensation

variable {S : Type}

/-! ## Room -/

/-- The sizes of a discretization stay in range, also the partial products where a later factor is
    zero, and its tables go into memory. -/
structure Discretization.Fits (disc : Discretization S) : Prop where
  elements : disc.ne < Size.tableLimit
  locals : disc.flux.numLocal < Size.tableLimit
  square : disc.m * disc.m < Size.limit
  matrices : disc.m * disc.m * disc.ne < Size.tableLimit
  exchanges : 2 * disc.m * disc.ne < Size.tableLimit
  sides : disc.m * disc.n * 2 < Size.limit
  faceBlocks : disc.m * disc.n * 2 * disc.nf < Size.limit
  around : disc.m * disc.n * disc.fpe < Size.limit
  slots : disc.m * disc.n * (disc.ne * disc.fpe) < Size.tableLimit
  links : Coupling.RoomForLinks disc
  fluxTrue : ∀ link, disc.flux.trueDofs = some link → link.numGlobal < Size.limit
  traceTrue : ∀ link, disc.trace.trueDofs = some link → link.numGlobal < Size.limit

/-- A discretization that the request switches to fits. -/
def Operation.Fits : Operation S → Prop
  | .update disc => disc.Fits
  | _ => True

/-! ## Links -/

/-- Triplets are refused where one lies outside the matrix, and stored otherwise. -/
theorem Csr.orderly_ofTriplets [Add S] (r c : Nat) (triplets : List (Triplet S)) :
    (Csr.ofTriplets r c triplets).Orderly := by
  by_cases hin : ∀ t ∈ triplets, t.Inside r c
  · obtain ⟨A, hA, -⟩ := Csr.ofTriplets_rows hin
    exact Outcome.orderly_of_eq_ok hA
  · unfold Csr.ofTriplets
    dsimp only
    split
    · exact fun _ _ => by simp
    · next hnone =>
      refine absurd (fun t ht => ?_) hin
      simpa using List.find?_eq_none.1 hnone t ((List.mergeSort_perm _ _).mem_iff.2 ht)

namespace TrueDofs

variable {l : Nat}

/-- The congruence keeps its entries on the only rank, which owns all of their rows. -/
theorem orderly_congruence [Add S] [Mul S] (link : TrueDofs S l) (h : link.numGlobal < Size.limit)
    (H : Csr S l l) : (link.congruence .alone H).Orderly := by
  unfold congruence ranges
  rw [dif_pos rfl]
  refine Program.orderly_lift_bind (Outcome.orderly_of_eq_ok (link.expand_eq H))
    fun triplets _ => ?_
  refine (Ownership.orderly_gather (link.last_lt_limit h)).bind fun ranges hranges => ?_
  obtain rfl := Ownership.of_gather_alone hranges
  rw [Exchange.toRowOwners_alone, Program.done_ok_bind]
  refine Program.orderly_lift_bind (Outcome.orderly_of_eq_ok (Ownership.rangeAt_alone _))
    fun mine _ => ?_
  refine Program.Orderly.bind (Program.orderly_done (Outcome.orderly_mapM fun t _ => ?_))
    fun owned _ => ?_
  · unfold ownedEntry
    split
    · exact Outcome.orderly_ok _
    · exact fun _ _ => by simp
  · exact Program.orderly_lift_bind (Csr.orderly_ofTriplets _ _ _) fun rows _ =>
      Program.orderly_done (Outcome.orderly_of_eq_ok (link.ofRows_eq rows h))

end TrueDofs

/-! ## Preparation -/

/-- A mesh is accepted or refused. -/
theorem Mesh.orderly_validate (mesh : Mesh) : mesh.validate.Orderly := by
  unfold validate
  refine (Outcome.orderly_require fun _ _ => by simp).bind fun _ _ => ?_
  refine (Outcome.orderly_require fun _ _ => by simp).bind fun _ _ => ?_
  refine (Outcome.orderly_require fun _ _ => by simp).bind fun _ _ => ?_
  refine (Outcome.orderly_require fun _ _ => by simp).bind fun _ _ => ?_
  exact Outcome.orderly_require fun _ _ => by simp

namespace FluxSpace

variable {ne : Nat} (space : FluxSpace S ne)

/-- **Marking**: an index outside of the space is refused, -/
theorem orderly_freeMarker (n : Nat) (essential : List Nat) : (freeMarker n essential).Orderly := by
  refine Outcome.orderly_foldlM (fun free t => ?_) _ _
  split
  · exact Outcome.orderly_ok _
  · exact fun _ _ => by simp

theorem orderly_copiesOfUnfree (s : Schedule) (free : Vector Bool space.numLocal) :
    (space.copiesOfUnfree s free).Orderly :=
  Outcome.orderly_of_eq_ok (s.each_pure _ _)

/-- and the copies of the marked degrees of freedom are found, with a link or without. -/
theorem orderly_essentialCopies [Zero S] [One S] [BEq S]
    (hlocals : space.numLocal < Size.tableLimit)
    (htrue : ∀ link, space.trueDofs = some link → link.numGlobal < Size.limit) (s : Schedule)
    (essential : List Nat) : (space.essentialCopies s .alone essential).Orderly := by
  unfold essentialCopies
  split
  · next link hlink =>
    refine Program.orderly_lift_bind (orderly_freeMarker _ _) fun free _ => ?_
    refine (link.orderly_dependents (htrue link hlink) _ _).bind fun marked _ => ?_
    refine Program.orderly_lift_bind (Outcome.orderly_sized _ _ _) fun free _ => ?_
    exact Program.orderly_done (space.orderly_copiesOfUnfree s free)
  · refine Program.orderly_lift_bind (Outcome.orderly_table hlocals) fun _ _ => ?_
    refine Program.orderly_lift_bind (orderly_freeMarker _ _) fun free _ => ?_
    exact Program.orderly_done (space.orderly_copiesOfUnfree s free)

/-- The table of first copies goes into memory. -/
theorem orderly_firstCopies (hlocals : space.numLocal < Size.tableLimit) :
    space.firstCopies.Orderly :=
  (Outcome.orderly_table hlocals).bind fun _ _ => Outcome.orderly_ok _

/-- A vector of another length is refused. -/
theorem orderly_localValues [Zero S] [One S] [Neg S] [Mul S] (t : Array S) :
    (space.localValues t).Orderly := by
  unfold localValues
  split
  · exact (Outcome.orderly_sized _ _ _).bind fun _ _ => Outcome.orderly_ok _
  · exact Outcome.orderly_sized _ _ _

end FluxSpace

/-- A map to native rows is refused where it leaves the element, and where it takes a row twice. -/
theorem orderly_nativeRows (m : Nat) (dofMap : Array GatherEntry) :
    (nativeRows m dofMap).Orderly := by
  unfold nativeRows
  refine (Outcome.orderly_sized _ _ _).bind fun entries _ => ?_
  refine (Outcome.orderly_tabulate fun i => Outcome.orderly_orFault (fun _ _ => by simp) _).bind
    fun rows _ => ?_
  split
  · exact fun _ _ => by simp
  · exact Outcome.orderly_ok _

variable {disc : Discretization S}

/-- There is room for the blocks of the faces. -/
theorem Discretization.Fits.blocks (h : disc.Fits) : Coupling.RoomForBlocks disc :=
  ⟨h.sides, h.faceBlocks, h.slots, h.around⟩

/-- **An empty store** goes into memory. -/
theorem ElementStore.orderly_empty? [Zero S] (h : disc.Fits) :
    (ElementStore.empty? disc.ne disc.m : Outcome (ElementStore S disc.ne disc.m)).Orderly := by
  have hm : disc.m ≤ disc.m * disc.n := Nat.le_mul_of_pos_right _ disc.trace.dofsPerFace_pos
  have hsides := h.sides
  have htwo : 2 * disc.m < Size.limit := by omega
  have hone : disc.m < Size.limit := by omega
  have hmatrices : Size.product [disc.m, disc.m, disc.ne] = .ok (disc.m * disc.m * disc.ne) :=
    Size.product_eq_ok_iff.2 (by simp [Size.InRange, hone, h.square, Size.lt_limit h.matrices])
  have hrows : Size.product [2, disc.m, disc.ne] = .ok (2 * disc.m * disc.ne) :=
    Size.product_eq_ok_iff.2 (by simp [Size.InRange, htwo, Size.lt_limit h.exchanges])
  unfold ElementStore.empty?
  rw [hmatrices, Outcome.ok_bind, hrows]
  refine (Outcome.orderly_table h.matrices).bind fun _ _ => ?_
  rw [Outcome.ok_bind]
  refine (Outcome.orderly_table h.exchanges).bind fun _ _ => ?_
  exact (Outcome.orderly_table h.elements).bind fun _ _ => Outcome.orderly_ok _

section Blocks

variable [Zero S]

/-- **Blocks** of another size or with another native map are refused, and others are scattered. -/
theorem Coupling.orderly_ofFaceBlocks (h : disc.Fits) (s : Schedule) (faces : FaceBlocks S) :
    (Coupling.ofFaceBlocks disc s faces).Orderly := by
  obtain ⟨hall, hsize, haround⟩ := h.blocks.products
  have hslots : (BlockTable.zeros? disc.m disc.n (disc.ne * disc.fpe) :
      Outcome (BlockTable S _ _ _)).Orderly := by
    unfold BlockTable.zeros?
    rw [hsize, Outcome.ok_bind]
    exact (Outcome.orderly_table h.slots).bind fun _ _ => Outcome.orderly_ok _
  unfold Coupling.ofFaceBlocks
  rw [hall, Outcome.ok_bind]
  refine (Outcome.orderly_sized _ _ _).bind fun data _ => ?_
  refine (orderly_nativeRows _ _).bind fun rows _ => ?_
  refine hslots.bind fun blank _ => ?_
  rw [haround, Outcome.ok_bind, s.each_pure]
  exact Outcome.orderly_ok _

/-- Rows of essential degrees of freedom are cleared without a further check. -/
theorem Session.orderly_couplingFrom (h : disc.Fits) (options : Options S) (s : Schedule)
    (faces : FaceBlocks S) (marked : Vector Bool disc.numBroken) :
    (couplingFrom disc options s faces marked).Orderly := by
  refine (Coupling.orderly_ofFaceBlocks h s faces).bind fun built _ => ?_
  split
  · rw [Coupling.clearEssential, Outcome.sized_toArray, Outcome.ok_bind, s.each_pure]
    exact Outcome.orderly_ok _
  · exact Outcome.orderly_ok _

theorem Session.orderly_reductionFrom (h : disc.Fits) (options : Options S) (s : Schedule)
    (faces : FaceBlocks S) (marked : Vector Bool disc.numBroken) :
    (reductionFrom disc options s faces marked).Orderly := by
  refine (disc.flux.orderly_firstCopies h.locals).bind fun copies _ => ?_
  refine (orderly_couplingFrom h options s faces marked).bind fun coupling _ => ?_
  exact (ElementStore.orderly_empty? h).bind fun store _ => Outcome.orderly_ok _

/-- **Preparation**: the mesh is validated again, whatever it was before. -/
theorem Session.orderly_newReduction [One S] [BEq S] (h : disc.Fits) (options : Options S)
    (essential : List Nat) (s : Schedule) (faces : FaceBlocks S) :
    (newReduction disc options essential s .alone faces).Orderly := by
  rw [newReduction_eq]
  refine Program.orderly_lift_bind disc.mesh.orderly_validate fun _ _ => ?_
  refine (disc.flux.orderly_essentialCopies h.locals h.fluxTrue s essential).bind fun marked _ => ?_
  exact Program.orderly_done (orderly_reductionFrom h options s faces marked)

end Blocks

/-! ## Element matrices -/

namespace ElementStore

variable {ne m : Nat} [Zero S] [One S] [Neg S] [LT S] [DecidableLT S] [Sub S] [Mul S] [Div S]
  {store : ElementStore S ne m}

/-- **Assembly**: the element and the lengths are checked, and the matrix is not, -/
theorem orderly_assemble (store : ElementStore S ne m) (e : Nat) (matrix : Array S)
    (essential : Array Bool) : (store.assemble e matrix essential).Orderly := by
  refine Outcome.Orderly.bind ?_ fun e _ => ?_
  · unfold element
    split
    · exact Outcome.orderly_ok _
    · exact fun _ _ => by simp
  · refine (Outcome.orderly_sized _ _ _).bind fun matrix _ => ?_
    exact (Outcome.orderly_sized _ _ _).bind fun marked _ => Outcome.orderly_ok _

/-- neither alone nor as a part of a batch. -/
theorem orderly_assembleAll (store : ElementStore S ne m) (s : Schedule) (batch : Array S)
    (essential : Array Bool) : (store.assembleAll s batch essential).Orderly := by
  refine (Outcome.orderly_sized _ _ _).bind fun batch _ => ?_
  refine (Outcome.orderly_sized _ _ _).bind fun marked _ => ?_
  rw [s.each_pure]
  exact Outcome.orderly_ok _

/-- The factors of every matrix that was taken have permutations that undo each other. -/
theorem Built.consistent (hbuilt : store.Built) {e : Fin ne}
    (he : (store.slots.get e).assembled = true) : (store.slots.get e).factors.Consistent := by
  obtain ⟨a, essential, hslot⟩ := hbuilt e he
  rw [hslot]
  exact Factors.consistent_ofMatrix _

/-- **The crux**: slots without a matrix are not solved with, and the others solve consistently,
    also where the matrix is singular. -/
theorem orderly_solveSlot (hbuilt : store.Built) (e : Fin ne) (x : Vector S m) :
    (solveSlot (store.slots.get e) x).Orderly := by
  unfold solveSlot
  split
  · next he =>
    have hcheck : Outcome.check (store.slots.get e).factors.Consistent = .ok () :=
      Outcome.check_eq_ok_iff.2 (hbuilt.consistent he)
    exact (Outcome.orderly_of_eq_ok hcheck).bind fun _ _ => Outcome.orderly_ok _
  · exact Outcome.orderly_ok _

/-- So solving in all elements is orderly, in every order of the work. -/
theorem orderly_solveVec (hbuilt : store.Built) (s : Schedule) (x : Vector S (ne * m)) :
    (store.solveVec s x).Orderly :=
  (s.orderly_each _ fun e _ => orderly_solveSlot hbuilt e _).bind fun _ _ => Outcome.orderly_ok _

end ElementStore

/-! ## Finalization -/

namespace Session

/-- A store with missing matrices is refused where the options ask for all of them. -/
theorem orderly_checkComplete (options : Options S) (red : Reduction disc) :
    (checkComplete options red).Orderly := by
  unfold checkComplete
  split
  · exact Outcome.orderly_require fun _ _ => by simp
  · exact Outcome.orderly_ok _

theorem orderly_finish [Add S] [Mul S] (h : disc.Fits)
    (H : Csr S disc.trace.numLocal disc.trace.numLocal) : (finish disc .alone H).Orderly := by
  unfold finish
  split
  · next link hlink =>
    exact (link.orderly_congruence (h.traceTrue link hlink) H).bind fun A _ =>
      Program.orderly_return _
  · exact Program.orderly_return _

end Session

section Finalization

variable [Zero S] [One S] [Add S] [Sub S] [Mul S] [Div S] [Neg S] [BEq S] [LT S] [DecidableLT S]

/-- **Finalization**: a store that was built solves with every column of the coupling, and the graph
    has room for the links of every face. -/
theorem Coupling.orderly_assemble (h : disc.Fits) (hvalid : disc.mesh.validate = .ok ())
    (c : Coupling disc) (s : Schedule) {store : ElementStore S disc.ne disc.m}
    (hbuilt : store.Built) : (c.assemble s store).Orderly := by
  refine Outcome.Orderly.bind ?_ fun presolved _ => ?_
  · refine (s.orderly_each _ fun k b => ?_).bind fun _ _ => Outcome.orderly_ok _
    refine (Outcome.orderly_tabulate fun j => ?_).bind fun _ _ => Outcome.orderly_ok _
    exact ElementStore.orderly_solveSlot hbuilt _ _
  · obtain ⟨graph, hgraph⟩ :=
      faceGraph_returns h.links (Mesh.facesPerElement_pos hvalid) c presolved s
    obtain ⟨rows, hrows, -⟩ := graph.toRows_returns disc.trace s
    rw [hgraph, Outcome.ok_bind, hrows]
    exact Outcome.orderly_ok _

namespace Session

/-- What the session holds was built from matrices. -/
def Built (session : Session S) : Prop :=
  ∀ reduction, session.reduction = some reduction → reduction.store.Built

variable {session : Session S}

/-- Before it the store is checked for missing matrices, and after it there may be a remark on
    symmetry. -/
theorem orderly_finalizeProgram (h : session.disc.Fits)
    (hvalid : session.disc.mesh.validate = .ok ()) (hbuilt : session.Built) (s : Schedule) :
    (session.finalizeProgram s .alone).Orderly := by
  unfold finalizeProgram
  refine Program.orderly_lift_bind (Outcome.orderly_orFault (fun _ _ => by simp) _)
    fun red hred => ?_
  have hstore : red.store.Built := hbuilt red (Outcome.orFault_eq_ok_iff.1 hred)
  refine Program.orderly_lift_bind (orderly_checkComplete _ _) fun _ _ => ?_
  refine Program.orderly_lift_bind (Coupling.orderly_assemble h hvalid _ s hstore) fun rows _ => ?_
  obtain ⟨asymmetry, hasymmetry⟩ := remarkOnSymmetry_returns session.options rows.matrix
  refine Program.orderly_lift_bind (Outcome.orderly_of_eq_ok hasymmetry) fun asymmetry _ => ?_
  exact (orderly_finish h rows.matrix).bind fun matrix _ =>
    Program.orderly_return _

end Session

end Finalization

/-! ## Reduction and recovery -/

namespace Reduction

variable (red : Reduction disc)

section Signs

variable [Zero S] [One S] [Neg S] [Mul S]

theorem orderly_breakUpVec (s : Schedule) (v : Vector S disc.flux.numLocal) :
    (red.breakUpVec s v).Orderly :=
  Outcome.orderly_of_eq_ok (s.each_pure _ _)

theorem orderly_putTogether (s : Schedule) (x into : Array S) :
    (red.putTogether s x into).Orderly := by
  refine (Outcome.orderly_sized _ _ _).bind fun x _ => ?_
  refine (disc.flux.orderly_localValues into).bind fun incoming _ => ?_
  rw [putTogetherVec, s.each_pure]
  exact Outcome.orderly_ok _

end Signs

section Sums

variable [Zero S] [Add S] [Mul S]

theorem orderly_jumpVec (s : Schedule) (x : Vector S disc.numBroken) :
    (red.jumpVec s x).Orderly := by
  unfold jumpVec
  rw [s.each_pure, Outcome.ok_bind, s.each_pure]
  exact Outcome.orderly_ok _

theorem orderly_jumpTransposeVec (s : Schedule) (v : Vector S disc.trace.numLocal) :
    (red.jumpTransposeVec s v).Orderly := by
  unfold jumpTransposeVec
  rw [s.each_pure]
  exact Outcome.orderly_ok _

/-- The solution on the interface is checked, and prolonged where there is a link. -/
theorem orderly_localTrace (h : disc.Fits) (solution : Array S) :
    (localTrace disc .alone solution).Orderly := by
  unfold localTrace
  split
  · next link hlink =>
    exact (link.orderly_prolong (h.traceTrue link hlink) _ _).bind fun v _ =>
      Program.orderly_done (Outcome.orderly_sized _ _ _)
  · exact Program.orderly_done (Outcome.orderly_sized _ _ _)

end Sums

variable [Zero S] [One S] [Add S] [Sub S] [Mul S] [Div S] [Neg S] [LT S] [DecidableLT S] {red}

/-- **Reduction** checks the lengths of its vectors; all other sizes are those of the
    discretization. -/
theorem orderly_reduce (h : disc.Fits) (hbuilt : red.store.Built) (s : Schedule)
    (b into : Array S) : (red.reduce s .alone b into).Orderly := by
  unfold reduce
  refine Program.orderly_lift_bind (Outcome.orderly_sameLength _ _ _) fun _ _ => ?_
  refine Program.orderly_lift_bind (disc.flux.orderly_localValues b) fun v _ => ?_
  refine Program.orderly_lift_bind (red.orderly_breakUpVec s v) fun broken _ => ?_
  refine Program.orderly_lift_bind (ElementStore.orderly_solveVec hbuilt s broken)
    fun solved _ => ?_
  refine Program.orderly_lift_bind (red.orderly_jumpVec s solved) fun y _ => ?_
  split
  · next link hlink => exact link.orderly_prolongTranspose (h.traceTrue link hlink) _ _
  · exact Program.orderly_return _

/-- **Recovery** does so, too. -/
theorem orderly_recover (h : disc.Fits) (hbuilt : red.store.Built) (s : Schedule)
    (b solution into : Array S) : (red.recover s .alone b solution into).Orderly := by
  unfold recover
  refine Program.orderly_lift_bind (Outcome.orderly_sameLength _ _ _) fun _ _ => ?_
  refine Program.orderly_lift_bind (disc.flux.orderly_localValues b) fun v _ => ?_
  refine Program.orderly_lift_bind (red.orderly_breakUpVec s v) fun load _ => ?_
  refine (orderly_localTrace h solution).bind fun trace _ => ?_
  refine Program.orderly_lift_bind (red.orderly_jumpTransposeVec s trace) fun correction _ => ?_
  refine Program.orderly_lift_bind (Outcome.orderly_of_eq_ok (s.each_pure _ _)) fun rest _ => ?_
  refine Program.orderly_lift_bind (ElementStore.orderly_solveVec hbuilt s rest)
    fun solved _ => ?_
  exact Program.orderly_done (red.orderly_putTogether s solved.toArray into)

end Reduction

/-! ## Positions -/

/-- The positions that the program computes lie in its tables: every face degree of freedom is
    sorted in at a place of the owner table, the list of every interface degree of freedom is a
    part of it, and every row of an interface matrix starts at a stored entry. -/
structure Discretization.WritesInside (disc : Discretization S) : Prop where
  laid : ∀ k : Fin (disc.nf * disc.n),
    (((List.finRange (disc.nf * disc.n)).take k).foldl (OwnerTable.place disc.trace.gather)
      (OwnerTable.unplaced disc.trace.gather)).1.get (disc.trace.gather.get k) < disc.nf * disc.n
  listed : ∀ r : Fin disc.trace.numLocal,
    disc.trace.ownerTable.offsets.get r.castSucc ≤ disc.trace.ownerTable.offsets.get r.succ ∧
      disc.trace.ownerTable.offsets.get r.succ ≤ disc.nf * disc.n
  patched : ∀ (counts : Vector Nat disc.trace.numLocal) (r : Fin disc.trace.numLocal),
    ∃ start, (FaceGraph.rowStarts counts)[r.val]? = some start ∧
      start < (counts.toList.map (max 1)).sum

/-- No computed position lies outside of its table. -/
theorem Discretization.writesInside (disc : Discretization S) : disc.WritesInside where
  laid k := (OwnerTable.laidDown_take disc.trace.gather (Nat.le_of_lt k.isLt)).cursor_lt
  listed := OwnerTable.slice_inside disc.trace.gather
  patched counts r := by
    have hstart : (FaceGraph.rowStarts counts)[r.val]? = some (FaceGraph.rowStart counts r) := by
      have hr := r.isLt
      rw [FaceGraph.rowStarts_eq, List.getElem?_map, List.getElem?_range (by omega)]
      rfl
    have hend : FaceGraph.rowStart counts disc.trace.numLocal =
        (counts.toList.map (max 1)).sum := by
      rw [FaceGraph.rowStart, ← Size.offset_length]
      simp
    exact ⟨_, hstart, hend ▸ FaceGraph.rowStart_lt counts r⟩

/-! ## Requests -/

namespace Step

variable {α β : Type}

/-- A request ends as the program of its step does with a single rank. -/
theorem orderly_alone {step : Step S α} (h : step.rest.Orderly) : step.alone.2.Orderly := by
  unfold alone
  unfold Program.Orderly at h
  cases hrun : step.rest.runAlone with
  | ok result => exact Outcome.orderly_ok _
  | fault why => rw [hrun] at h; exact h
  | abort => rw [hrun] at h; exact h

theorem orderly_map {step : Step S α} (h : step.rest.Orderly) (f : α → β) :
    (step.map f).rest.Orderly :=
  Program.Orderly.bind h fun _ _ => Program.orderly_return _

end Step

namespace Session

/-- Preparation with the list that the session holds. -/
theorem orderly_prepareWithKept [Zero S] [One S] [BEq S] (session : Session S)
    (h : session.disc.Fits) (s : Schedule) (faces : FaceBlocks S) :
    (session.prepareWithKept s .alone faces).Orderly :=
  (orderly_newReduction h session.options session.essential s faces).bind fun _ _ =>
    Program.orderly_return _

variable [Zero S] [One S] [Add S] [Sub S] [Mul S] [Div S] [Neg S] [BEq S] [LT S] [DecidableLT S]
  {session : Session S}

/-- **One request**: whatever it brings, it ends with an answer or with a refusal. -/
theorem orderly_perform (h : session.disc.Fits) (hvalid : session.disc.mesh.validate = .ok ())
    (hbuilt : session.Built) (op : Operation S) : (session.perform op).2.Orderly := by
  refine Step.orderly_alone ?_
  have hprepared : session.prepared.Orderly := Outcome.orderly_orFault (fun _ _ => by simp) _
  cases op with
  | prepare s faces essential =>
    refine Step.orderly_map ?_ _
    unfold Session.prepare
    split
    · exact Program.orderly_done fun _ _ => by simp
    · exact orderly_prepareWithKept { session with essential := essential } h s faces
  | prepareAgain s faces =>
    refine Step.orderly_map ?_ _
    unfold Session.prepareAgain
    split
    · exact Program.orderly_done fun _ _ => by simp
    · exact orderly_prepareWithKept session h s faces
  | assemble e matrix =>
    refine Program.orderly_lift_bind (hprepared.bind fun red _ => ?_) fun _ _ =>
      Program.orderly_return _
    exact (red.store.orderly_assemble _ _ _).bind fun _ _ => Outcome.orderly_ok _
  | assembleAll s batch =>
    refine Program.orderly_lift_bind (hprepared.bind fun red _ => ?_) fun _ _ =>
      Program.orderly_return _
    exact (red.store.orderly_assembleAll _ _ _).bind fun _ _ => Outcome.orderly_ok _
  | finalize s => exact Step.orderly_map (orderly_finalizeProgram h hvalid hbuilt s) _
  | handOver =>
    refine Program.orderly_lift_bind (Outcome.Orderly.bind ?_ fun matrix _ => ?_) fun _ _ =>
      Program.orderly_return _
    · exact Outcome.orderly_orFault (fun _ _ => by simp) _
    · exact Outcome.orderly_ok _
  | reduce s b into =>
    refine Program.Orderly.bind (Program.orderly_lift_bind hprepared fun red hred => ?_)
      fun _ _ => Program.orderly_return _
    exact Reduction.orderly_reduce h (hbuilt red (Outcome.orFault_eq_ok_iff.1 hred)) s b into
  | recover s b solution into =>
    refine Program.Orderly.bind (Program.orderly_lift_bind hprepared fun red hred => ?_)
      fun _ _ => Program.orderly_return _
    exact Reduction.orderly_recover h (hbuilt red (Outcome.orFault_eq_ok_iff.1 hred)) s b solution
      into
  | reset => exact Program.orderly_return _
  | update disc =>
    refine Program.orderly_lift_bind (disc.mesh.orderly_validate.bind fun _ _ => ?_) fun _ _ =>
      Program.orderly_return _
    exact Outcome.orderly_ok _

/-! ## Histories -/

/-- The mesh of the session was accepted, and its discretization fits. -/
structure Sound (session : Session S) : Prop where
  valid : session.disc.mesh.validate = .ok ()
  fits : session.disc.Fits

/-- A switch that succeeds has accepted the mesh. -/
theorem valid_of_update {next : Session S} {disc : Discretization S} {answer : Answer S}
    (h : session.perform (.update disc) = (next, .ok answer)) : disc.mesh.validate = .ok () := by
  rcases (session.begin .alone (.update disc)).alone_cases with ⟨_, _, hrun, -⟩ | ⟨-, hfails⟩
  · obtain ⟨_, hupdate, -⟩ := Program.runAlone_return.1 hrun
    obtain ⟨_, hvalid, -⟩ := Outcome.bind_eq_ok_iff.1 hupdate
    exact hvalid
  · exact absurd (congrArg Prod.snd h) (hfails answer)

/-- **One request** leaves a sound session. -/
theorem Sound.perform (h : session.Sound) {op : Operation S} (hop : op.Fits) :
    (session.perform op).1.Sound := by
  rcases session.perform_cases op with ⟨next, answer, hnext, heq⟩ | ⟨heq | ⟨-, list, heq⟩, -⟩
  · rw [heq]
    cases hnext with
    | update => exact ⟨valid_of_update heq, hop⟩
    | prepare | prepareAgain | assemble | assembleAll | finalize | handOver | reduce | recover
    | reset => exact ⟨h.valid, h.fits⟩
  · rw [heq]
    exact h
  · rw [heq]
    exact ⟨h.valid, h.fits⟩

/-- **Histories** do, too. -/
theorem Sound.after (h : session.Sound) {ops : List (Operation S)} (hops : ∀ op ∈ ops, op.Fits) :
    (session.after ops).Sound := by
  induction ops generalizing session with
  | nil => exact h
  | cons op rest ih =>
    exact ih (h.perform (hops op List.mem_cons_self)) fun op' hop' =>
      hops op' (List.mem_cons_of_mem _ hop')

/-- **The result**: after every history of requests, with any vectors, lists, blocks and matrices,
    every request ends with an answer or with a refusal, and none of them because a face ran out of
    places; the factors of all matrices that were taken are consistent; and no position lies
    outside of its table. -/
theorem accepted_inputs_end {options : Options S} {fresh : Session S}
    (hstart : start disc options = .ok fresh) (hfits : disc.Fits) (ops : List (Operation S))
    (hops : ∀ op ∈ ops, op.Fits) :
    (∀ op, ((fresh.after ops).perform op).2.Orderly) ∧
    (∀ reduction, (fresh.after ops).reduction = some reduction → ∀ e,
      (reduction.store.slots.get e).assembled = true →
        (reduction.store.slots.get e).factors.Consistent) ∧
    (fresh.after ops).disc.WritesInside := by
  have hbuilt : (fresh.after ops).Built := by
    intro reduction hreduction
    obtain ⟨given, hholds⟩ := holds_after hstart ops hreduction
    exact hholds.built
  have hsound : (fresh.after ops).Sound := by
    obtain ⟨hvalid, rfl⟩ := start_eq hstart
    exact Sound.after ⟨hvalid, hfits⟩ hops
  exact ⟨orderly_perform hsound.fits hsound.valid hbuilt,
    fun reduction hreduction e he => (hbuilt reduction hreduction).consistent he,
    (fresh.after ops).disc.writesInside⟩

/-- A preparation that is refused, one that is not, and singular matrices for both elements. -/
def singularRequests : List (Operation Rat) :=
  [.prepare .inOrder oppositeFaces [2], .prepare .inOrder oppositeFaces [],
    .assembleAll .inOrder #[0, 0]]

/-- So it is for two elements: the refusal leaves the session usable, and it is finalized although
    both matrices are singular. -/
theorem accepted_inputs_end_twoElements :
    ∃ fresh : Session Rat, start twoElements {} = .ok fresh ∧
      (fresh.perform (.prepare .inOrder oppositeFaces [2])).2 =
        .fault (.badNumbering (.essentialOutOfRange 2 2)) ∧
      (fresh.after singularRequests).reduction.map (·.store.missing.isNone) = some true ∧
      ((fresh.after singularRequests).perform (.finalize .inOrder)).2.hasValue = true ∧
      (∀ op, ((fresh.after singularRequests).perform op).2.Orderly) ∧
      ∀ reduction, (fresh.after singularRequests).reduction = some reduction → ∀ e,
        (reduction.store.slots.get e).assembled = true →
          (reduction.store.slots.get e).factors.Consistent := by
  have hstart : start twoElements ({} : Options Rat) = .ok ⟨twoElements, {}, [], none, none⟩ := rfl
  have hfits : twoElements.Fits :=
    { elements := by decide
      locals := by decide
      square := by decide
      matrices := by decide
      exchanges := by decide
      sides := by decide
      faceBlocks := by decide
      around := by decide
      slots := by decide
      links := room_twoElements
      fluxTrue := fun link h => by cases h
      traceTrue := fun link h => by cases h }
  have hops : ∀ op ∈ singularRequests, op.Fits := by
    simp [singularRequests, Operation.Fits]
  obtain ⟨hends, hconsistent, -⟩ := accepted_inputs_end hstart hfits singularRequests hops
  exact ⟨_, hstart, rfl, by decide +kernel, by decide +kernel, hends, hconsistent⟩

end Session

end Condensation
