/-
  Renumbered faces — the numbers of the faces do not show in the interface matrix.

  1. **The jump (`jumpMatrix_renumber`)** — what an interface degree of freedom sees is a sum over
     all its face degrees of freedom and all sides of their faces, in whatever order.

  2. **Shared elements** — the faces that share an element with a face, and the sums of the products
     of their coupling blocks, go along with the numbers.

  3. **Empty rows (`rowEntries_eq_nil_iff`)** — a row is empty when all sums that belong to it are
     zero; the order in which they are visited does not matter.

  4. **The crux (`assemble_renumbered`)** — neighbor lists and rows are stored in other orders, but the
     assembled matrix reads the same, with the same empty rows and as many face connections.

  5. **The way there and back** — so reducing and recovering do the same (`Renumbered.reduce_eq`,
     `Renumbered.recover_eq`).
-/
import Condensation.Proofs.Renumbering
import Condensation.Proofs.InterfaceForm
import Condensation.Proofs.Representations

namespace Condensation

variable {S : Type} {disc : Discretization S} {ren : Renumbering disc.nf}

open Matrix

namespace Coupling

/-! ## The jump -/

/-- The same blocks, for the renumbered discretization. -/
abbrev renumber (c : Coupling disc) (ren : Renumbering disc.nf) : Coupling (disc.renumber ren) := c

theorem localSides_renumber (ren : Renumbering disc.nf) (f : Fin disc.nf) :
    ((disc.renumber ren).adjacency.faces.get f).localSides.Perm
      (disc.adjacency.faces.get (ren.order f)).localSides := by
  rw [Vector.get_ofFn_eq]
  exact ren.localSides_face _ f

/-- A new face sees what the old one saw. -/
theorem faceRow_renumber [AddCommMonoid S] (c : Coupling disc) (ren : Renumbering disc.nf)
    (f : Fin disc.nf) (j : Fin disc.n) (k : Fin disc.numBroken) :
    (c.renumber ren).faceRow f j k = c.faceRow (ren.order f) j k := by
  unfold faceRow sidesOn
  exact (((localSides_renumber ren f).filter _).map _).sum_eq

/-- What an interface degree of freedom sees, as a sum over all face degrees of freedom. -/
theorem jumpMatrix_apply [AddCommMonoid S] (c : Coupling disc) (r : Fin disc.trace.numLocal)
    (k : Fin disc.numBroken) :
    c.jumpMatrix r k = ∑ f, ∑ j, if disc.trace.faceDof f j = r then c.faceRow f j k else 0 := by
  rw [jumpMatrix, Matrix.of_apply, TraceSpace.ownerTable_of, sum_filter, ← List.ofFn_eq_map,
    List.sum_ofFn, Pairing.sum_join]
  simp only [Pairing.outer_join, Pairing.inner_join, decide_eq_true_eq]
  rfl

/-- **The jump** is the same. -/
theorem jumpMatrix_renumber [AddCommMonoid S] (c : Coupling disc) (ren : Renumbering disc.nf) :
    (c.renumber ren).jumpMatrix = c.jumpMatrix := by
  ext r k
  rw [jumpMatrix_apply, jumpMatrix_apply]
  simp only [TraceSpace.faceDof_renumber, faceRow_renumber]
  exact Equiv.sum_comp ren.order fun f =>
    ∑ j, if disc.trace.faceDof f j = r then c.faceRow f j k else 0

/-! ## Shared elements -/

theorem shareElement_renumber (ren : Renumbering disc.nf) {f g : Fin disc.nf} :
    ShareElement (disc.renumber ren) f g ↔ ShareElement disc (ren.order f) (ren.order g) :=
  exists_congr fun _ => and_congr
    (exists_congr fun _ => disc.adjacency.elementFaces_renumber ren)
    (exists_congr fun _ => disc.adjacency.elementFaces_renumber ren)

/-- **Shared elements**: the products of two faces are those under their old numbers. -/
theorem sharedProducts_renumber [NonAssocSemiring S] (c presolved : Coupling disc)
    (ren : Renumbering disc.nf) (f g : Fin disc.nf) (i j : Fin disc.n) :
    sharedProducts (c.renumber ren) (presolved.renumber ren) f g i j =
      sharedProducts c presolved (ren.order f) (ren.order g) i j := by
  unfold sharedProducts
  refine Eq.trans ?_ ((localSides_renumber ren f).map _).sum_eq
  refine congrArg List.sum (List.map_congr_left fun side _ => Finset.sum_congr rfl fun fj _ => ?_)
  exact if_congr (disc.adjacency.elementFaces_renumber ren) rfl rfl

/-- As many faces share elements. -/
theorem card_shareElement_renumber (ren : Renumbering disc.nf) :
    (Finset.univ.filter fun q : Fin disc.nf × Fin disc.nf =>
      ShareElement (disc.renumber ren) q.1 q.2).card =
        (Finset.univ.filter fun q : Fin disc.nf × Fin disc.nf =>
          ShareElement disc q.1 q.2).card := by
  refine Finset.card_equiv (Equiv.prodCongr ren.order ren.order) fun q => ?_
  simp only [Finset.mem_filter, Finset.mem_univ, true_and, shareElement_renumber]
  rfl

end Coupling

/-! ## Empty rows -/

/-- **Empty rows** are those with zeros only. -/
theorem FaceGraph.rowEntries_eq_nil_iff [Zero S] [BEq S] [LawfulBEq S] {nf : Nat}
    {space : TraceSpace S nf} {graph : FaceGraph S nf space.dofsPerFace}
    {r : Fin space.numLocal} :
    graph.rowEntries space r = [] ↔ ∀ f i, space.faceDof f i = r →
      ∀ link ∈ (graph.faces.get f).linked, ∀ j, link.2.entry i j = 0 := by
  rw [rowEntries, TraceSpace.ownerTable_of]
  simp only [List.flatMap_eq_nil_iff, List.filterMap_eq_nil_iff, List.mem_filter, List.mem_finRange,
    true_and, decide_eq_true_eq, ite_eq_left_iff, reduceCtorEq, imp_false, not_not, beq_iff_eq,
    forall_const]
  constructor
  · intro h f i hr
    have := h (Pairing.join f i) hr
    simpa only [Pairing.outer_join, Pairing.inner_join] using this
  · intro h k hk
    refine h (Pairing.outer k) (Pairing.inner k) ?_
    rw [TraceSpace.faceDof, Pairing.join_split]
    exact hk

namespace Coupling

/-- A row of coupled faces is empty when all products that belong to it add up to zero. -/
theorem rowEntries_coupled_eq_nil_iff [NonAssocSemiring S] [BEq S] [LawfulBEq S]
    {c presolved : Coupling disc} {graph : FaceGraph S disc.nf disc.trace.dofsPerFace}
    (hlinked : ∀ f, (graph.faces.get f).linked = coupled c presolved f)
    {r : Fin disc.trace.numLocal} :
    graph.rowEntries disc.trace r = [] ↔ ∀ f i, disc.trace.faceDof f i = r →
      ∀ g, ShareElement disc f g → ∀ j, sharedProducts c presolved f g i j = 0 := by
  rw [FaceGraph.rowEntries_eq_nil_iff]
  refine forall_congr' fun f => forall_congr' fun i => forall_congr' fun _ => ?_
  simp only [hlinked, ← mem_besides_iff_shareElement,
    ← @mem_keys_coupled S disc _ _ _ c presolved, List.mem_map]
  constructor
  · rintro h _ ⟨link, hlink, rfl⟩ j
    rw [← entry_of_coupled hlink]
    exact h link hlink j
  · intro h link hlink j
    rw [entry_of_coupled hlink]
    exact h _ ⟨link, hlink, rfl⟩ j

end Coupling

/-! ## Assembly -/

namespace ElementStore

variable [Field S] [LinearOrder S] {ne m : Nat}

/-- Two stores with the same matrices; what the slots without one hold does not matter. -/
structure Agrees (store store' : ElementStore S ne m) : Prop where
  built : store.Built
  built' : store'.Built
  assembled : ∀ e, (store'.slots.get e).assembled = (store.slots.get e).assembled
  inverse : ∀ e, (store'.slots.get e).inverse = (store.slots.get e).inverse

theorem agrees_of_holds {store store' : ElementStore S ne m}
    {given : Fin ne → Option (Dense S m m)} {marked : Vector Bool (ne * m)}
    (h : store.Holds given marked) (h' : store'.Holds given marked) : Agrees store store' := by
  refine ⟨h.built, h'.built, fun e => ?_, fun e => ?_⟩
  · cases he : given e with
    | some a => rw [h.slot_some he, h'.slot_some he]
    | none => rw [h.slot_none he, h'.slot_none he]
  · cases he : given e with
    | some a => rw [h.slot_some he, h'.slot_some he]
    | none => rw [inverse_of_none h he, inverse_of_none h' he]

namespace Agrees

variable {store store' : ElementStore S ne m}

theorem missing_eq (h : Agrees store store') : store'.missing = store.missing := by
  unfold missing
  simp only [h.assembled]

theorem inverse_eq (h : Agrees store store') : store'.inverse = store.inverse :=
  congrArg blocks (funext h.inverse)

end Agrees

end ElementStore

namespace Coupling

/-- The second rows read as the first ones: they have the same entries, the same rows are empty, and
    as many pairs of faces are coupled. -/
structure Assembled.ReadsAs [AddCommMonoid S] {L : Nat} (rows' rows : Assembled S L) : Prop where
  entry_eq : ∀ i j, rows'.matrix.entry i j = rows.matrix.entry i j
  emptyRows_eq : rows'.emptyRows = rows.emptyRows
  faceConnections_eq : rows'.faceConnections = rows.faceConnections

variable [Field S] [LinearOrder S] {store store' : ElementStore S disc.ne disc.m}

/-- The face connections are the ordered pairs of faces that share an element. -/
theorem faceConnections_eq {c : Coupling disc} {s : Schedule}
    {rows : Assembled S disc.trace.numLocal} (h : c.assemble s store = .ok rows) :
    rows.faceConnections =
      (Finset.univ.filter fun q : Fin disc.nf × Fin disc.nf => ShareElement disc q.1 q.2).card := by
  obtain ⟨presolved, -, h⟩ := Outcome.bind_eq_ok_iff.1 h
  obtain ⟨graph, hgraph, h⟩ := Outcome.bind_eq_ok_iff.1 h
  obtain ⟨laid, -, h⟩ := Outcome.bind_eq_ok_iff.1 h
  obtain rfl := Outcome.ok.inj h
  exact numLinks_eq hgraph

/-- The matrix is assembled where there is room for the blocks, and else the run aborts. -/
theorem assemble_cases (hpos : 0 < disc.fpe) (c : Coupling disc) (s : Schedule)
    (hbuilt : store.Built) :
    (RoomForLinks disc ∧ ∃ rows, c.assemble s store = .ok rows) ∨
      (¬ RoomForLinks disc ∧ c.assemble s store = .abort) := by
  by_cases hroom : RoomForLinks disc
  · exact .inl ⟨hroom, assemble_returns hroom hpos c s hbuilt⟩
  · refine .inr ⟨hroom, ?_⟩
    obtain ⟨presolved, hpresolve, -⟩ := c.presolve_returns s hbuilt
    rcases faceGraph_cases hpos c presolved s with ⟨h, -⟩ | ⟨-, hgraph⟩
    · exact absurd h hroom
    · rw [assemble, hpresolve, Outcome.ok_bind, hgraph]
      rfl

theorem schur_renumber (c : Coupling disc) (ren : Renumbering disc.nf)
    (hstore : store.Agrees store') : (c.renumber ren).schur store' = c.schur store := by
  rw [schur, schur, jumpMatrix_renumber, hstore.inverse_eq]

/-- The same rows receive nothing. -/
theorem emptyRows_renumber {c : Coupling disc} (hstore : store.Agrees store') {s s' : Schedule}
    {rows rows' : Assembled S disc.trace.numLocal} (h : c.assemble s store = .ok rows)
    (h' : (c.renumber ren).assemble s' store' = .ok rows') : rows'.emptyRows = rows.emptyRows := by
  obtain ⟨presolved, graph, hentry, hlinked, hempty, -⟩ := assemble_spec hstore.built h
  obtain ⟨presolved', graph', hentry', hlinked', hempty', -⟩ :=
    @assemble_spec S (disc.renumber ren) _ _ _ _ _ hstore.built' _ h'
  obtain rfl : presolved' = presolved.renumber ren := by
    refine ext_block fun side => Dense.ext_entry fun i j => ?_
    rw [hentry', hstore.inverse]
    exact (hentry side i j).symm
  rw [hempty, hempty']
  refine List.filter_congr fun r _ => decide_eq_decide.2 ?_
  rw [rowEntries_coupled_eq_nil_iff hlinked, rowEntries_coupled_eq_nil_iff hlinked']
  refine ren.order.forall_congr fun f => forall_congr' fun i => ?_
  rw [TraceSpace.faceDof_renumber]
  refine forall_congr' fun _ => ren.order.forall_congr fun g => ?_
  rw [shareElement_renumber]
  simp only [sharedProducts_renumber]

/-- **The crux**: the matrix that is assembled for renumbered faces reads the same. -/
theorem assemble_renumbered (hpos : 0 < disc.fpe) (c : Coupling disc) (ren : Renumbering disc.nf)
    (hstore : store.Agrees store') (s s' : Schedule) :
    (∃ rows rows', c.assemble s store = .ok rows ∧
      (c.renumber ren).assemble s' store' = .ok rows' ∧ rows'.ReadsAs rows) ∨
    (c.assemble s store = .abort ∧ (c.renumber ren).assemble s' store' = .abort) := by
  rcases assemble_cases hpos c s hstore.built with ⟨hroom, rows, hrows⟩ | ⟨hroom, habort⟩
  · have hroom' : RoomForLinks (disc.renumber ren) := ⟨hroom.faces, hroom.one, hroom.all⟩
    obtain ⟨rows', hrows'⟩ := assemble_returns hroom' hpos (c.renumber ren) s' hstore.built'
    have hempty : rows'.emptyRows = rows.emptyRows := emptyRows_renumber hstore hrows hrows'
    refine .inl ⟨rows, rows', hrows, hrows', fun i j => ?_, hempty, ?_⟩
    · rw [@entry_assemble S (disc.renumber ren) _ _ _ _ _ hstore.built' _ hrows',
        schur_renumber c ren hstore, hempty]
      exact (entry_assemble hstore.built hrows i j).symm
    · rw [@faceConnections_eq S (disc.renumber ren) _ _ _ _ _ _ hrows', faceConnections_eq hrows]
      exact card_shareElement_renumber ren
  · have hcases :=
      @assemble_cases S (disc.renumber ren) _ _ _ hpos (c.renumber ren) s' hstore.built'
    rcases hcases with ⟨hroom', -⟩ | ⟨-, habort'⟩
    · exact absurd ⟨hroom'.faces, hroom'.one, hroom'.all⟩ hroom
    · exact .inr ⟨habort, habort'⟩

end Coupling

/-! ## The way there and back -/

namespace Reduction

variable [Field S] [LinearOrder S]

/-- The second reduction is the first one, for the renumbered discretization and with the same
    element matrices. -/
structure Renumbered (ren : Renumbering disc.nf) (red : Reduction disc)
    (red' : Reduction (disc.renumber ren)) : Prop where
  essential : red'.essential = red.essential
  copies : red'.copies = red.copies
  coupling : red'.coupling = red.coupling.renumber ren
  store : red.store.Agrees red'.store

variable {red : Reduction disc} {red' : Reduction (disc.renumber ren)}

theorem Renumbered.jumpMatrix_eq (h : Renumbered ren red red') :
    red'.coupling.jumpMatrix = red.coupling.jumpMatrix := by
  rw [h.coupling]
  exact Coupling.jumpMatrix_renumber red.coupling ren

theorem Renumbered.loadOf_eq (h : Renumbered ren red red') (v : Vector S disc.flux.numLocal) :
    red'.loadOf v = red.loadOf v := by
  refine Vector.ext_get fun k => ?_
  rw [loadOf, loadOf, Vector.get_ofFn_eq, Vector.get_ofFn_eq, h.copies]
  cases red.copies.toLocal.get k <;> rfl

theorem Renumbered.putTogether_eq (h : Renumbered ren red red') (s : Schedule) (x into : Array S) :
    red'.putTogether s x into = red.putTogether s x into := by
  have hlocal : ∀ (x : Vector S disc.numBroken) (incoming : Vector S disc.flux.numLocal),
      red'.putTogetherVec s x incoming = red.putTogetherVec s x incoming := by
    intro x incoming
    rw [putTogetherVec, putTogetherVec, s.each_pure, s.each_pure]
    refine congrArg Outcome.ok (Vector.ext_get fun l => ?_)
    rw [Vector.get_ofFn_eq, Vector.get_ofFn_eq, h.copies, h.essential]
    cases red.copies.toBroken.get l <;> rfl
  simp only [putTogether, hlocal]

omit [LinearOrder S] in
theorem localTrace_renumber (ren : Renumbering disc.nf) (place : Place) (solution : Array S) :
    localTrace (disc.renumber ren) place solution = localTrace disc place solution := by
  obtain ⟨mesh, adjacency, flux, ⟨_, _, _, link⟩⟩ := disc
  cases link <;> rfl

/-- **Reducing** gives the same. -/
theorem Renumbered.reduce_eq (h : Renumbered ren red red') (s : Schedule) (place : Place)
    (b into : Array S) : red'.reduce s place b into = red.reduce s place b into := by
  simp only [reduce, breakUpVec_eq, ElementStore.solveVec_eq h.store.built,
    ElementStore.solveVec_eq h.store.built', h.store.inverse_eq, jumpVec_eq, h.jumpMatrix_eq,
    h.loadOf_eq, TraceSpace.numTrue_renumber, Program.liftM_eq, Program.done_ok_bind]
  cases disc.trace.trueDofs <;> rfl

/-- **Recovering** gives the same. -/
theorem Renumbered.recover_eq (h : Renumbered ren red red') (s : Schedule) (place : Place)
    (b solution into : Array S) :
    red'.recover s place b solution into = red.recover s place b solution into := by
  simp only [recover, breakUpVec_eq, jumpTransposeVec_eq, residual_eq,
    ElementStore.solveVec_eq h.store.built, ElementStore.solveVec_eq h.store.built',
    h.store.inverse_eq, h.jumpMatrix_eq, h.loadOf_eq, h.putTogether_eq, h.essential,
    TraceSpace.numTrue_renumber, localTrace_renumber, Program.liftM_eq, Program.done_ok_bind]

end Reduction

end Condensation
