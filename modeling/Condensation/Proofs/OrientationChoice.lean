/-
  The choice of orientations — turning broken copies has no effect on what comes out.

  Two runs differ in the orientations of some broken copies: in the signs of the gather table, and in
  the element matrices and the face blocks, which are turned with them.

  1. **The table** — the gather table is read during the preparation only, and what is read there is
     which local degrees of freedom there are copies of.  So both runs mark the same copies
     (`essentialCopies_turn`), and a reduction can be looked at without the table
     (`Reduction.untabled`).

  2. **Preparation (`reductionFrom_turned`)** — rows of face blocks that land on turned copies are
     turned blocks, and marked rows are cleared in both runs.

  3. **Assembly** — whatever matrices the elements were given since (`Fed`), the second run was given
     the turned ones.

  4. **The result (`orientation_unseen`)** — the second run is prepared whenever the first one is;
     both then finalize to the same matrix and the same summary, and reduce and recover alike.
-/
import Condensation.Proofs.EssentialData
import Condensation.Proofs.TurnedCopies

namespace Condensation

variable {S : Type} {n : Nat}

/-! ## The table -/

/-- The broken space with another gather table. -/
abbrev FluxSpace.gathering {ne : Nat} (space : FluxSpace S ne)
    (gather : Vector (Signed (Fin space.numLocal)) (ne * space.dofsPerElement)) : FluxSpace S ne :=
  { space with gather := gather }

/-- The discretization with some broken copies turned. -/
abbrev Discretization.turn (disc : Discretization S)
    (turned : Fin disc.numBroken → Orientation) : Discretization S :=
  { disc with flux := disc.flux.gathering (turnedTable disc.flux.gather turned) }

namespace FluxSpace

variable {ne : Nat} (space : FluxSpace S ne)

theorem localValues_gathering [Zero S] [One S] [Neg S] [Mul S]
    (gather : Vector (Signed (Fin space.numLocal)) (ne * space.dofsPerElement)) (b : Array S) :
    (space.gathering gather).localValues b = space.localValues b := by
  obtain ⟨m, l, _, link⟩ := space
  cases link <;> rfl

theorem trueValues_gathering [One S] [Neg S] [Mul S]
    (gather : Vector (Signed (Fin space.numLocal)) (ne * space.dofsPerElement))
    (v : Vector S space.numLocal) : (space.gathering gather).trueValues v = space.trueValues v := by
  obtain ⟨m, l, _, link⟩ := space
  cases link <;> rfl

/-- The same copies are marked. -/
theorem essentialCopies_turn [Zero S] [One S] [BEq S]
    (turned : Fin (ne * space.dofsPerElement) → Orientation) (s s' : Schedule) (place : Place)
    (essential : List Nat) :
    (space.gathering (turnedTable space.gather turned)).essentialCopies s' place essential =
      space.essentialCopies s place essential := by
  have hcopies : ∀ free : Vector Bool space.numLocal,
      (space.gathering (turnedTable space.gather turned)).copiesOfUnfree s' free =
        space.copiesOfUnfree s free := by
    intro free
    rw [copiesOfUnfree_eq, copiesOfUnfree_eq]
    refine congrArg Outcome.ok (Vector.ext_get fun l => ?_)
    rw [Vector.get_ofFn_eq, Vector.get_ofFn_eq, get_turnedTable]
    rfl
  unfold essentialCopies
  simp only [hcopies]
  obtain ⟨m, l, gather, link⟩ := space
  cases link <;> rfl

end FluxSpace

namespace Reduction

variable {disc : Discretization S} {turned : Fin disc.numBroken → Orientation}

/-- The reduction of a turned discretization, as one of the discretization itself. -/
def untabled (red : Reduction (disc.turn turned)) : Reduction disc :=
  ⟨red.essential, red.copies, red.coupling, red.store⟩

section Operators

variable [One S] [Mul S] [Neg S]

theorem breakUpVec_untabled [Zero S] (red : Reduction (disc.turn turned)) (s : Schedule)
    (v : Vector S disc.flux.numLocal) : red.breakUpVec s v = red.untabled.breakUpVec s v := by
  obtain ⟨essential, ⟨toLocal, toBroken⟩, coupling, store⟩ := red
  rw [breakUpVec, breakUpVec, s.each_pure, s.each_pure]
  refine congrArg Outcome.ok (Vector.ext_get fun k => ?_)
  rw [Vector.get_ofFn_eq, Vector.get_ofFn_eq]
  simp only [untabled]
  cases toLocal.get k <;> rfl

theorem putTogetherVec_untabled (red : Reduction (disc.turn turned)) (s : Schedule)
    (x : Vector S disc.numBroken) (incoming : Vector S disc.flux.numLocal) :
    red.putTogetherVec s x incoming = red.untabled.putTogetherVec s x incoming := by
  obtain ⟨essential, ⟨toLocal, toBroken⟩, coupling, store⟩ := red
  rw [putTogetherVec, putTogetherVec, s.each_pure, s.each_pure]
  refine congrArg Outcome.ok (Vector.ext_get fun l => ?_)
  rw [Vector.get_ofFn_eq, Vector.get_ofFn_eq]
  simp only [untabled]
  cases toBroken.get l <;> rfl

theorem putTogether_untabled [Zero S] (red : Reduction (disc.turn turned)) (s : Schedule)
    (x into : Array S) : red.putTogether s x into = red.untabled.putTogether s x into := by
  unfold putTogether
  simp only [FluxSpace.localValues_gathering, FluxSpace.trueValues_gathering,
    putTogetherVec_untabled]

end Operators

theorem localTrace_turn [Zero S] [Add S] [Mul S] (place : Place) (solution : Array S) :
    localTrace (disc.turn turned) place solution = localTrace disc place solution := by
  obtain ⟨mesh, adjacency, flux, ⟨_, _, _, link⟩⟩ := disc
  cases link <;> rfl

section Programs

variable [Zero S] [One S] [Add S] [Sub S] [Mul S] [Div S] [Neg S]

theorem reduce_untabled (red : Reduction (disc.turn turned)) (s : Schedule) (place : Place)
    (b into : Array S) : red.reduce s place b into = red.untabled.reduce s place b into := by
  unfold reduce
  simp only [FluxSpace.localValues_gathering, breakUpVec_untabled]
  obtain ⟨mesh, adjacency, flux, ⟨_, _, _, link⟩⟩ := disc
  cases link <;> rfl

theorem recover_untabled (red : Reduction (disc.turn turned)) (s : Schedule) (place : Place)
    (b solution into : Array S) :
    red.recover s place b solution into = red.untabled.recover s place b solution into := by
  unfold recover
  simp only [FluxSpace.localValues_gathering, breakUpVec_untabled, putTogether_untabled,
    localTrace_turn]
  rfl

end Programs

theorem assemble_untabled [Zero S] [One S] [Add S] [Sub S] [Mul S] [Div S] [BEq S]
    (red : Reduction (disc.turn turned)) (s : Schedule) :
    red.coupling.assemble s red.store = red.untabled.coupling.assemble s red.untabled.store := rfl

end Reduction

/-! ## Preparation -/

namespace FaceBlocks

/-- The second blocks are the first ones, with the rows turned that land on turned copies. -/
structure Turned [One S] [Neg S] [Mul S] (disc : Discretization S)
    (turned : Fin disc.numBroken → Orientation) (faces faces' : FaceBlocks S) : Prop where
  dofMap_eq : faces'.dofMap = faces.dofMap
  size_eq : faces'.data.size = faces.data.size
  row_eq : ∀ data data' rows, faces.Has disc data rows → faces'.Has disc data' rows →
    ∀ (f : Fin disc.nf) (slot : Slot disc.ne disc.fpe) (side : Fin 2),
      (disc.adjacency.faces.get f).sideOf slot = some side → ∀ p j,
        (Coupling.sideBlock data' f side : Dense S disc.m disc.n).entry p j =
          signs turned (Pairing.join slot.element (rows.get p)) *
            (Coupling.sideBlock data f side : Dense S disc.m disc.n).entry p j

end FaceBlocks

namespace Coupling

variable {disc : Discretization S} {turned : Fin disc.numBroken → Orientation}
  {faces faces' : FaceBlocks S}

theorem slotBlock_turn [Zero S] (rows : Vector (Fin disc.m) disc.m)
    (data : Vector S (disc.nf * 2 * (disc.n * disc.m))) (k : Fin (disc.ne * disc.fpe)) :
    slotBlock (disc.turn turned) rows data k = slotBlock disc rows data k := by
  unfold slotBlock
  cases disc.adjacency.slots.get k with
  | none => rfl
  | some f => rfl

/-- Blocks are taken without a look at the gather table. -/
theorem ofFaceBlocks_turn [Zero S] (s : Schedule) (faces : FaceBlocks S) :
    ofFaceBlocks (disc.turn turned) s faces = ofFaceBlocks disc s faces := by
  unfold ofFaceBlocks
  simp only [slotBlock_turn]

/-- A block whose rows land on turned copies is turned. -/
theorem slotBlock_turned [CommRing S] (hfaces : faces.Turned disc turned faces')
    {data data' : Vector S (disc.nf * 2 * (disc.n * disc.m))} {rows : Vector (Fin disc.m) disc.m}
    (hhas : faces.Has disc data rows) (hhas' : faces'.Has disc data' rows)
    (side : Slot disc.ne disc.fpe) (p : Fin disc.m) (j : Fin disc.n) :
    (slotBlock disc rows data' side.number).entry (rows.get p) j =
      signs turned (Pairing.join side.element (rows.get p)) *
        (slotBlock disc rows data side.number).entry (rows.get p) j := by
  have hinjective := (nativeRows_bijective hhas.rows_eq).injective
  unfold slotBlock
  cases disc.adjacency.slots.get side.number with
  | none => simp
  | some f =>
    dsimp only
    cases hside : (disc.adjacency.faces.get f).sideOf
        ⟨Pairing.outer side.number, Pairing.inner side.number⟩ with
    | none => simp
    | some which =>
      dsimp only
      rw [Dense.entry_scatterRows hinjective, Dense.entry_scatterRows hinjective,
        hfaces.row_eq _ _ rows hhas hhas' f _ which hside, Slot.number, Pairing.outer_join]

/-- Turned blocks are taken whenever the blocks are. -/
theorem ofFaceBlocks_turned [CommRing S] (hfaces : faces.Turned disc turned faces') {s : Schedule}
    {built : Coupling disc} (h : ofFaceBlocks disc s faces = .ok built) (s' : Schedule) :
    ∃ built' : Coupling disc, ofFaceBlocks disc s' faces' = .ok built' ∧
      Turned turned built built' := by
  obtain ⟨data, rows, hhas, hslots⟩ := of_ofFaceBlocks h
  obtain ⟨_, hproduct, h⟩ := Outcome.bind_eq_ok_iff.1 h
  obtain ⟨_, hsized, h⟩ := Outcome.bind_eq_ok_iff.1 h
  obtain ⟨_, -, h⟩ := Outcome.bind_eq_ok_iff.1 h
  obtain ⟨blank, hblank, h⟩ := Outcome.bind_eq_ok_iff.1 h
  obtain ⟨_, harea, -⟩ := Outcome.bind_eq_ok_iff.1 h
  have hsize : faces'.data.size = disc.nf * 2 * (disc.n * disc.m) := by
    rw [hfaces.size_eq, ← hhas.data_eq, Vector.size_toArray]
  have hrows' : nativeRows disc.m faces'.dofMap = .ok rows := by
    rw [hfaces.dofMap_eq, hhas.rows_eq]
  have hhas' : faces'.Has disc ⟨faces'.data, hsize⟩ rows := ⟨rfl, hrows'⟩
  refine ⟨⟨.ofFn fun k => slotBlock disc rows ⟨faces'.data, hsize⟩ k⟩, ?_, ?_⟩
  · have hdata' : Outcome.sized .faceBlocks (disc.nf * 2 * (disc.n * disc.m)) faces'.data =
        .ok ⟨faces'.data, hsize⟩ := Outcome.sized_eq_ok_iff.2 rfl
    rw [ofFaceBlocks, hproduct, Outcome.ok_bind, hdata', Outcome.ok_bind, hrows', Outcome.ok_bind,
      hblank, Outcome.ok_bind, harea, Outcome.ok_bind, s'.each_pure]
    rfl
  · intro side i j
    obtain ⟨p, rfl⟩ := (nativeRows_bijective hhas.rows_eq).surjective i
    rw [block, block, hslots, Vector.get_ofFn_eq]
    exact slotBlock_turned hfaces hhas hhas' side p j

end Coupling

namespace Session

variable {disc : Discretization S} {turned : Fin disc.numBroken → Orientation}
  {faces faces' : FaceBlocks S} {options : Options S} {marked : Vector Bool disc.numBroken}

/-- Marked rows are cleared in both. -/
theorem couplingFrom_turned [CommRing S] (hfaces : faces.Turned disc turned faces') {s : Schedule}
    {c : Coupling disc} (h : couplingFrom disc options s faces marked = .ok c) (s' : Schedule) :
    ∃ c' : Coupling disc, couplingFrom disc options s' faces' marked = .ok c' ∧
      Coupling.Turned turned c c' := by
  obtain ⟨built, hbuilt, h⟩ := Outcome.bind_eq_ok_iff.1 h
  obtain ⟨built', hbuilt', hturned⟩ := Coupling.ofFaceBlocks_turned hfaces hbuilt s'
  unfold couplingFrom
  rw [hbuilt', Outcome.ok_bind]
  split at h
  · next helim =>
    rw [if_pos helim]
    have hclear : built'.clearEssential s' marked.toArray = .ok ⟨.ofFn fun k =>
        (built'.blocks.get k).clearRows (Pairing.part marked (Pairing.outer k))⟩ := by
      rw [Coupling.clearEssential, Outcome.sized_toArray, Outcome.ok_bind, s'.each_pure]
      rfl
    refine ⟨_, hclear, fun side i j => ?_⟩
    have hrow := hturned side i j
    rw [Coupling.block, Coupling.block] at hrow ⊢
    rw [Coupling.get_of_clearEssential h, Vector.get_ofFn_eq, Dense.clearRows, Dense.clearRows,
      Dense.entry_ofFn, Dense.entry_ofFn]
    split
    · exact (mul_zero _).symm
    · exact hrow
  · next helim =>
    rw [if_neg helim]
    obtain rfl := Outcome.ok.inj h
    exact ⟨built', rfl, hturned⟩

/-- **Preparation** with the same marks: the second run has the turned reduction. -/
theorem reductionFrom_turned [CommRing S] (hfaces : faces.Turned disc turned faces') {s : Schedule}
    {red : Reduction disc} (h : reductionFrom disc options s faces marked = .ok red)
    (s' : Schedule) :
    ∃ red' : Reduction (disc.turn turned),
      reductionFrom (disc.turn turned) options s' faces' marked = .ok red' ∧
        red'.essential = red.essential ∧ red'.copies = red.copies.turn turned ∧
          Coupling.Turned turned red.coupling red'.untabled.coupling ∧
            red'.store = red.store := by
  obtain ⟨copies, hcopies, h⟩ := Outcome.bind_eq_ok_iff.1 h
  obtain ⟨c, hc, h⟩ := Outcome.bind_eq_ok_iff.1 h
  obtain ⟨store, hstore, h⟩ := Outcome.bind_eq_ok_iff.1 h
  obtain rfl := Outcome.ok.inj h
  obtain ⟨_, hroom, hcopies⟩ := Outcome.bind_eq_ok_iff.1 hcopies
  obtain rfl := Outcome.ok.inj hcopies
  obtain ⟨c', hc', hturned⟩ := couplingFrom_turned hfaces hc s'
  refine ⟨⟨marked, .among (turnedTable disc.flux.gather turned), c', store⟩, ?_, rfl,
    FirstCopies.among_turn _ _, hturned, rfl⟩
  have hcopies' : (disc.turn turned).flux.firstCopies =
      .ok (.among (turnedTable disc.flux.gather turned)) := by
    rw [FluxSpace.firstCopies, hroom]
    rfl
  have hcoupling' : couplingFrom (disc.turn turned) options s' faces' marked = .ok c' := by
    rw [← hc', couplingFrom, couplingFrom, Coupling.ofFaceBlocks_turn]
    rfl
  rw [reductionFrom, hcopies', Outcome.ok_bind, hcoupling', Outcome.ok_bind, hstore]
  rfl

/-! ## Assembly -/

/-- The session `held` was prepared like `ready`, and its elements were given these matrices since,
    in whatever way; it may have been finalized. -/
def Fed [Zero S] [One S] [Neg S] [LT S] [DecidableLT S] [Sub S] [Mul S] [Div S]
    (session : Session S) (essential : List Nat)
    (given : Fin session.disc.ne → Option (Dense S session.disc.m session.disc.m))
    (ready held : Session S) : Prop :=
  ∃ (red : Reduction session.disc) (store : ElementStore S session.disc.ne session.disc.m)
    (matrix : Option (InterfaceMatrix S)),
    ready = ⟨session.disc, session.options, essential, some red, none⟩ ∧
      held = ⟨session.disc, session.options, essential, some { red with store := store }, matrix⟩ ∧
        store.Holds given red.essential

namespace Fed

variable [Zero S] [One S] [Neg S] [LT S] [DecidableLT S] [Sub S] [Mul S] [Div S]
  {session ready held next : Session S} {essential : List Nat}
  {given : Fin session.disc.ne → Option (Dense S session.disc.m session.disc.m)}

/-- One element is given a matrix. -/
theorem assemble (h : session.Fed essential given ready held) {e : Nat} {matrix : Array S}
    (hnext : held.assemble e matrix = .ok next) :
    ∃ (f : Fin session.disc.ne) (a : Dense S session.disc.m session.disc.m), f.val = e ∧
      a.data.toArray = matrix ∧
        session.Fed essential (fun e' => if e' = f then some a else given e') ready next := by
  obtain ⟨red, store, _, hready, rfl, hholds⟩ := h
  obtain ⟨found, hfound, hnext⟩ := Outcome.bind_eq_ok_iff.1 hnext
  obtain rfl := Option.some.inj (Outcome.orFault_eq_ok_iff.1 hfound)
  obtain ⟨store', hstore, hnext⟩ := Outcome.bind_eq_ok_iff.1 hnext
  obtain ⟨f, a, hf, ha, hholds'⟩ := hholds.assemble hstore
  refine ⟨f, a, hf, ha, red, store', none, hready, ?_, hholds'⟩
  exact (Outcome.ok.inj hnext).symm

/-- All elements are given a matrix. -/
theorem assembleAll (h : session.Fed essential given ready held) {s : Schedule} {batch : Array S}
    (hnext : held.assembleAll s batch = .ok next) :
    ∃ matrices : Vector S (session.disc.ne * (session.disc.m * session.disc.m)),
      matrices.toArray = batch ∧
        session.Fed essential (fun e => some ⟨Pairing.part matrices e⟩) ready next := by
  obtain ⟨red, store, _, hready, rfl, hholds⟩ := h
  obtain ⟨found, hfound, hnext⟩ := Outcome.bind_eq_ok_iff.1 hnext
  obtain rfl := Option.some.inj (Outcome.orFault_eq_ok_iff.1 hfound)
  obtain ⟨store', hstore, hnext⟩ := Outcome.bind_eq_ok_iff.1 hnext
  obtain ⟨matrices, hbatch, hholds'⟩ := ElementStore.holds_assembleAll hstore
  refine ⟨matrices, hbatch, red, store', none, hready, ?_, hholds'⟩
  exact (Outcome.ok.inj hnext).symm

/-- Matrices of all elements are taken. -/
theorem exists_assembleAll (h : session.Fed essential given ready held) (s : Schedule)
    (batch : Vector S (session.disc.ne * (session.disc.m * session.disc.m))) :
    ∃ next, held.assembleAll s batch.toArray = .ok next ∧
      session.Fed essential (fun e => some ⟨Pairing.part batch e⟩) ready next := by
  obtain ⟨red, store, matrix, hready, rfl, hholds⟩ := h
  have hnext : Session.assembleAll (⟨session.disc, session.options, essential,
      some { red with store := store }, matrix⟩ : Session S) s batch.toArray =
      Outcome.ok ⟨session.disc, session.options, essential,
        some { red with store := ElementStore.ofBatch batch red.essential }, none⟩ := by
    unfold Session.assembleAll
    show (store.assembleAll s batch.toArray red.essential.toArray >>= _) = _
    rw [store.assembleAll_eq s batch red.essential]
    rfl
  refine ⟨_, hnext, ?_⟩
  obtain ⟨matrices, hbatch, hfed⟩ := Fed.assembleAll ⟨red, store, matrix, hready, rfl, hholds⟩ hnext
  obtain rfl := Vector.toArray_inj.1 hbatch
  exact hfed

end Fed

/-- Ranks that were just prepared have no matrices. -/
theorem fed_of_prepare [Zero S] [One S] [Neg S] [LT S] [DecidableLT S] [Sub S] [Mul S] [Div S]
    [BEq S] (laws : SignLaws S) {session ready : Fin n → Session S} {s : Fin n → Schedule}
    {faces : Fin n → FaceBlocks S} {essential : Fin n → List Nat}
    (h : Together (fun r : Fin n => ((session r).prepare (s r) ⟨r, n⟩ (faces r)
      (essential r)).rest) fun r => (ready r, ())) (r : Fin n) :
    (session r).Fed (essential r) (fun _ => none) (ready r) (ready r) := by
  obtain ⟨marked, red, -, hready⟩ := prepared_together laws h
  obtain ⟨hr, hred⟩ := hready r
  refine ⟨red r, (red r).store, none, hr, hr, ?_⟩
  exact ElementStore.holds_empty (of_reductionFrom hred).2.2.2

/-! ## The result -/

/-- The session before it is prepared, with some broken copies turned. -/
def turn (session : Session S) (turned : Fin session.disc.numBroken → Orientation) : Session S :=
  ⟨session.disc.turn turned, session.options, [], none, none⟩

/-- What a finalization answers: the interface matrix that the session holds then, and the
    summary. -/
def answer (out : Session S × Summary S) : Program S (Option (InterfaceMatrix S) × Summary S) :=
  .done (.ok (out.1.matrix, out.2))

/-- Runs whose first element without a matrix is the same are refused for the same reason. -/
theorem checkComplete_congr {disc disc' : Discretization S} {red : Reduction disc}
    {red' : Reduction disc'} (options : Options S)
    (h : red'.store.missing.map Fin.val = red.store.missing.map Fin.val) :
    checkComplete options red' = checkComplete options red := by
  unfold checkComplete
  cases hmissing : red.store.missing with
  | none =>
    rw [hmissing, Option.map_none, Option.map_eq_none_iff] at h
    rw [h]
  | some e =>
    rw [hmissing, Option.map_some] at h
    obtain ⟨e', he', hsame⟩ := Option.map_eq_some_iff.1 h
    rw [he']
    dsimp only
    rw [hsame]

/-- Turned reductions finalize alike. -/
theorem finalize_turned [Field S] [LinearOrder S] {red : Reduction disc}
    {red' : Reduction (disc.turn turned)} (h : Reduction.Turned turned red red'.untabled)
    (essential : List Nat) (matrix matrix' : Option (InterfaceMatrix S)) (s : Schedule)
    (place : Place) :
    ((⟨disc.turn turned, options, essential, some red', matrix'⟩ : Session S).finalize s
        place).rest >>= answer =
      ((⟨disc, options, essential, some red, matrix⟩ : Session S).finalize s place).rest >>=
        answer := by
  have hrows : red'.coupling.assemble s red'.store = red.coupling.assemble s red.store :=
    (red'.assemble_untabled s).trans (h.coupling.assemble_eq h.store s)
  have hcomplete : checkComplete options red' = checkComplete options red :=
    checkComplete_congr options (congrArg (Option.map Fin.val) h.store.missing_eq)
  have hfinish : ∀ H : Csr S disc.trace.numLocal disc.trace.numLocal,
      finish (disc.turn turned) place H = finish disc place H := by
    intro H
    obtain ⟨mesh, adjacency, flux, ⟨_, _, _, link⟩⟩ := disc
    cases link <;> rfl
  have hprepared : ∀ (disc : Discretization S) (red : Reduction disc) matrix,
      (⟨disc, options, essential, some red, matrix⟩ : Session S).prepared = .ok red :=
    fun _ _ _ => rfl
  simp only [finalize, finalizeProgram, hprepared, hcomplete, hrows, hfinish, Program.bind_assoc,
    Program.liftM_eq, Program.done_ok_bind]
  rfl

section Runs

variable [Field S] [LinearOrder S] {session ready held : Fin n → Session S}
  {turned : ∀ r, Fin (session r).disc.numBroken → Orientation}
  {faces faces' : Fin n → FaceBlocks S} {essential : Fin n → List Nat} {s : Fin n → Schedule}

/-- Whenever the ranks are prepared, so are the turned ones, and both hold the same up to the turn. -/
theorem prepare_turned
    (h : Together (fun r : Fin n => ((session r).prepare (s r) ⟨r, n⟩ (faces r)
      (essential r)).rest) fun r => (ready r, ()))
    (hfaces : ∀ r, (faces r).Turned (session r).disc (turned r) (faces' r))
    (s' : Fin n → Schedule) :
    ∃ (red : ∀ r, Reduction (session r).disc)
      (red' : ∀ r, Reduction ((session r).disc.turn (turned r))),
      (∀ r, ready r = ⟨(session r).disc, (session r).options, essential r, some (red r), none⟩) ∧
      Together (fun r : Fin n => (((session r).turn (turned r)).prepare (s' r) ⟨r, n⟩ (faces' r)
        (essential r)).rest) (fun r => (⟨(session r).disc.turn (turned r), (session r).options,
          essential r, some (red' r), none⟩, ())) ∧
      (∀ r l, (red r).essential.get l = true ↔ EssentialCopy session essential r l) ∧
      ∀ r, (red' r).essential = (red r).essential ∧
        (red' r).copies = (red r).copies.turn (turned r) ∧
          Coupling.Turned (turned r) (red r).coupling (red' r).untabled.coupling := by
  obtain ⟨marked, red, hclassified, hready⟩ := prepared_together signLaws h
  choose red' hred' hsame using fun r => reductionFrom_turned (hfaces r) (hready r).2 (s' r)
  have hmarked : ∀ r, (red r).essential = marked r := fun r => (of_reductionFrom (hready r).2).1
  have hvalid := validate_of_prepare h
  refine ⟨red, red', fun r => (hready r).1, ?_, fun r l => ?_, fun r => ?_⟩
  · have hrest : ∀ r : Fin n, (((session r).turn (turned r)).prepare (s' r) ⟨r, n⟩ (faces' r)
        (essential r)).rest = (session r).disc.flux.essentialCopies (s r) ⟨r, n⟩ (essential r) >>=
          fun marked => Program.done (reductionFrom ((session r).disc.turn (turned r))
            (session r).options (s' r) (faces' r) marked >>= fun red =>
              .ok (⟨(session r).disc.turn (turned r), (session r).options, essential r, some red,
                none⟩, ())) := by
      intro r
      rw [prepare_eq rfl, ← FluxSpace.essentialCopies_turn _ (turned r) (s r) (s' r)]
      show Program.done (session r).disc.mesh.validate >>= _ = _
      rw [hvalid r]
      rfl
    simp only [hrest]
    refine hclassified.next.2 ?_
    simp only [hred', Outcome.ok_bind]
    exact Together.done _
  · rw [hmarked]
    exact hclassified.marked_iff r l
  · exact ⟨(hsame r).1, (hsame r).2.1, (hsame r).2.2.1⟩

variable [IsStrictOrderedRing S]

/-- **The result**: whenever the ranks are prepared, so are the ranks with turned copies and turned
    face blocks.  Let the elements of the former be given matrices that are non-singular once they are
    patched, and those of the latter the turned ones.  Then all ranks finalize to the same matrix
    with the same summary, and reduce and recover alike. -/
theorem orientation_unseen
    (hprepare : Together (fun r : Fin n => ((session r).prepare (s r) ⟨r, n⟩ (faces r)
      (essential r)).rest) fun r => (ready r, ()))
    (hfaces : ∀ r, (faces r).Turned (session r).disc (turned r) (faces' r))
    {given : ∀ r, Fin (session r).disc.ne →
      Option (Dense S (session r).disc.m (session r).disc.m)}
    (hheld : ∀ r, (session r).Fed (essential r) (given r) (ready r) (held r))
    (hdet : ∀ r marked, (∀ l, marked.get l = true ↔ EssentialCopy session essential r l) →
      ∀ e a, given r e = some a → (a.patch (Pairing.part marked e)).toMatrix.det ≠ 0)
    (s' : Fin n → Schedule) :
    ∃ ready' : Fin n → Session S,
      Together (fun r : Fin n => (((session r).turn (turned r)).prepare (s' r) ⟨r, n⟩ (faces' r)
        (essential r)).rest) (fun r => (ready' r, ())) ∧
      ∀ held' : Fin n → Session S,
        (∀ r, ((session r).turn (turned r)).Fed (essential r)
          (fun e => (given r e).map (Dense.turn (ElementStore.turnedIn (turned r) e)))
          (ready' r) (held' r)) →
        ∀ r (s : Schedule) (place : Place),
          ((held' r).finalize s place).rest >>= answer =
            ((held r).finalize s place).rest >>= answer ∧
          (∀ b into, (held' r).reduce s place b into = (held r).reduce s place b into) ∧
          ∀ b solution into,
            (held' r).recover s place b solution into = (held r).recover s place b solution into := by
  obtain ⟨red, red', hready, hprepare', hmarked, hsame⟩ := prepare_turned hprepare hfaces s'
  refine ⟨_, hprepare', fun held' hheld' r s place => ?_⟩
  obtain ⟨held₁, store, matrix, heq, hr, hholds⟩ := hheld r
  obtain ⟨held₂, store', matrix', heq', hr', hholds'⟩ := hheld' r
  obtain rfl : red r = held₁ :=
    Option.some.inj (eq_of_heq (Session.mk.inj ((hready r).symm.trans heq)).2.2.2.1)
  obtain rfl : red' r = held₂ := Option.some.inj (eq_of_heq (Session.mk.inj heq').2.2.2.1)
  obtain ⟨hessential, hcopies, hcoupling⟩ := hsame r
  rw [hessential] at hholds'
  have hstore : store.Turned (turned r) store' :=
    ElementStore.turned_of_holds hholds hholds' (hdet r _ (hmarked r))
  have hturned : Reduction.Turned (turned r) { red r with store := store }
      (Reduction.untabled { red' r with store := store' }) :=
    ⟨hessential, hcopies, hcoupling, hstore⟩
  rw [hr, hr']
  refine ⟨finalize_turned hturned _ _ _ s place, fun b into => ?_, fun b solution into => ?_⟩
  · exact (Reduction.reduce_untabled _ s place b into).trans (hturned.reduce_eq s place b into)
  · exact (Reduction.recover_untabled _ s place b solution into).trans
      (hturned.recover_eq s place b solution into)

end Runs

/-! ### A turned element -/

/-- The only copy in the first element is turned. -/
def firstTurned (k : Fin (2 * 1)) : Orientation := if k.val = 0 then .minus else .plus

/-- What `oppositeFaces` becomes then: both elements see the face with the same sign. -/
def alikeFaces : FaceBlocks Rat := ⟨#[-1, -1], #[some (.plus 0)]⟩

theorem oppositeFaces_turned (r : Fin 1) :
    oppositeFaces.Turned (pairSession r).disc firstTurned alikeFaces := by
  have hsides : ∀ (f : Fin 1) (e i side : Fin 2),
      (twoElements.adjacency.faces.get f).sideOf ⟨e, i⟩ = some side → e = side := by
    decide
  refine ⟨rfl, rfl, ?_⟩
  obtain rfl : r = 0 := Subsingleton.elim _ _
  rintro ⟨_, _⟩ ⟨_, _⟩ rows ⟨rfl, -⟩ ⟨rfl, -⟩ f ⟨e, i⟩ side hside p j
  obtain rfl := hsides f e i side hside
  change Vector (Fin 1) 1 at rows
  change Fin 1 at p j f
  obtain rfl : p = 0 := Subsingleton.elim _ _
  obtain rfl : j = 0 := Subsingleton.elim _ _
  obtain rfl : f = 0 := Subsingleton.elim _ _
  have hrow : rows.get 0 = 0 := Subsingleton.elim _ _
  change Fin 2 at e
  fin_cases e
  · show (-1 : Rat) = signs firstTurned (Pairing.join (0 : Fin 2) (rows.get 0)) * 1
    rw [hrow]
    decide +kernel
  · show (-1 : Rat) = signs firstTurned (Pairing.join (1 : Fin 2) (rows.get 0)) * -1
    rw [hrow]
    decide +kernel

/-- A matrix with one row does not change when it is turned. -/
theorem pairMatrices_turned (r : Fin 1) :
    (fun e : Fin 2 => (some ⟨Pairing.part (pairMatrices 3 r) e⟩ : Option (Dense Rat 1 1)).map
      (Dense.turn (ElementStore.turnedIn firstTurned e))) =
      fun e => some ⟨Pairing.part (pairMatrices 3 r) e⟩ := by
  obtain rfl : r = 0 := Subsingleton.elim _ _
  funext e
  refine congrArg some (Dense.ext_entry fun i j => ?_)
  obtain rfl : i = 0 := Subsingleton.elim _ _
  obtain rfl : j = 0 := Subsingleton.elim _ _
  fin_cases e <;> decide +kernel

/-- So it is for two elements, the first one of which is turned. -/
theorem orientation_unseen_twoElements :
    ∃ ready ready' held held' : Fin 1 → Session Rat,
      Together (fun r : Fin 1 => ((pairSession r).prepare .inOrder ⟨r, 1⟩ oppositeFaces [1]).rest)
        (fun r => (ready r, ())) ∧
      Together (fun r : Fin 1 => (((pairSession r).turn firstTurned).prepare .inOrder ⟨r, 1⟩
        alikeFaces [1]).rest) (fun r => (ready' r, ())) ∧
      (∀ r, (ready r).assembleAll .inOrder #[2, 3] = .ok (held r)) ∧
      (∀ r, (ready' r).assembleAll .inOrder #[2, 3] = .ok (held' r)) ∧
      ∀ place b solution into, (held' 0).recover .inOrder place b solution into =
        (held 0).recover .inOrder place b solution into := by
  obtain ⟨ready, hready⟩ := pairSession_prepared oppositeFaces (.inl rfl)
  choose held hheld hfed using fun r => Fed.exists_assembleAll (fed_of_prepare signLaws hready r)
    .inOrder (pairMatrices 3 r)
  obtain ⟨ready', hready', hsame⟩ := orientation_unseen hready oppositeFaces_turned hfed
    (fun r marked _ e a ha => by
      obtain rfl := Option.some.inj ha
      exact pairMatrices_nonsingular (by norm_num) r marked e) fun _ => .inOrder
  choose held' hheld' hfed' using fun r => Fed.exists_assembleAll
    (fed_of_prepare signLaws hready' r) .inOrder (pairMatrices 3 r)
  have hturned : ∀ r, ((pairSession r).turn firstTurned).Fed [1]
      (fun e => (some ⟨Pairing.part (pairMatrices 3 r) e⟩ : Option (Dense Rat 1 1)).map
        (Dense.turn (ElementStore.turnedIn firstTurned e))) (ready' r) (held' r) := by
    intro r
    exact Eq.subst (motive := fun given => ((pairSession r).turn firstTurned).Fed [1] given
      (ready' r) (held' r)) (pairMatrices_turned r).symm (hfed' r)
  exact ⟨ready, ready', held, held', hready, hready', hheld, hheld', fun place b solution into =>
    (hsame held' hturned 0 .inOrder place).2.2 b solution into⟩

end Session

end Condensation
