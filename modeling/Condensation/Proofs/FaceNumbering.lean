/-
  Face numbering — the numbers of the faces and the order of their sides have no effect on what
  comes out.

  Two runs differ in the order in which the interior faces are listed, and in which side of a face
  comes first; the face blocks and the gather table of the interface are listed in the same way.

  1. **Finishing (`alike_finish`)** — matrices with the same entries are finished alike: whether or
     not all ranks get through, every rank ends with the same readings.

  2. **Preparation (`prepare_renumbered`)** — the blocks are the only thing that is read face after
     face, and every slot gets what it had.  So the second run has the same reductions.

  3. **Finalization (`alike_finalize`)** — with the same element matrices, both runs assemble rows
     that read the same, or none does.

  4. **The result (`numbering_unseen`)** — renumbered faces are accepted just if the faces are, the
     second run is prepared whenever the first one is, and both give the same answers.
-/
import Condensation.Proofs.OrientationChoice
import Condensation.Proofs.RenumberedFaces

namespace Condensation

variable {S : Type} {n : Nat}

/-! ## Finishing -/

/-- What can be read from an assembled matrix: its entries, its empty rows, and how many pairs of
    faces are coupled. -/
def Coupling.Assembled.readings [Zero S] [Add S] {L : Nat} (rows : Assembled S L) :
    (Nat → Nat → Outcome S) × List Nat × Nat :=
  (rows.matrix.entryAt, rows.emptyRows.map Fin.val, rows.faceConnections)

theorem Coupling.Assembled.ReadsAs.readings_eq [AddCommMonoid S] {L : Nat}
    {rows rows' : Assembled S L} (h : rows'.ReadsAs rows) : rows'.readings = rows.readings := by
  rw [readings, readings, Csr.entryAt_congr h.entry_eq, h.emptyRows_eq, h.faceConnections_eq]

/-- What can be read from a finished matrix: how many rows there are, how many of them are here,
    where these start, and the entry at every position. -/
def InterfaceMatrix.readings [Zero S] [Add S] :
    InterfaceMatrix S → Nat × Nat × Nat × (Nat → Nat → Outcome S)
  | onRank size A => (size, size, 0, A.entryAt)
  | distributed A => A.readings

namespace Session

section Finishing

variable [CommSemiring S] {disc : Discretization S}

theorem finish_unlinked (hlink : disc.trace.trueDofs = none) (place : Place)
    (H : Csr S disc.trace.numLocal disc.trace.numLocal) :
    finish disc place H = .done (.ok (.onRank _ H)) := by
  simp only [finish, hlink, Program.pure_eq]

theorem finish_linked {link : TrueDofs S disc.trace.numLocal}
    (hlink : disc.trace.trueDofs = some link) (place : Place)
    (H : Csr S disc.trace.numLocal disc.trace.numLocal) :
    finish disc place H =
      link.congruence place H >>= fun A => Program.done (.ok (.distributed A)) := by
  simp only [finish, hlink, Program.pure_eq]

theorem finish_renumber (ren : Renumbering disc.nf) (place : Place)
    (H : Csr S disc.trace.numLocal disc.trace.numLocal) :
    finish (disc.renumber ren) place H = finish disc place H := by
  obtain ⟨mesh, adjacency, flux, ⟨_, _, _, link⟩⟩ := disc
  cases link <;> rfl

variable {α : Type} (f : Nat × Nat × Nat × (Nat → Nat → Outcome S) → α)

/-- A rank that needs no other one ends with the same readings; the others do not end at once. -/
theorem result?_finish {H H' : Csr S disc.trace.numLocal disc.trace.numLocal}
    (h : ∀ i j, H'.entry i j = H.entry i j) (place : Place) :
    (finish disc place H' >>= fun A => Program.done (.ok (f A.readings))).result? =
      (finish disc place H >>= fun A => Program.done (.ok (f A.readings))).result? := by
  cases hlink : disc.trace.trueDofs with
  | none =>
    simp only [finish_unlinked hlink, Program.done_ok_bind, InterfaceMatrix.readings,
      Csr.entryAt_congr h]
  | some link =>
    simp only [finish_linked hlink, TrueDofs.congruence_eq, TrueDofs.squared_self,
      TrueDofs.ranges, Ownership.gather_eq, Program.liftM_eq, Program.done_ok_bind,
      Program.gather_bind]
    rfl

/-- **Finishing**: matrices with the same entries are finished alike. -/
theorem alike_finish {disc : Fin n → Discretization S}
    {H H' : ∀ r, Csr S (disc r).trace.numLocal (disc r).trace.numLocal}
    (h : ∀ r i j, (H' r).entry i j = (H r).entry i j)
    (f : Fin n → Nat × Nat × Nat × (Nat → Nat → Outcome S) → α) :
    Alike (fun r : Fin n => finish (disc r) ⟨r, n⟩ (H' r) >>= fun A =>
        Program.done (.ok (f r A.readings)))
      fun r : Fin n => finish (disc r) ⟨r, n⟩ (H r) >>= fun A =>
        Program.done (.ok (f r A.readings)) := by
  refine Alike.of_results (fun r => result?_finish (f r) (h r) _) fun hlive => ?_
  -- ranks without a link have ended
  have hall : ∀ r, ∃ link, (disc r).trace.trueDofs = some link := by
    intro r
    refine Option.ne_none_iff_exists'.1 fun hnone => ?_
    have hended := hlive r
    rw [finish_unlinked hnone, Program.done_ok_bind] at hended
    cases hended
  choose link hlink using hall
  simp only [fun r => finish_linked (hlink r), Program.bind_assoc, Program.done_ok_bind,
    InterfaceMatrix.readings]
  refine TrueDofs.alike_congruence_of_eq (P := fun r => (link r).prolongation) (fun r a b => ?_) f
  exact congrArg (fun M => (link r).congruent M a b) (funext₂ fun i j => (h r i j).symm)

end Finishing

/-! ## Preparation -/

end Session

/-- The same reduction, for the renumbered discretization. -/
def Reduction.renumber {disc : Discretization S} (red : Reduction disc)
    (ren : Renumbering disc.nf) : Reduction (disc.renumber ren) :=
  ⟨red.essential, red.copies, red.coupling.renumber ren, red.store⟩

/-- The orders of the work do not show in the marks. -/
theorem FluxSpace.essentialCopies_scheduled [Zero S] [One S] [BEq S] {ne : Nat}
    (space : FluxSpace S ne) (s s' : Schedule) (place : Place) (essential : List Nat) :
    space.essentialCopies s' place essential = space.essentialCopies s place essential := by
  simp only [essentialCopies, copiesOfUnfree_eq]

namespace Session

section Preparation

variable {disc : Discretization S} {ren : Renumbering disc.nf} {blocks blocks' : FaceBlocks S}

theorem couplingFrom_renumbered [Zero S] (hkeeps : ren.Keeps disc.adjacency.faces)
    (hblocks : ren.OnBlocks (disc.n * disc.m) blocks blocks') (options : Options S)
    (marked : Vector Bool disc.numBroken) (s s' : Schedule) :
    couplingFrom (disc.renumber ren) options s' blocks' marked =
      couplingFrom disc options s blocks marked := by
  have hclear : ∀ c : Coupling disc, (c.renumber ren).clearEssential s' marked.toArray =
      c.clearEssential s marked.toArray := by
    intro c
    simp only [Coupling.clearEssential, Outcome.sized_toArray, Outcome.ok_bind,
      Schedule.each_pure]
  rw [couplingFrom, couplingFrom, Coupling.ofFaceBlocks_renumbered hkeeps hblocks s s']
  refine congrArg (Coupling.ofFaceBlocks disc s blocks >>= ·) (funext fun c => ?_)
  exact if_congr Iff.rfl (hclear c) rfl

/-- Nothing but the blocks of the faces is read face after face. -/
theorem reductionFrom_renumbered [Zero S] (hkeeps : ren.Keeps disc.adjacency.faces)
    (hblocks : ren.OnBlocks (disc.n * disc.m) blocks blocks') (options : Options S)
    (marked : Vector Bool disc.numBroken) (s s' : Schedule) :
    reductionFrom (disc.renumber ren) options s' blocks' marked =
      (reductionFrom disc options s blocks marked >>= fun red => .ok (red.renumber ren)) := by
  rw [reductionFrom, reductionFrom, couplingFrom_renumbered hkeeps hblocks options marked s s']
  simp only [bind_assoc]
  rfl

end Preparation

/-- The session before it is prepared, with its faces renumbered. -/
def renumber (session : Session S) (ren : Renumbering session.disc.nf) : Session S :=
  ⟨session.disc.renumber ren, session.options, [], none, none⟩

/-- **Preparation**: whenever the ranks are prepared, so are the renumbered ones, with the same
    reductions. -/
theorem prepare_renumbered [Field S] [LinearOrder S] {session ready : Fin n → Session S}
    {ren : ∀ r, Renumbering (session r).disc.nf} {blocks blocks' : Fin n → FaceBlocks S}
    {essential : Fin n → List Nat} {s : Fin n → Schedule}
    (h : Together (fun r : Fin n => ((session r).prepare (s r) ⟨r, n⟩ (blocks r)
      (essential r)).rest) fun r => (ready r, ()))
    (hkeeps : ∀ r, (ren r).Keeps (session r).disc.adjacency.faces)
    (hblocks : ∀ r, (ren r).OnBlocks ((session r).disc.n * (session r).disc.m) (blocks r)
      (blocks' r)) (s' : Fin n → Schedule) :
    ∃ red : ∀ r, Reduction (session r).disc,
      (∀ r, ready r = ⟨(session r).disc, (session r).options, essential r, some (red r), none⟩) ∧
      Together (fun r : Fin n => (((session r).renumber (ren r)).prepare (s' r) ⟨r, n⟩ (blocks' r)
        (essential r)).rest) fun r => (⟨(session r).disc.renumber (ren r), (session r).options,
          essential r, some ((red r).renumber (ren r)), none⟩, ()) := by
  obtain ⟨marked, red, hclassified, hready⟩ := prepared_together signLaws h
  refine ⟨red, fun r => (hready r).1, ?_⟩
  have hrest : ∀ r : Fin n, (((session r).renumber (ren r)).prepare (s' r) ⟨r, n⟩ (blocks' r)
      (essential r)).rest = (session r).disc.flux.essentialCopies (s r) ⟨r, n⟩ (essential r) >>=
        fun marked => Program.done (reductionFrom (session r).disc (session r).options (s r)
          (blocks r) marked >>= fun red => .ok (⟨(session r).disc.renumber (ren r),
            (session r).options, essential r, some (red.renumber (ren r)), none⟩, ())) := by
    intro r
    have hvalid : ((session r).renumber (ren r)).disc.mesh.validate = .ok () :=
      validate_of_prepare h r
    rw [prepare_eq rfl, hvalid, Program.done_ok_bind]
    simp only [renumber, FluxSpace.essentialCopies_scheduled _ (s r) (s' r),
      reductionFrom_renumbered (hkeeps r) (hblocks r) _ _ (s r) (s' r), bind_assoc,
      Outcome.ok_bind]
  simp only [hrest]
  refine hclassified.next.2 ?_
  simp only [fun r => (hready r).2, Outcome.ok_bind]
  exact Together.done _

/-! ## Finalization -/

/-- What can be read from a finalized session: its matrix, how many rows of this rank are empty, and
    how many pairs of faces are coupled. -/
def readings [Zero S] [Add S] (out : Session S × Summary S) :
    Option (Nat × Nat × Nat × (Nat → Nat → Outcome S)) × Nat × Nat :=
  (out.1.matrix.map InterfaceMatrix.readings, out.2.emptyRows, out.2.faceConnections)

section Finalization

variable [Field S] [LinearOrder S]

/-- What is assembled on the rank of a session: the entries, the empty rows, and how many pairs of
    faces are coupled. -/
def assembled (session : Session S) (s : Schedule) :
    Outcome ((Nat → Nat → Outcome S) × List Nat × Nat) := do
  let red ← session.prepared
  let rows ← red.coupling.assemble s red.store
  return rows.readings

/-- After the assembly a rank only looks for remarks before it finishes its matrix. -/
theorem finalize_readings {disc : Discretization S} (options : Options S) (essential : List Nat)
    (red : Reduction disc) (matrix : Option (InterfaceMatrix S)) (s : Schedule) (place : Place) :
    (((⟨disc, options, essential, some red, matrix⟩ : Session S).finalize s place).rest >>=
        fun out => Program.done (.ok (readings out))) =
      (liftM (checkComplete options red >>= fun _ => red.coupling.assemble s red.store) :
        Program S (Coupling.Assembled S disc.trace.numLocal)) >>= fun rows =>
          finish disc place rows.matrix >>= fun A =>
            Program.done (.ok (some A.readings, rows.emptyRows.length, rows.faceConnections)) := by
  choose remarks hremarks using
    fun H : Csr S disc.trace.numLocal disc.trace.numLocal => remarkOnSymmetry_returns options H
  have hprepared : (⟨disc, options, essential, some red, matrix⟩ : Session S).prepared = .ok red :=
    rfl
  simp only [finalize, finalizeProgram, hprepared, hremarks, Program.bind_assoc, Program.liftM_eq,
    Program.done_ok_bind, Program.pure_eq]
  cases checkComplete options red <;> rfl

section Rank

variable {disc : Discretization S} {ren : Renumbering disc.nf} {red : Reduction disc}
  {red' : Reduction (disc.renumber ren)}

/-- Where a matrix is assembled, the other run assembles one that reads the same; where none is, it
    is for the same reason. -/
theorem exists_assembled_renumbered (hpos : 0 < disc.fpe) (h : red.Renumbered ren red')
    (options : Options S) (s s' : Schedule) :
    ∃ o : Outcome (Coupling.Assembled S disc.trace.numLocal ×
        Coupling.Assembled S disc.trace.numLocal),
      (checkComplete options red >>= fun _ => red.coupling.assemble s red.store) =
        (o >>= fun x => .ok x.1) ∧
      (checkComplete options red' >>= fun _ => red'.coupling.assemble s' red'.store) =
        (o >>= fun x => .ok x.2) ∧
      ∀ x, o = .ok x → x.2.ReadsAs x.1 := by
  have hcomplete : checkComplete options red' = checkComplete options red :=
    checkComplete_congr options (congrArg (Option.map Fin.val) h.store.missing_eq)
  rw [hcomplete, h.coupling]
  rcases Coupling.assemble_renumbered hpos red.coupling ren h.store s s' with
    ⟨rows, rows', hrows, hrows', hread⟩ | ⟨habort, habort'⟩
  · refine ⟨checkComplete options red >>= fun _ => .ok (rows, rows'), ?_, ?_, ?_⟩
    · rw [hrows, bind_assoc]
      rfl
    · rw [hrows', bind_assoc]
      rfl
    · intro x hx
      obtain ⟨_, -, hx⟩ := Outcome.bind_eq_ok_iff.1 hx
      obtain rfl := Outcome.ok.inj hx
      exact hread
  · refine ⟨checkComplete options red >>= fun _ => .abort, ?_, ?_, ?_⟩
    · rw [habort, bind_assoc]
      rfl
    · rw [habort', bind_assoc]
      rfl
    · intro x hx
      obtain ⟨_, -, hx⟩ := Outcome.bind_eq_ok_iff.1 hx
      cases hx

/-- The same is assembled on a rank. -/
theorem assembled_renumbered (hpos : 0 < disc.fpe) (h : red.Renumbered ren red')
    (options : Options S) (essential : List Nat) (matrix matrix' : Option (InterfaceMatrix S))
    (s s' : Schedule) :
    (⟨disc.renumber ren, options, essential, some red', matrix'⟩ : Session S).assembled s' =
      (⟨disc, options, essential, some red, matrix⟩ : Session S).assembled s := by
  show (red'.coupling.assemble s' red'.store >>= fun rows => Outcome.ok rows.readings) =
    (red.coupling.assemble s red.store >>= fun rows => Outcome.ok rows.readings)
  rw [h.coupling]
  rcases Coupling.assemble_renumbered hpos red.coupling ren h.store s s' with
    ⟨rows, rows', hrows, hrows', hread⟩ | ⟨habort, habort'⟩
  · rw [hrows, hrows', Outcome.ok_bind, Outcome.ok_bind]
    exact congrArg Outcome.ok hread.readings_eq
  · rw [habort, habort']

end Rank

variable {disc : Fin n → Discretization S} {ren : ∀ r, Renumbering (disc r).nf}
  {red : ∀ r, Reduction (disc r)} {red' : ∀ r, Reduction ((disc r).renumber (ren r))}

/-- **Finalization**: renumbered reductions finalize alike. -/
theorem alike_finalize (hpos : ∀ r, 0 < (disc r).fpe)
    (h : ∀ r, (red r).Renumbered (ren r) (red' r)) (options : Fin n → Options S)
    (essential : Fin n → List Nat) (matrix matrix' : Fin n → Option (InterfaceMatrix S))
    (s s' : Fin n → Schedule) :
    Alike (fun r : Fin n => ((⟨(disc r).renumber (ren r), options r, essential r, some (red' r),
        matrix' r⟩ : Session S).finalize (s' r) ⟨r, n⟩).rest >>= fun out =>
          Program.done (.ok (readings out)))
      fun r : Fin n => ((⟨disc r, options r, essential r, some (red r), matrix r⟩ :
        Session S).finalize (s r) ⟨r, n⟩).rest >>= fun out =>
          Program.done (.ok (readings out)) := by
  choose o hfirst hsecond hreads using
    fun r => exists_assembled_renumbered (hpos r) (h r) (options r) (s r) (s' r)
  simp only [finalize_readings, finish_renumber, hfirst, hsecond,
    Program.lift_map_bind]
  -- either a rank is refused, and the others stand at their next call, or all finish their matrices
  refine Alike.lift_bind ?_ ?_
  · intro r x hx _
    have hread := hreads r x hx
    rw [hread.emptyRows_eq, hread.faceConnections_eq]
    exact result?_finish (fun A => (some A, x.1.emptyRows.length, x.1.faceConnections))
      hread.entry_eq _
  · intro x hx
    have hread := fun r => hreads r (x r) (hx r)
    simp only [fun r => (hread r).emptyRows_eq, fun r => (hread r).faceConnections_eq]
    exact alike_finish (fun r => (hread r).entry_eq)
      fun r A => (some A, (x r).1.emptyRows.length, (x r).1.faceConnections)

end Finalization

/-! ## The result -/

section Result

variable [Field S] [LinearOrder S]

/-- Two families of sessions give the same answers: they assemble the same on every rank, finalize
    to the same matrix, and reduce and recover alike. -/
structure SameAnswers (held held' : Fin n → Session S) : Prop where
  assembled_eq : ∀ r s s', (held' r).assembled s' = (held r).assembled s
  finalize_alike : ∀ s s' : Fin n → Schedule,
    Alike (fun r : Fin n => ((held' r).finalize (s' r) ⟨r, n⟩).rest >>= fun out =>
        Program.done (.ok (readings out)))
      fun r : Fin n => ((held r).finalize (s r) ⟨r, n⟩).rest >>= fun out =>
        Program.done (.ok (readings out))
  reduce_eq : ∀ r s place b into, (held' r).reduce s place b into = (held r).reduce s place b into
  recover_eq : ∀ r s place b solution into,
    (held' r).recover s place b solution into = (held r).recover s place b solution into

variable {session ready held : Fin n → Session S} {ren : ∀ r, Renumbering (session r).disc.nf}
  {essential : Fin n → List Nat}
  {given : ∀ r, Fin (session r).disc.ne → Option (Dense S (session r).disc.m (session r).disc.m)}

/-- Sessions with the same reductions give the same answers once the elements have the same
    matrices. -/
theorem sameAnswers_of_fed {red : ∀ r, Reduction (session r).disc}
    (hpos : ∀ r, 0 < (session r).disc.fpe)
    (hready : ∀ r, ready r =
      ⟨(session r).disc, (session r).options, essential r, some (red r), none⟩)
    (hheld : ∀ r, (session r).Fed (essential r) (given r) (ready r) (held r))
    {held' : Fin n → Session S}
    (hheld' : ∀ r, ((session r).renumber (ren r)).Fed (essential r) (given r)
      ⟨(session r).disc.renumber (ren r), (session r).options, essential r,
        some ((red r).renumber (ren r)), none⟩ (held' r)) :
    SameAnswers held held' := by
  choose red₁ store matrix heq hr hholds using hheld
  choose red₂ store' matrix' heq' hr' hholds' using hheld'
  obtain rfl : red = red₁ := funext fun r =>
    Option.some.inj (eq_of_heq (Session.mk.inj ((hready r).symm.trans (heq r))).2.2.2.1)
  obtain rfl : (fun r => (red r).renumber (ren r)) = red₂ := funext fun r =>
    Option.some.inj (eq_of_heq (Session.mk.inj (heq' r)).2.2.2.1)
  obtain rfl : held = _ := funext hr
  obtain rfl : held' = _ := funext hr'
  have hred : ∀ r, Reduction.Renumbered (ren r) { red r with store := store r }
      { (red r).renumber (ren r) with store := store' r } := fun r =>
    ⟨rfl, rfl, rfl, ElementStore.agrees_of_holds (hholds r) (hholds' r)⟩
  refine ⟨fun r s s' => ?_, fun s s' => ?_, fun r s place b into => ?_,
    fun r s place b solution into => ?_⟩
  · exact assembled_renumbered (hpos r) (hred r) _ _ _ _ s s'
  · exact alike_finalize hpos hred _ _ _ _ s s'
  · exact (hred r).reduce_eq s place b into
  · exact (hred r).recover_eq s place b solution into

/-- **The result**: a list of faces is accepted just if the renumbered one is.  Let some
    discretizations be made, and their faces be renumbered.  Then the renumbered discretizations are
    made, every slot gets the block that it had, and whenever the ranks are prepared, so are the
    renumbered ones.  If the elements of both are given the same matrices since, all ranks assemble
    matrices with the same entries, the same empty rows and as many face connections; they finalize,
    reduce and recover alike. -/
theorem numbering_unseen :
    (∀ {nf : Nat} {ren : Renumbering nf} {faces faces' : Array InteriorFace},
      ren.OnFaces faces faces' → ∀ ne fpe,
        ((∃ adj : Adjacency ne fpe, Adjacency.ofFaces ne fpe faces = .ok adj) ↔
          ∃ adj' : Adjacency ne fpe, Adjacency.ofFaces ne fpe faces' = .ok adj')) ∧
    ∀ {n : Nat} {session : Fin n → Session S} {parts : Fin n → Parts S}
      {ren : ∀ r, Renumbering (session r).disc.nf} {faces' : Fin n → Array InteriorFace}
      {gather' : Fin n → Array Nat} {blocks blocks' : Fin n → FaceBlocks S},
      (∀ r, (parts r).make = .ok (session r).disc) →
      (∀ r, (ren r).OnFaces (parts r).faces (faces' r)) →
      (∀ r, (ren r).OnGather (parts r).dofsPerFace (parts r).gather (gather' r)) →
      (∀ r, (ren r).OnBlocks ((session r).disc.n * (session r).disc.m) (blocks r) (blocks' r)) →
      (∀ r, ((parts r).replacing (faces' r) (gather' r)).make =
        .ok ((session r).disc.renumber (ren r))) ∧
      (∀ r s s', Coupling.ofFaceBlocks ((session r).disc.renumber (ren r)) s' (blocks' r) =
        Coupling.ofFaceBlocks (session r).disc s (blocks r)) ∧
      ∀ {essential : Fin n → List Nat} {s : Fin n → Schedule} {ready : Fin n → Session S},
        Together (fun r : Fin n => ((session r).prepare (s r) ⟨r, n⟩ (blocks r)
          (essential r)).rest) (fun r => (ready r, ())) →
        ∀ s' : Fin n → Schedule, ∃ ready' : Fin n → Session S,
          Together (fun r : Fin n => (((session r).renumber (ren r)).prepare (s' r) ⟨r, n⟩
            (blocks' r) (essential r)).rest) (fun r => (ready' r, ())) ∧
          ∀ {given : ∀ r, Fin (session r).disc.ne →
              Option (Dense S (session r).disc.m (session r).disc.m)}
            {held held' : Fin n → Session S},
            (∀ r, (session r).Fed (essential r) (given r) (ready r) (held r)) →
            (∀ r, ((session r).renumber (ren r)).Fed (essential r) (given r) (ready' r)
              (held' r)) →
            SameAnswers held held' := by
  refine ⟨fun h ne fpe => Adjacency.exists_ofFaces_iff h, ?_⟩
  intro n session parts ren faces' gather' blocks blocks' hmade hfaces hgather hblocks
  have hrenumbered := fun r => Parts.make_renumbered (hmade r) (hfaces r) (hgather r)
  have hkeeps := fun r => (hrenumbered r).2
  refine ⟨fun r => (hrenumbered r).1, fun r s s' => ?_, fun {essential s ready} hprepare s' => ?_⟩
  · exact Coupling.ofFaceBlocks_renumbered (hkeeps r) (hblocks r) s s'
  · obtain ⟨red, hready, hprepare'⟩ := prepare_renumbered hprepare hkeeps hblocks s'
    have hpos := fun r => Mesh.facesPerElement_pos (validate_of_prepare hprepare r)
    exact ⟨_, hprepare', fun hheld hheld' => sameAnswers_of_fed hpos hready hheld hheld'⟩

end Result

/-! ### Three faces -/

/-- What the glued elements are made from. -/
def gluedParts : Parts Rat where
  mesh := Coupling.gluedElements.mesh
  elements := 2
  flux := Coupling.gluedElements.flux
  faces := #[⟨⟨0, 0⟩, ⟨0, 1⟩, false⟩, ⟨⟨0, 2⟩, ⟨1, 0⟩, false⟩, ⟨⟨1, 1⟩, ⟨4, 0⟩, true⟩]
  dofsPerFace := 1
  numLocal := 3
  gather := #[0, 1, 2]
  link := none

/-- Every face gets the number before its own, and the faces with two sides on this rank are seen
    from the other one. -/
def rotated : Renumbering 3 := ⟨finRotate 3, fun f => f.val != 1⟩

/-- The list of faces that comes out. -/
def rotatedFaces : Array InteriorFace :=
  #[⟨⟨1, 0⟩, ⟨0, 2⟩, false⟩, ⟨⟨1, 1⟩, ⟨4, 0⟩, true⟩, ⟨⟨0, 1⟩, ⟨0, 0⟩, false⟩]

/-- A session with the glued elements. -/
def gluedSession (_ : Fin 1) : Session Rat := ⟨Coupling.gluedElements, {}, [], none, none⟩

/-- Blocks of its faces, -/
def gluedBlocks : FaceBlocks Rat := ⟨#[1, 2, 3, 4, 5, 6], #[some (.plus 0)]⟩

/-- and what becomes of them. -/
def rotatedBlocks : FaceBlocks Rat := ⟨#[4, 3, 5, 6, 2, 1], #[some (.plus 0)]⟩

theorem gluedSession_prepared :
    ∃ ready : Fin 1 → Session Rat, Together (fun r : Fin 1 =>
      ((gluedSession r).prepare .inOrder ⟨r, 1⟩ gluedBlocks [1]).rest) fun r => (ready r, ()) := by
  obtain ⟨a, ha⟩ : ∃ a, Together (fun r : Fin 1 =>
      ((gluedSession r).prepare .inOrder ⟨r, 1⟩ gluedBlocks [1]).rest) a :=
    Together.exists_of_values (by decide +kernel) (by decide +kernel)
  exact ⟨fun r => (a r).1, ha⟩

theorem rotated_faces : rotated.OnFaces gluedParts.faces rotatedFaces := by
  refine ⟨rfl, rfl, ?_, ?_⟩ <;> decide

theorem rotated_gather : rotated.OnGather 1 #[0, 1, 2] #[1, 2, 0] := by
  refine ⟨rfl, ?_⟩
  decide

theorem rotated_blocks : rotated.OnBlocks 1 gluedBlocks rotatedBlocks := by
  refine ⟨rfl, rfl, ?_⟩
  decide

/-- So it is for them: both sessions are prepared, take the same matrices, and give the same
    answers. -/
theorem numbering_unseen_rotated :
    (gluedParts.replacing rotatedFaces #[1, 2, 0]).make =
      .ok (Coupling.gluedElements.renumber rotated) ∧
    ∃ ready ready' held held' : Fin 1 → Session Rat,
      Together (fun r : Fin 1 => ((gluedSession r).prepare .inOrder ⟨r, 1⟩ gluedBlocks [1]).rest)
        (fun r => (ready r, ())) ∧
      Together (fun r : Fin 1 => (((gluedSession r).renumber rotated).prepare .backwards ⟨r, 1⟩
        rotatedBlocks [1]).rest) (fun r => (ready' r, ())) ∧
      (∀ r, (ready r).assembleAll .inOrder #[2, 3] = .ok (held r)) ∧
      (∀ r, (ready' r).assembleAll .backwards #[2, 3] = .ok (held' r)) ∧
      SameAnswers held held' := by
  obtain ⟨ready, hready⟩ := gluedSession_prepared
  have hmade : ∀ r, gluedParts.make = .ok (gluedSession r).disc := fun _ => rfl
  obtain ⟨hrenumbered, -, hall⟩ := numbering_unseen.2 hmade (fun _ => rotated_faces)
    (fun _ => rotated_gather) fun _ => rotated_blocks
  obtain ⟨ready', hready', hsame⟩ := hall hready fun _ => .backwards
  choose held hheld hfed using fun r => Fed.exists_assembleAll (fed_of_prepare signLaws hready r)
    .inOrder (pairMatrices 3 r)
  choose held' hheld' hfed' using fun r => Fed.exists_assembleAll
    (fed_of_prepare signLaws hready' r) .backwards (pairMatrices 3 r)
  exact ⟨hrenumbered 0, ready, ready', held, held', hready, hready', hheld, hheld',
    hsame hfed hfed'⟩

end Session

end Condensation
