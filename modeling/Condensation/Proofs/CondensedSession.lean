/-
  Condensed session — from preparing to recovering, a session solves the original system.

  1. **The path** — on a session with the default options and no true interface unknowns, no step
     after the preparation talks to another rank: filling in all matrices, finalizing, reducing and
     recovering are programs that have ended (`finalize_eq_done_iff`, `reduce_eq`, `recover_eq`).

  2. **The result (`condensed_session`)** — the finalized matrix and the reduced right-hand side
     are a system whose solutions are the interface vectors of the original one, and recovering
     gives the broken vector that belongs to them.
-/
import Condensation.Proofs.SaddlePoint

namespace Condensation

variable {S : Type} {disc : Discretization S}

open Matrix

/-! ## Reducing and recovering -/

namespace Reduction

/-- An array with one value per true dof has local values, also where the space has no link. -/
theorem localValues_returns [Zero S] [One S] [Neg S] [Mul S] {ne : Nat} (space : FluxSpace S ne)
    {b : Array S} (hb : b.size = space.numTrue) : ∃ v, space.localValues b = .ok v := by
  unfold FluxSpace.numTrue at hb
  unfold FluxSpace.localValues
  cases hlink : space.trueDofs with
  | none =>
    rw [hlink] at hb
    exact ⟨⟨b, hb⟩, Outcome.sized_eq_ok_iff.2 rfl⟩
  | some link =>
    rw [hlink] at hb
    have hsized : Outcome.sized .trueFluxVector link.numOwned b = .ok ⟨b, hb⟩ :=
      Outcome.sized_eq_ok_iff.2 rfl
    exact ⟨link.restrictTransposeVec ⟨b, hb⟩, by simp only [hsized, Outcome.ok_bind]; rfl⟩

variable [Field S]

/-- The broken load of some local values. -/
def loadOf (red : Reduction disc) (v : Vector S disc.flux.numLocal) : Vector S disc.numBroken :=
  .ofFn fun k => match red.copies.toLocal.get k with
    | some g => g.read v.get
    | none => 0

/-- Whatever the schedule, breaking up a vector gives the load it stands for, -/
theorem breakUpVec_eq (red : Reduction disc) (s : Schedule) (v : Vector S disc.flux.numLocal) :
    red.breakUpVec s v = .ok (red.loadOf v) :=
  s.each_pure _ _

/-- and so does the call on arrays, which checks the length of the output first. -/
theorem breakUp_eq (red : Reduction disc) (s : Schedule) {b into : Array S}
    {v : Vector S disc.flux.numLocal} (hv : disc.flux.localValues b = .ok v)
    (hinto : into.size = disc.numBroken) : red.breakUp s b into = .ok (red.loadOf v).toArray := by
  have hlen : Outcome.sameLength .brokenVector disc.numBroken into.size = .ok () :=
    Outcome.require_eq_ok_iff.2 hinto.symm
  rw [breakUp, hv, Outcome.ok_bind, hlen, Outcome.ok_bind, breakUpVec_eq]
  rfl

/-- The residual is the masked difference, whatever the schedule. -/
theorem residual_eq (red : Reduction disc) (s : Schedule)
    (load correction : Vector S disc.numBroken) :
    red.residual s load correction =
      .ok (.ofFn (masked red.essential (load.get - correction.get))) :=
  s.each_pure _ _

variable [LinearOrder S]

/-- What a right-hand side is reduced to. -/
theorem reduce_eq (red : Reduction disc) (hlocal : disc.trace.trueDofs = none)
    (hbuilt : red.store.Built) (s : Schedule) (place : Place) {b into : Array S}
    {v : Vector S disc.flux.numLocal} (hv : disc.flux.localValues b = .ok v)
    (hinto : into.size = disc.trace.numLocal) :
    red.reduce s place b into = .done (.ok (Vector.ofFn (red.coupling.jumpMatrix *ᵥ
      (red.store.inverse *ᵥ (red.loadOf v).get))).toArray) := by
  have hlen : Outcome.sameLength .reducedRhs disc.trace.numTrue into.size = .ok () := by
    refine Outcome.require_eq_ok_iff.2 ?_
    rw [TraceSpace.numTrue, hlocal, hinto]
  simp only [reduce, hlen, hv, breakUpVec_eq, ElementStore.solveVec_eq hbuilt, jumpVec_eq,
    Vector.ofFn_get, Program.liftM_eq, Program.done_ok_bind, Program.pure_eq, hlocal]

/-- What is recovered from an interface vector. -/
theorem recover_eq (red : Reduction disc) (hlocal : disc.trace.trueDofs = none)
    (hbuilt : red.store.Built) (s : Schedule) (place : Place) {b into : Array S}
    (trace : Vector S disc.trace.numLocal) {v : Vector S disc.flux.numLocal}
    (hv : disc.flux.localValues b = .ok v) (hinto : into.size = disc.flux.numTrue) :
    ∃ out, red.putTogether s (Vector.ofFn (red.store.inverse *ᵥ masked red.essential
        ((red.loadOf v).get - red.coupling.jumpMatrixᵀ *ᵥ trace.get))).toArray into = .ok out ∧
      red.recover s place b trace.toArray into = .done (.ok out) := by
  have hlen : Outcome.sameLength .traceSolution disc.trace.numTrue trace.toArray.size = .ok () := by
    refine Outcome.require_eq_ok_iff.2 ?_
    rw [TraceSpace.numTrue, hlocal]
    simp
  have htrace : Reduction.localTrace disc place trace.toArray = .done (.ok trace) := by
    simp only [localTrace, hlocal, Outcome.sized_toArray, Program.liftM_eq]
  obtain ⟨incoming, hincoming⟩ := localValues_returns disc.flux hinto
  have hput : ∃ out, red.putTogether s (Vector.ofFn (red.store.inverse *ᵥ masked red.essential
      ((red.loadOf v).get - red.coupling.jumpMatrixᵀ *ᵥ trace.get))).toArray into = .ok out := by
    simp only [putTogether, Outcome.sized_toArray, hincoming, Outcome.ok_bind, putTogetherVec,
      s.each_pure]
    exact ⟨_, rfl⟩
  obtain ⟨out, hout⟩ := hput
  refine ⟨out, hout, ?_⟩
  simp only [recover, hlen, hv, breakUpVec_eq, htrace, jumpTransposeVec_eq, residual_eq,
    ElementStore.solveVec_eq hbuilt, Vector.ofFn_get, Program.liftM_eq, Program.done_ok_bind]
  exact congrArg Program.done hout

end Reduction

/-! ## The session -/

namespace Session

section Path

variable [Field S] [LinearOrder S]

/-- The session with the matrices of all elements filled in. -/
def filled (disc : Discretization S) (options : Options S) (essential : List Nat)
    (red : Reduction disc) (batch : Vector S (disc.ne * (disc.m * disc.m))) : Session S :=
  ⟨disc, options, essential,
    some { red with store := ElementStore.ofBatch batch red.essential }, none⟩

/-- In a prepared session a batch of the right length fills the store and is not refused. -/
theorem assembleAll_prepared (options : Options S) (essential : List Nat) (red : Reduction disc)
    (s : Schedule) (batch : Vector S (disc.ne * (disc.m * disc.m))) :
    (⟨disc, options, essential, some red, none⟩ : Session S).assembleAll s batch.toArray =
      .ok (filled disc options essential red batch) := by
  have hstore := red.store.assembleAll_eq s batch red.essential
  unfold assembleAll
  show (red.store.assembleAll s batch.toArray red.essential.toArray >>= fun store =>
    Outcome.ok ((⟨disc, options, essential, some red, none⟩ : Session S).holding
      { red with store := store })) = _
  rw [hstore]
  rfl

theorem missing_ofBatch {ne m : Nat} (batch : Vector S (ne * (m * m)))
    (marked : Vector Bool (ne * m)) : (ElementStore.ofBatch batch marked).missing = none := by
  refine List.find?_eq_none.2 fun e _ => ?_
  simp [ElementStore.ofBatch, ElementStore.slotOf]

/-- Finalizing ends well exactly when the interface matrix is assembled, and keeps it. -/
theorem finalize_eq_done_iff (hlocal : disc.trace.trueDofs = none) {essential : List Nat}
    {red : Reduction disc} {batch : Vector S (disc.ne * (disc.m * disc.m))} {s : Schedule}
    {place : Place} {final : Session S} {summary : Summary S} :
    ((filled disc {} essential red batch).finalize s place).rest = .done (.ok (final, summary)) ↔
      ∃ rows, red.coupling.assemble s (ElementStore.ofBatch batch red.essential) = .ok rows ∧
        final = { filled disc {} essential red batch with
          matrix := some (.onRank disc.trace.numLocal rows.matrix) } ∧
        summary =
          { interfaceRows := disc.trace.numLocal
            stored := rows.matrix.stored
            emptyRows := rows.emptyRows.length
            faceConnections := rows.faceConnections
            distributed := false
            remarks := remarkOnRows rows.emptyRows } := by
  have hcomplete : checkComplete ({} : Options S)
      { red with store := ElementStore.ofBatch batch red.essential } = .ok () := by
    simp only [checkComplete, missing_ofBatch]
    rfl
  have hsymmetry : ∀ H : Csr S disc.trace.numLocal disc.trace.numLocal,
      remarkOnSymmetry ({} : Options S) H = .ok [] := fun H => rfl
  simp only [finalize, finalizeProgram, filled, prepared, Outcome.orFault, Program.liftM_eq,
    Program.done_ok_bind, hcomplete]
  cases hrows : red.coupling.assemble s (ElementStore.ofBatch batch red.essential) with
  | ok rows =>
    simp only [Program.done_ok_bind, hsymmetry, finish, hlocal, Program.pure_eq, List.append_nil,
      Program.done.injEq, Outcome.ok.injEq, Prod.mk.injEq]
    constructor
    · rintro ⟨rfl, rfl⟩
      exact ⟨rows, rfl, rfl, rfl⟩
    · rintro ⟨_, rfl, rfl, rfl⟩
      exact ⟨rfl, rfl⟩
  | fault why => simp
  | abort => simp

end Path

/-- What a finalized session does with a right-hand side `b`: it reduces it to `reduced`, and the
    solutions of its matrix `H` for that are the interface vectors of the original system for the
    broken load of `b`.  The broken vector that belongs to one of them is recovered. -/
structure Condenses [Field S] [LinearOrder S] (final : Session S) (red : Reduction disc)
    (batch : Vector S (disc.ne * (disc.m * disc.m)))
    (rows : Coupling.Assembled S disc.trace.numLocal) (b : Array S)
    (load : Vector S disc.numBroken) (reduced : Vector S disc.trace.numLocal) : Prop where
  load_eq : ∀ s (into : Array S), into.size = disc.numBroken →
    red.breakUp s b into = .ok load.toArray
  reduced_eq : ∀ s place (into : Array S), into.size = disc.trace.numLocal →
    final.reduce s place b into = .done (.ok reduced.toArray)
  solves_iff : ∀ v, rows.matrix.mulVec v = reduced ↔
    (∀ r ∈ rows.emptyRows, v.get r = 0) ∧ ∃ x, SaddlePoint red batch load v x
  recovered : ∀ v x, SaddlePoint red batch load v x →
    ∀ s place (into : Array S), into.size = disc.flux.numTrue →
      ∃ out, final.recover s place b v.toArray into = .done (.ok out) ∧
        red.putTogether s x.toArray into = .ok out

variable [Field S] [LinearOrder S] [IsStrictOrderedRing S]

/-- A session that holds a batch of positive blocks and assembled rows condenses every right-hand
    side of the right length. -/
theorem condenses_final (hlocal : disc.trace.trueDofs = none) {essential : List Nat}
    {red : Reduction disc} (hcleared : red.coupling.Cleared red.essential)
    {batch : Vector S (disc.ne * (disc.m * disc.m))}
    (hpos : ∀ e, Positive (⟨Pairing.part batch e⟩ : Dense S disc.m disc.m).toMatrix)
    {s : Schedule} {rows : Coupling.Assembled S disc.trace.numLocal}
    (hrows : red.coupling.assemble s (ElementStore.ofBatch batch red.essential) = .ok rows)
    (matrix : Option (InterfaceMatrix S)) {b : Array S} (hb : b.size = disc.flux.numTrue) :
    ∃ load reduced, Condenses { filled disc {} essential red batch with matrix := matrix } red batch
      rows b load reduced := by
  obtain ⟨v, hv⟩ := Reduction.localValues_returns disc.flux hb
  let full : Reduction disc := { red with store := ElementStore.ofBatch batch red.essential }
  have hbuilt : full.store.Built := ElementStore.built_ofBatch batch red.essential
  have hreduced : ∀ r, (Vector.ofFn (full.coupling.jumpMatrix *ᵥ
      (full.store.inverse *ᵥ (full.loadOf v).get))).get r = (red.coupling.jumpMatrix *ᵥ
        ((ElementStore.ofBatch batch red.essential).inverse *ᵥ (red.loadOf v).get)) r :=
    fun r => Vector.get_ofFn_eq _ r
  refine ⟨red.loadOf v, .ofFn (full.coupling.jumpMatrix *ᵥ
    (full.store.inverse *ᵥ (full.loadOf v).get)), ?_, ?_, ?_, ?_⟩
  · intro s into hinto
    exact red.breakUp_eq s hv hinto
  · intro s place into hinto
    exact full.reduce_eq hlocal hbuilt s place hv hinto
  · intro w
    rw [← condensed_iff_saddlePoint hcleared hpos hrows]
    constructor
    · intro h r
      rw [h, hreduced]
    · intro h
      refine Vector.ext_get fun r => ?_
      rw [h r, hreduced]
  · intro w x hx s place into hinto
    obtain ⟨-, hAB, hBA⟩ := elementMatrix_mul_inverse hpos red.essential
    obtain ⟨hsolved, -⟩ := (saddlePoint_iff hAB hBA w x).1 hx
    obtain ⟨out, hput, hrecover⟩ := full.recover_eq hlocal hbuilt s place w hv hinto
    refine ⟨out, hrecover, ?_⟩
    have hxv : x = .ofFn (full.store.inverse *ᵥ masked full.essential
        ((full.loadOf v).get - full.coupling.jumpMatrixᵀ *ᵥ w.get)) := by
      refine Vector.ext_get fun k => ?_
      rw [hsolved, Vector.get_ofFn_eq]
      rfl
    rw [hxv]
    exact hput

/-- **The result**: static condensation is equivalent to the original system.  A session with the
    default options is prepared, gets positive element matrices, and is finalized; whatever it
    finalizes to, its matrix and its reduced right-hand sides condense the original system. -/
theorem condensed_session (hlocal : disc.trace.trueDofs = none) {fresh : Session S}
    (hstart : start disc {} = .ok fresh) {s : Schedule} {place : Place} {faces : FaceBlocks S}
    {essential : List Nat} {replies : List (Reply S)} {ready : Session S}
    (hprepare : ((fresh.prepare s place faces essential).rest.runScripted replies).outcome =
      .ok (ready, ()))
    (batch : Vector S (disc.ne * (disc.m * disc.m)))
    (hpos : ∀ e, Positive (⟨Pairing.part batch e⟩ : Dense S disc.m disc.m).toMatrix) :
    ∃ red : Reduction disc, ready = ⟨disc, {}, essential, some red, none⟩ ∧
      (∀ s, ready.assembleAll s batch.toArray = .ok (filled disc {} essential red batch)) ∧
      (Coupling.RoomForLinks disc → ∀ s place, ∃ final summary,
        ((filled disc {} essential red batch).finalize s place).rest =
          .done (.ok (final, summary))) ∧
      ∀ s place final summary,
        ((filled disc {} essential red batch).finalize s place).rest =
          .done (.ok (final, summary)) →
        ∃ rows, red.coupling.assemble s (ElementStore.ofBatch batch red.essential) = .ok rows ∧
          final.matrix = some (.onRank disc.trace.numLocal rows.matrix) ∧
          summary.emptyRows = rows.emptyRows.length ∧
          ∀ b : Array S, b.size = disc.flux.numTrue →
            ∃ load reduced, Condenses final red batch rows b load reduced := by
  obtain ⟨hvalid, rfl⟩ := start_eq hstart
  obtain ⟨red, rfl, hcleared⟩ := prepare_spec rfl hprepare
  refine ⟨red, rfl, fun s => assembleAll_prepared {} essential red s batch, ?_, ?_⟩
  · intro hroom s place
    have hpos : 0 < disc.fpe := Mesh.facesPerElement_pos hvalid
    obtain ⟨rows, hrows⟩ := Coupling.assemble_returns hroom hpos red.coupling s
      (ElementStore.built_ofBatch batch red.essential)
    exact ⟨_, _, (finalize_eq_done_iff hlocal).2 ⟨rows, hrows, rfl, rfl⟩⟩
  · intro s place final summary hfinal
    obtain ⟨rows, hrows, rfl, rfl⟩ := (finalize_eq_done_iff hlocal).1 hfinal
    exact ⟨rows, hrows, rfl, rfl, fun b hb => condenses_final hlocal hcleared hpos hrows _ hb⟩

/-- The two elements see the face with opposite signs. -/
def oppositeFaces : FaceBlocks Rat := ⟨#[1, -1], #[some (.plus 0)]⟩

/-- So it is for two elements with matrices 2 and 3, of which the second is essential. -/
theorem condensed_twoElements :
    ∃ (red : Reduction twoElements) (rows : Coupling.Assembled Rat twoElements.trace.numLocal)
      (final : Session Rat) (load : Vector Rat twoElements.numBroken)
      (reduced : Vector Rat twoElements.trace.numLocal),
      final.matrix = some (.onRank twoElements.trace.numLocal rows.matrix) ∧
        Condenses final red #v[2, 3] rows #[5, 7] load reduced := by
  have hready : (((⟨twoElements, {}, [], none, none⟩ : Session Rat).prepare .inOrder .alone
      oppositeFaces [1]).rest.runScripted []).outcome.hasValue = true := by decide +kernel
  obtain ⟨⟨ready, ⟨⟩⟩, hprepare⟩ := Outcome.hasValue_iff.1 hready
  have hpos : ∀ e : Fin twoElements.ne, Positive (⟨Pairing.part (#v[2, 3] : Vector Rat
      (twoElements.ne * (twoElements.m * twoElements.m))) e⟩ :
        Dense Rat twoElements.m twoElements.m).toMatrix := by
    intro e
    change Fin 2 at e
    fin_cases e
    · exact Positive.of_one (show (0 : Rat) < 2 by norm_num)
    · exact Positive.of_one (show (0 : Rat) < 3 by norm_num)
  have hstart : start twoElements ({} : Options Rat) = .ok ⟨twoElements, {}, [], none, none⟩ := rfl
  have hlocal : twoElements.trace.trueDofs = none := rfl
  have hb : (#[5, 7] : Array Rat).size = twoElements.flux.numTrue := rfl
  obtain ⟨red, -, -, hfinalize, hcondense⟩ := condensed_session hlocal hstart hprepare #v[2, 3] hpos
  obtain ⟨final, summary, hfinal⟩ := hfinalize room_twoElements .inOrder .alone
  obtain ⟨rows, -, hmatrix, -, hall⟩ := hcondense .inOrder .alone final summary hfinal
  obtain ⟨load, reduced, h⟩ := hall #[5, 7] hb
  exact ⟨red, rows, final, load, reduced, hmatrix, h⟩

end Session

end Condensation
