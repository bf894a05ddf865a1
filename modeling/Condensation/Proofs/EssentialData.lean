/-
  Essential data — what belongs to essential degrees of freedom has no effect.

  Two runs on one discretization differ in the data of essential degrees of freedom only.  There are
  three ways for such data to come in, and each of them is cut off:

  1. **Elements** — patching replaces essential rows and columns before the matrix is factored
     (`ofBatch_congr`), and rows of face blocks that land on essential degrees of freedom are cleared
     (`couplingFrom_congr`).

  2. **Right-hand sides (`masked_loadOf`)** — a listed value of a right-hand side reaches essential
     broken degrees of freedom only.  Solving with a patched matrix leaves it there, where the
     interface does not see it (`reduce_congr`), and a recovery clears it first (`recover_congr`).

  3. **The result (`essential_data_cut_off`)** — both runs end in the same session, with the same
     interface matrix, and there both right-hand sides give the same.
-/
import Condensation.Proofs.FaceRows
import Condensation.Proofs.HeldMatrix
import Condensation.Proofs.KeptValues

namespace Condensation

variable {S : Type} {n : Nat}

open Matrix

/-! ## Elements -/

/-- The matrices agree in all entries whose row and column are in `keep`. -/
def BatchesAgree {ne m : Nat} (keep : Fin (ne * m) → Prop) (batch batch' : Vector S (ne * (m * m))) :
    Prop :=
  ∀ e i j, keep (Pairing.join e i) → keep (Pairing.join e j) →
    (⟨Pairing.part batch e⟩ : Dense S m m).entry i j =
      (⟨Pairing.part batch' e⟩ : Dense S m m).entry i j

/-- **Elements** that agree away from the marks are factored alike. -/
theorem ElementStore.ofBatch_congr [Zero S] [One S] [Neg S] [LT S] [DecidableLT S] [Sub S] [Mul S]
    [Div S] {ne m : Nat} {batch batch' : Vector S (ne * (m * m))} {marked : Vector Bool (ne * m)}
    (h : BatchesAgree (fun l => marked.get l = false) batch batch') :
    ofBatch batch' marked = ofBatch batch marked := by
  have hpatch : ∀ e, (⟨Pairing.part batch' e⟩ : Dense S m m).patch (Pairing.part marked e) =
      (⟨Pairing.part batch e⟩ : Dense S m m).patch (Pairing.part marked e) := by
    intro e
    refine Dense.ext_entry fun i j => ?_
    rw [Dense.patch, Dense.patch, Dense.entry_ofFn, Dense.entry_ofFn, Pairing.get_part,
      Pairing.get_part]
    by_cases hi : marked.get (Pairing.join e i) = true
    · simp [hi]
    · by_cases hj : marked.get (Pairing.join e j) = true
      · simp [hj]
      · simp [hi, hj, h e i j (by simpa using hi) (by simpa using hj)]
  simp only [ofBatch, slotOf, hpatch]

/-! ## Right-hand sides -/

/-- Vectors of one length that agree except in the listed places. -/
def AgreeExcept (listed : List Nat) (b b' : Array S) : Prop :=
  b'.size = b.size ∧ ∀ t, t ∉ listed → b'[t]? = b[t]?

section Loads

variable [Zero S] [One S] [Neg S] [Mul S]

/-- A local value depends on the true ones that are read from it. -/
theorem TrueDofs.get_restrictTransposeVec_congr {l : Nat} (link : TrueDofs S l)
    {t t' : Vector S link.numOwned} {k : Fin l}
    (h : ∀ i, (link.restriction.get i).index = k → t'.get i = t.get i) :
    (link.restrictTransposeVec t').get k = (link.restrictTransposeVec t).get k := by
  have all : ∀ (items : List (Fin link.numOwned)) (v v' : Vector S l), v'.get k = v.get k →
      (items.foldl (fun v i => v.put (link.restriction.get i).index
        ((link.restriction.get i).orientation.factor * t'.get i)) v').get k =
      (items.foldl (fun v i => v.put (link.restriction.get i).index
        ((link.restriction.get i).orientation.factor * t.get i)) v).get k := by
    intro items
    induction items with
    | nil => exact fun v v' hv => hv
    | cons i rest ih =>
      intro v v' hv
      apply ih
      show (v'.put (link.restriction.get i).index _).get k =
        (v.put (link.restriction.get i).index _).get k
      by_cases hi : (link.restriction.get i).index = k
      · rw [hi, Vector.get_put_self, Vector.get_put_self, h i hi]
      · rw [Vector.get_put_of_ne _ _ hi, Vector.get_put_of_ne _ _ hi]
        exact hv
  exact all _ _ _ rfl

theorem FluxSpace.localValues_congr {ne : Nat} {space : FluxSpace S ne} {b b' : Array S}
    {v v' : Vector S space.numLocal} (h : space.localValues b = .ok v)
    (h' : space.localValues b' = .ok v') {k : Fin space.numLocal}
    (hsame : ∀ t, space.ReadFrom t k → b'[t]? = b[t]?) : v'.get k = v.get k := by
  unfold localValues at h h'
  unfold ReadFrom at hsame
  cases hlink : space.trueDofs with
  | none =>
    simp only [hlink] at h h' hsame
    have hk := hsame k rfl
    rw [← Outcome.sized_eq_ok_iff.1 h, ← Outcome.sized_eq_ok_iff.1 h',
      Vector.getElem?_toArray_get, Vector.getElem?_toArray_get] at hk
    exact Option.some.inj hk
  | some link =>
    simp only [hlink] at h h' hsame
    obtain ⟨t, ht, h⟩ := Outcome.bind_eq_ok_iff.1 h
    obtain ⟨t', ht', h'⟩ := Outcome.bind_eq_ok_iff.1 h'
    obtain rfl := Outcome.ok.inj h
    obtain rfl := Outcome.ok.inj h'
    refine link.get_restrictTransposeVec_congr fun i hi => ?_
    have hk := hsame i ⟨i.isLt, hi⟩
    rw [← Outcome.sized_eq_ok_iff.1 ht, ← Outcome.sized_eq_ok_iff.1 ht',
      Vector.getElem?_toArray_get, Vector.getElem?_toArray_get] at hk
    exact Option.some.inj hk

/-- Vectors of one length have local values both, or are refused for the same reason. -/
theorem AgreeExcept.localValues {ne : Nat} {listed : List Nat} {b b' : Array S}
    (h : AgreeExcept listed b b') (space : FluxSpace S ne) :
    (∃ v v', space.localValues b = .ok v ∧ space.localValues b' = .ok v') ∨
      ∃ why, space.localValues b = .fault why ∧ space.localValues b' = .fault why := by
  by_cases hsize : b.size = space.numTrue
  · obtain ⟨v, hv⟩ := Reduction.localValues_returns space hsize
    obtain ⟨v', hv'⟩ := Reduction.localValues_returns space (h.1.trans hsize)
    exact .inl ⟨v, v', hv, hv'⟩
  · right
    unfold FluxSpace.numTrue at hsize
    unfold FluxSpace.localValues
    cases hlink : space.trueDofs with
    | none =>
      rw [hlink] at hsize
      simp only [Outcome.sized, h.1, dif_neg hsize]
      exact ⟨_, rfl, rfl⟩
    | some link =>
      rw [hlink] at hsize
      simp only [Outcome.sized, h.1, dif_neg hsize, Outcome.fault_bind]
      exact ⟨_, rfl, rfl⟩

end Loads

namespace Reduction

variable {disc : Discretization S} {red : Reduction disc} {essential : List Nat} {b b' : Array S}
  {v v' : Vector S disc.flux.numLocal}

section Field

variable [Field S]

/-- **Right-hand sides** that agree except in listed places have the same load away from the
    marks. -/
theorem Marks.masked_loadOf (h : red.Marks essential) (hb : AgreeExcept essential b b')
    (hv : disc.flux.localValues b = .ok v) (hv' : disc.flux.localValues b' = .ok v') :
    masked red.essential (red.loadOf v').get = masked red.essential (red.loadOf v).get := by
  obtain ⟨seen, -, hchosen⟩ := FirstCopies.chosen_among disc.flux.gather
  funext k
  by_cases hk : red.essential.get k = true
  · simp [masked, hk]
  · simp only [masked, if_neg hk, loadOf, Vector.get_ofFn_eq]
    rw [h.first]
    cases hg : (FirstCopies.among disc.flux.gather).toLocal.get k with
    | none => rfl
    | some g =>
      obtain rfl := hchosen.toLocal_eq k g hg
      dsimp only [Signed.read]
      rw [FluxSpace.localValues_congr hv hv' fun t hread => hb.2 t fun ht => ?_]
      exact hk ((h.marked_iff t _ hread k rfl).2 ht)

variable [LinearOrder S]

/-- Reducing does not see listed places of the right-hand side. -/
theorem Marks.reduce_congr (h : red.Marks essential) (hbuilt : red.store.Built)
    (hcleared : red.coupling.Cleared red.essential)
    {batch : Vector S (disc.ne * (disc.m * disc.m))}
    (hinverse : red.store.inverse * elementMatrix batch red.essential = 1)
    (hb : AgreeExcept essential b b') (s s' : Schedule) (place : Place) {into into' : Array S}
    (hsize : into'.size = into.size) :
    red.reduce s' place b' into' = red.reduce s place b into := by
  have hlink : ∀ (link : TrueDofs S disc.trace.numLocal) y,
      link.prolongTranspose place y into' = link.prolongTranspose place y into := by
    intro link y
    simp only [TrueDofs.prolongTranspose, hsize]
  rcases hb.localValues disc.flux with ⟨v, v', hv, hv'⟩ | ⟨why, hv, hv'⟩
  · have hjump : red.coupling.jumpMatrix *ᵥ (red.store.inverse *ᵥ (red.loadOf v').get) =
        red.coupling.jumpMatrix *ᵥ (red.store.inverse *ᵥ (red.loadOf v).get) := by
      rw [← jump_solve_masked hcleared hinverse, h.masked_loadOf hb hv hv',
        jump_solve_masked hcleared hinverse]
    simp only [reduce, hsize, hv, hv', breakUpVec_eq, ElementStore.solveVec_eq hbuilt, jumpVec_eq,
      Vector.ofFn_get, hjump, hlink, Program.liftM_eq, Program.done_ok_bind]
  · simp only [reduce, hsize, hv, hv', Program.liftM_eq, Program.done_fault_bind]

/-- Nor does recovering. -/
theorem Marks.recover_congr (h : red.Marks essential) (hbuilt : red.store.Built)
    (hb : AgreeExcept essential b b') (s s' : Schedule) (place : Place) (solution into : Array S) :
    red.recover s' place b' solution into = red.recover s place b solution into := by
  rcases hb.localValues disc.flux with ⟨v, v', hv, hv'⟩ | ⟨why, hv, hv'⟩
  · have hresidual : ∀ correction, red.residual s' (red.loadOf v') correction =
        red.residual s (red.loadOf v) correction := by
      intro correction
      rw [residual_eq, residual_eq, masked_sub, masked_sub, h.masked_loadOf hb hv hv']
    have hput : ∀ x, red.putTogether s' x into = red.putTogether s x into := by
      intro x
      simp only [putTogether, putTogetherVec, Schedule.each_pure]
    simp only [recover, hv, hv', breakUpVec_eq, jumpTransposeVec_eq, hresidual, hput,
      ElementStore.solveVec_eq hbuilt, Program.liftM_eq, Program.done_ok_bind]
  · simp only [recover, hv, hv', Program.liftM_eq, Program.done_fault_bind]

end Field

end Reduction

/-! ## Two runs -/

namespace Session

section Runs

variable [Zero S] [One S] [Add S] [Sub S] [Mul S] [Div S] [Neg S] [BEq S] [LT S] [DecidableLT S]

/-- All ranks were prepared together with these face blocks, and then took these matrices. -/
def FilledTogether (session : Fin n → Session S) (essential : Fin n → List Nat)
    (faces : Fin n → FaceBlocks S)
    (batch : ∀ r, Vector S ((session r).disc.ne * ((session r).disc.m * (session r).disc.m)))
    (full : Fin n → Session S) : Prop :=
  ∃ (s s' : Fin n → Schedule) (ready : Fin n → Session S),
    Together (fun r : Fin n => ((session r).prepare (s r) ⟨r, n⟩ (faces r) (essential r)).rest)
      (fun r => (ready r, ())) ∧
    ∀ r, (ready r).assembleAll (s' r) (batch r).toArray = .ok (full r)

/-- What a finalization of all ranks says about each of them. -/
theorem of_finalize {full final : Fin n → Session S} {s : Fin n → Schedule}
    {summary : Fin n → Summary S}
    (h : Together (fun r : Fin n => ((full r).finalize (s r) ⟨r, n⟩).rest)
      fun r => (final r, summary r)) (r : Fin n) :
    ∃ (red : Reduction (full r).disc) (rows : Coupling.Assembled S (full r).disc.trace.numLocal)
      (matrix : InterfaceMatrix S), (full r).prepared = .ok red ∧
        red.coupling.assemble (s r) red.store = .ok rows ∧
        final r = { full r with matrix := some matrix } := by
  unfold finalize finalizeProgram at h
  obtain ⟨red, hred, h⟩ := Together.of_lift_bind h
  obtain ⟨_, -, h⟩ := Together.of_lift_bind h
  obtain ⟨rows, hrows, h⟩ := Together.of_lift_bind h
  obtain ⟨_, -, h⟩ := Together.of_lift_bind h
  simp only [Program.pure_eq] at h
  obtain ⟨matrix, -, h⟩ := Together.of_bind_ended h
  exact ⟨red r, rows r, matrix r, hred r, hrows r,
    (congrArg Prod.fst (Outcome.ok.inj (h r))).symm⟩

/-- All ranks finalize alike in every order of the work. -/
theorem finalize_in_order {full final : Fin n → Session S} {s : Fin n → Schedule}
    {summary : Fin n → Summary S}
    (h : Together (fun r : Fin n => ((full r).finalize (s r) ⟨r, n⟩).rest)
      fun r => (final r, summary r)) (s' : Fin n → Schedule) :
    Together (fun r : Fin n => ((full r).finalize (s' r) ⟨r, n⟩).rest)
      fun r => (final r, summary r) := by
  have hprogram : ∀ r, ((full r).finalize (s' r) ⟨r, n⟩).rest =
      ((full r).finalize (s r) ⟨r, n⟩).rest := by
    intro r
    obtain ⟨red, rows, -, hred, hrows, -⟩ := of_finalize h r
    simp only [finalize, finalizeProgram, hred, Program.liftM_eq, Program.done_ok_bind, hrows,
      Coupling.assemble_of_assemble hrows (s' r)]
  simp only [hprogram]
  exact h

end Runs

/-- Broken degree of freedom `l` of rank `r` is a copy of a prescribed one. -/
def EssentialCopy [Zero S] [BEq S] (session : Fin n → Session S) (essential : Fin n → List Nat)
    (r : Fin n) (l : Fin (session r).disc.numBroken) : Prop :=
  Prescribed (fun r => (session r).disc.flux) essential r ((session r).disc.flux.gather.get l).index

section Exact

variable [Field S] [LinearOrder S] {session full full' : Fin n → Session S}
  {essential : Fin n → List Nat} {faces faces' : Fin n → FaceBlocks S}
  {batch batch' :
    ∀ r, Vector S ((session r).disc.ne * ((session r).disc.m * (session r).disc.m))}

/-- What the ranks hold then: copies of prescribed degrees of freedom are marked, and the
    reductions were made from these marks. -/
theorem FilledTogether.full_eq (hflux : ∀ r, (session r).disc.flux.Conforming)
    (h : FilledTogether session essential faces batch full) :
    ∃ (marked : ∀ r, Vector Bool (session r).disc.numBroken)
      (red : ∀ r, Reduction (session r).disc),
      (∀ r l, (marked r).get l = true ↔ EssentialCopy session essential r l) ∧
      (∀ r, (red r).Marks (essential r)) ∧
      (∀ r, ∃ s, reductionFrom (session r).disc (session r).options s (faces r) (marked r) =
        .ok (red r)) ∧
      full = fun r => filled (session r).disc (session r).options (essential r) (red r)
        (batch r) := by
  obtain ⟨s, s', ready, hprepare, hassemble⟩ := h
  obtain ⟨marked, red, hclassified, hready⟩ := prepared_together signLaws hprepare
  refine ⟨marked, red, hclassified.marked_iff, fun r => ?_, fun r => ⟨s r, (hready r).2⟩, ?_⟩
  · exact marks_of_reductionFrom signLaws hclassified (hflux r).copying (hready r).2
  · funext r
    have hr := hassemble r
    rw [(hready r).1, assembleAll_prepared] at hr
    exact (Outcome.ok.inj hr).symm

/-- Runs that agree away from the essential copies hold the same. -/
theorem FilledTogether.full_congr
    (helim : ∀ r, (session r).options.eliminateEssentialCoupling = true)
    (hflux : ∀ r, (session r).disc.flux.Conforming)
    (h : FilledTogether session essential faces batch full)
    (h' : FilledTogether session essential faces' batch' full')
    (hfaces : ∀ r, (faces r).AgreeOn (session r).disc
      (fun l => ¬ EssentialCopy session essential r l) (faces' r))
    (hbatch : ∀ r, BatchesAgree (fun l => ¬ EssentialCopy session essential r l)
      (batch r) (batch' r)) : full' = full := by
  obtain ⟨marked, red, hmarks, -, hred, rfl⟩ := h.full_eq hflux
  obtain ⟨marked', red', hmarks', -, hred', rfl⟩ := h'.full_eq hflux
  obtain rfl : marked' = marked := by
    funext r
    refine Vector.ext_get fun l => Bool.eq_iff_iff.2 ?_
    exact (hmarks' r l).trans (hmarks r l).symm
  funext r
  obtain ⟨s, hred⟩ := hred r
  obtain ⟨s', hred'⟩ := hred' r
  obtain ⟨hessential, hcopies, hcoupling, -⟩ := of_reductionFrom hred
  obtain ⟨hessential', hcopies', hcoupling', -⟩ := of_reductionFrom hred'
  have hkeep : (fun l => ¬ EssentialCopy session essential r l) =
      fun l => (marked' r).get l = false := by
    funext l
    rw [← hmarks, Bool.not_eq_true]
  have hfaces := hfaces r
  have hbatch := hbatch r
  rw [hkeep] at hfaces hbatch
  rw [filled, filled, hessential, hessential', hcopies, hcopies',
    couplingFrom_congr (helim r) hfaces hcoupling hcoupling', ElementStore.ofBatch_congr hbatch]

/-- Ranks that were prepared together can take all matrices. -/
theorem exists_filledTogether {s : Fin n → Schedule} {ready : Fin n → Session S}
    (h : Together (fun r : Fin n => ((session r).prepare (s r) ⟨r, n⟩ (faces r)
      (essential r)).rest) fun r => (ready r, ()))
    (batch : ∀ r, Vector S ((session r).disc.ne * ((session r).disc.m * (session r).disc.m))) :
    ∃ full, FilledTogether session essential faces batch full := by
  obtain ⟨marked, red, -, hready⟩ := prepared_together signLaws h
  refine ⟨fun r => filled (session r).disc (session r).options (essential r) (red r) (batch r), s, s,
    ready, h, fun r => ?_⟩
  rw [(hready r).1]
  exact assembleAll_prepared _ _ _ _ _

variable [IsStrictOrderedRing S]

/-- **The result**: two runs on one discretization, with the elimination on, whose element matrices
    and face blocks agree away from the essential copies.  Whenever one finalizes, so does the
    other, and both end in the same session.  Right-hand sides that agree except in listed places
    are reduced alike there, and fluxes are recovered alike. -/
theorem essential_data_cut_off
    (helim : ∀ r, (session r).options.eliminateEssentialCoupling = true)
    (hflux : ∀ r, (session r).disc.flux.Conforming)
    (h : FilledTogether session essential faces batch full)
    (h' : FilledTogether session essential faces' batch' full')
    (hfaces : ∀ r, (faces r).AgreeOn (session r).disc
      (fun l => ¬ EssentialCopy session essential r l) (faces' r))
    (hbatch : ∀ r, BatchesAgree (fun l => ¬ EssentialCopy session essential r l)
      (batch r) (batch' r))
    (hdet : ∀ r marked, (∀ l, marked.get l = true ↔ EssentialCopy session essential r l) →
      ∀ e, (ElementStore.patched (batch r) marked e).det ≠ 0)
    {s : Fin n → Schedule} {final : Fin n → Session S} {summary : Fin n → Summary S}
    (hfinal : Together (fun r : Fin n => ((full r).finalize (s r) ⟨r, n⟩).rest)
      fun r => (final r, summary r)) :
    (∀ s' : Fin n → Schedule, Together (fun r : Fin n => ((full' r).finalize (s' r) ⟨r, n⟩).rest)
      fun r => (final r, summary r)) ∧
    ∀ r (b b' : Array S), AgreeExcept (essential r) b b' → ∀ s s' place,
      (∀ into into' : Array S, into'.size = into.size →
        (final r).reduce s' place b' into' = (final r).reduce s place b into) ∧
      ∀ solution into : Array S,
        (final r).recover s' place b' solution into = (final r).recover s place b solution into := by
  obtain rfl := h.full_congr helim hflux h' hfaces hbatch
  obtain ⟨marked, red, hiff, hmarks, hred, rfl⟩ := h.full_eq hflux
  refine ⟨finalize_in_order hfinal, fun r b b' hb s s' place => ?_⟩
  obtain ⟨-, -, matrix, -, -, hr⟩ := of_finalize hfinal r
  obtain ⟨s₀, hred⟩ := hred r
  obtain ⟨hessential, -, hcoupling, -⟩ := of_reductionFrom hred
  let held : Reduction (session r).disc :=
    { red r with store := ElementStore.ofBatch (batch r) (red r).essential }
  have hheld : held.Marks (essential r) :=
    ⟨(hmarks r).first, (hmarks r).inRange, (hmarks r).marked_iff⟩
  have hbuilt : held.store.Built := ElementStore.built_ofBatch _ _
  constructor
  · intro into into' hsize
    have hcleared : held.coupling.Cleared held.essential := by
      show (red r).coupling.Cleared (red r).essential
      rw [hessential]
      exact cleared_of_couplingFrom (helim r) hcoupling
    have hinverse : held.store.inverse * elementMatrix (batch r) held.essential = 1 := by
      refine (elementMatrix_inverses (hdet r _ fun l => ?_)).2
      rw [hessential]
      exact hiff r l
    rw [hr]
    exact hheld.reduce_congr hbuilt hcleared hinverse hb s s' place hsize
  · intro solution into
    rw [hr]
    exact hheld.recover_congr hbuilt hb s s' place solution into

end Exact

/-! ### An essential element -/

/-- The second element sees the face with another weight. -/
def heavyFaces : FaceBlocks Rat := ⟨#[1, 7], #[some (.plus 0)]⟩

/-- A session with two elements. -/
def pairSession (_ : Fin 1) : Session Rat := ⟨twoElements, {}, [], none, none⟩

theorem essentialCopy_second : ∀ i : Fin 1, EssentialCopy pairSession (fun _ => [1]) 0
    (Pairing.join (1 : Fin 2) i : Fin (2 * 1)) := by
  intro i
  refine (prescribed_none rfl _).2 ?_
  revert i
  decide

/-- The face blocks differ in a row that lands on the second element only. -/
theorem oppositeFaces_agreeOn (r : Fin 1) : oppositeFaces.AgreeOn (pairSession r).disc
    (fun l => ¬ EssentialCopy pairSession (fun _ => [1]) r l) heavyFaces := by
  have hsides : ∀ (f : Fin 1) (e i : Fin 2) (side : Fin 2),
      (twoElements.adjacency.faces.get f).sideOf ⟨e, i⟩ = some side → e = 1 ∨ side = 0 := by
    decide
  rintro ⟨_, _⟩ rows ⟨_, _⟩ rows' ⟨rfl, -⟩ ⟨rfl, -⟩ f ⟨e, i⟩ side hside p p' - hkeep j
  change Fin 1 at p p' j f r
  obtain rfl : r = 0 := Subsingleton.elim _ _
  rcases hsides f e i side hside with rfl | rfl
  · exact absurd (essentialCopy_second (rows.get p)) hkeep
  · obtain rfl : p = 0 := Subsingleton.elim _ _
    obtain rfl : p' = 0 := Subsingleton.elim _ _
    obtain rfl : j = 0 := Subsingleton.elim _ _
    obtain rfl : f = 0 := Subsingleton.elim _ _
    rfl

theorem pairSession_prepared (faces : FaceBlocks Rat) (h : faces = oppositeFaces ∨ faces = heavyFaces) :
    ∃ ready : Fin 1 → Session Rat, Together (fun r : Fin 1 =>
      ((pairSession r).prepare .inOrder ⟨r, 1⟩ faces [1]).rest) fun r => (ready r, ()) := by
  have hvalues : ∃ a, Together (fun r : Fin 1 =>
      ((pairSession r).prepare .inOrder ⟨r, 1⟩ faces [1]).rest) a := by
    rcases h with rfl | rfl
    · exact Together.exists_of_values (by decide +kernel) (by decide +kernel)
    · exact Together.exists_of_values (by decide +kernel) (by decide +kernel)
  obtain ⟨a, ha⟩ := hvalues
  exact ⟨fun r => (a r).1, ha⟩

/-- Two positive elements. -/
def pairMatrices (a : Rat) (_ : Fin 1) : Vector Rat (2 * (1 * 1)) := #v[2, a]

theorem pairMatrices_agree (a a' : Rat) (r : Fin 1) :
    BatchesAgree (fun l => ¬ EssentialCopy pairSession (fun _ => [1]) r l)
      (pairMatrices a r) (pairMatrices a' r) := by
  intro e i j hi _
  obtain rfl : r = 0 := Subsingleton.elim _ _
  change Fin 2 at e
  change Fin 1 at i j
  fin_cases e
  · obtain rfl : i = 0 := Subsingleton.elim _ _
    obtain rfl : j = 0 := Subsingleton.elim _ _
    rfl
  · exact absurd (essentialCopy_second i) hi

/-- Whatever is marked, the patched matrices are non-singular. -/
theorem pairMatrices_nonsingular {a : Rat} (ha : 0 < a) (r : Fin 1) (marked : Vector Bool (2 * 1))
    (e : Fin 2) : (ElementStore.patched (pairMatrices a r) marked e).det ≠ 0 := by
  have hpos : Positive (⟨Pairing.part (pairMatrices a r) e⟩ : Dense Rat 1 1).toMatrix := by
    fin_cases e
    · exact Positive.of_one (show (0 : Rat) < 2 by norm_num)
    · exact Positive.of_one ha
  exact (hpos.patch (Pairing.part marked e)).det_ne_zero

theorem pairSession_conforming (r : Fin 1) : (pairSession r).disc.flux.Conforming :=
  fun link hlink => absurd hlink (by simp [pairSession, twoElements])

/-- Once the matrices are there, the session is finalized. -/
theorem pairSession_finalizes {faces : FaceBlocks Rat} {a : Rat} {full : Fin 1 → Session Rat}
    (h : FilledTogether pairSession (fun _ => [1]) (fun _ => faces) (pairMatrices a) full) :
    ∃ (final : Fin 1 → Session Rat) (summary : Fin 1 → Summary Rat),
      Together (fun r : Fin 1 => ((full r).finalize .inOrder ⟨r, 1⟩).rest)
        fun r => (final r, summary r) := by
  obtain ⟨marked, red, -, -, -, rfl⟩ := h.full_eq pairSession_conforming
  have hended : ∀ r : Fin 1, ∃ final summary, ((filled twoElements {} [1] (red r)
      (pairMatrices a r)).finalize .inOrder ⟨r, 1⟩).rest = .done (.ok (final, summary)) := by
    intro r
    obtain ⟨rows, hrows⟩ := Coupling.assemble_returns room_twoElements (by decide)
      (red r).coupling .inOrder (ElementStore.built_ofBatch (pairMatrices a r) (red r).essential)
    exact ⟨_, _, (finalize_eq_done_iff rfl).2 ⟨rows, hrows, rfl, rfl⟩⟩
  choose final summary hfinal using hended
  refine ⟨final, summary, ?_⟩
  show Together (fun r : Fin 1 => ((filled twoElements {} [1] (red r)
    (pairMatrices a r)).finalize .inOrder ⟨r, 1⟩).rest) _
  simp only [hfinal]
  exact Together.done _

theorem loads_agreeExcept (a b b' : Rat) : AgreeExcept [1] (#[a, b] : Array Rat) #[a, b'] := by
  refine ⟨rfl, fun t ht => ?_⟩
  match t, ht with
  | 0, _ => rfl
  | 1, ht => exact absurd (List.mem_singleton_self 1) ht
  | t + 2, _ => rfl

/-- So it is for two elements of which the second is essential: neither its matrix nor its face
    block nor its load matters. -/
theorem essential_data_twoElements :
    ∃ (full full' final : Fin 1 → Session Rat) (summary : Fin 1 → Summary Rat),
      FilledTogether pairSession (fun _ => [1]) (fun _ => oppositeFaces) (pairMatrices 3) full ∧
      FilledTogether pairSession (fun _ => [1]) (fun _ => heavyFaces) (pairMatrices 5) full' ∧
      Together (fun r : Fin 1 => ((full' r).finalize .inOrder ⟨r, 1⟩).rest)
        (fun r => (final r, summary r)) ∧
      ∀ place, (final 0).reduce .inOrder place #[5, 9] #[0, 0] =
        (final 0).reduce .inOrder place #[5, 7] #[0, 0] := by
  obtain ⟨ready, hready⟩ := pairSession_prepared oppositeFaces (.inl rfl)
  obtain ⟨ready', hready'⟩ := pairSession_prepared heavyFaces (.inr rfl)
  obtain ⟨full, hfull⟩ := exists_filledTogether hready (pairMatrices 3)
  obtain ⟨full', hfull'⟩ := exists_filledTogether hready' (pairMatrices 5)
  obtain ⟨final, summary, hfinal⟩ := pairSession_finalizes hfull
  obtain ⟨hsame, hsolve⟩ := essential_data_cut_off (fun _ => rfl) pairSession_conforming hfull
    hfull' oppositeFaces_agreeOn (pairMatrices_agree 3 5)
    (fun r marked _ e => pairMatrices_nonsingular (by norm_num) r marked e) hfinal
  exact ⟨full, full', final, summary, hfull, hfull', hsame fun _ => .inOrder, fun place =>
    (hsolve 0 _ _ (loads_agreeExcept 5 7 9) .inOrder .inOrder place).1 #[0, 0] #[0, 0] rfl⟩

end Session

end Condensation
