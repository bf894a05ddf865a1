/-
  Empty copies — what rows of the identity do where interface unknowns are shared.

  A row of the local matrix that receives nothing becomes a row of the identity before the copies of
  a true degree of freedom are added up.  Where another copy is coupled, the true row is not empty,
  and the ones of the empty copies are added to it.

  1. **Local rows (`entry_assemble`)** — the assembled matrix is `C A⁻¹ Cᵀ`, with a one on the
     diagonal of every empty row.

  2. **Copies (`congruent_patch`)** — for conforming links the ones of all copies of a true degree
     of freedom meet on its diagonal entry, whatever their orientations are.

  3. **Finalizing (`finalize_of_assembled`, `assembled_of_finalize`)** — all ranks finalize together
     exactly when each of them assembles its local matrix.

  4. **The result (`distributed_rows`)** — every entry of the distributed matrix is that of the sum
     of `Pᵀ C A⁻¹ Cᵀ P` over all ranks, plus, on the diagonal, the number of the empty copies.  So a
     row is that of the sum exactly when no rank has an empty copy of it.
-/
import Condensation.Proofs.CondensedSession
import Condensation.Proofs.CongruenceSum
import Condensation.Proofs.ConformingLinks
import Condensation.Proofs.MirroredEntries

namespace Condensation

variable {S : Type} {n : Nat}

open Matrix

/-! ## Local rows -/

namespace Coupling

variable {disc : Discretization S} [Field S] [LinearOrder S]

/-- An entry of what is assembled, in the two kinds of rows. -/
theorem entry_row {c : Coupling disc} {s : Schedule} {store : ElementStore S disc.ne disc.m}
    (hbuilt : store.Built) {rows : Assembled S disc.trace.numLocal}
    (h : c.assemble s store = .ok rows) (i j : Fin disc.trace.numLocal) :
    (i ∉ rows.emptyRows → rows.matrix.entry i j = c.schur store i j) ∧
      (i ∈ rows.emptyRows → rows.matrix.entry i j = (if i = j then 1 else 0) ∧
        c.schur store i j = 0) := by
  let unit : Vector S disc.trace.numLocal := .ofFn (Pi.single j 1)
  have hunit : unit.get = Pi.single j 1 := Vector.ofFn_get _
  have hentry : (rows.matrix.mulVec unit).get i = rows.matrix.entry i j := by
    rw [Csr.get_mulVec, hunit]
    simp [Pi.single_apply]
  have hschur : (c.schur store *ᵥ unit.get) i = c.schur store i j := by
    rw [hunit, Matrix.mulVec_single_one]
    rfl
  have hrow := mulVec_row hbuilt h unit i
  rwa [hentry, hschur, hunit, Pi.single_apply] at hrow

/-- **Local rows**: what is assembled is `C A⁻¹ Cᵀ`, but for ones on empty diagonals. -/
theorem entry_assemble {c : Coupling disc} {s : Schedule} {store : ElementStore S disc.ne disc.m}
    (hbuilt : store.Built) {rows : Assembled S disc.trace.numLocal}
    (h : c.assemble s store = .ok rows) (i j : Fin disc.trace.numLocal) :
    rows.matrix.entry i j = c.schur store i j + if i = j ∧ i ∈ rows.emptyRows then 1 else 0 := by
  obtain ⟨hcoupled, hempty⟩ := entry_row hbuilt h i j
  by_cases hi : i ∈ rows.emptyRows
  · obtain ⟨hone, hzero⟩ := hempty hi
    rw [hone, hzero, zero_add]
    simp [hi]
  · rw [hcoupled hi]
    simp [hi]

/-- No row is listed twice as empty. -/
theorem nodup_emptyRows {c : Coupling disc} {s : Schedule} {store : ElementStore S disc.ne disc.m}
    (hbuilt : store.Built) {rows : Assembled S disc.trace.numLocal}
    (h : c.assemble s store = .ok rows) : rows.emptyRows.Nodup := by
  obtain ⟨-, graph, -, -, hempty, -⟩ := assemble_spec hbuilt h
  rw [hempty]
  exact (List.nodup_finRange _).filter _

end Coupling

/-! ## Copies -/

/-- Local degree of freedom `k` is a copy of the true one with number `t`. -/
def isCopy (table : Array GatherEntry) (t k : Nat) : Bool :=
  (table.getD k none).map Signed.index == some t

/-- How many of some local degrees of freedom copy the true one with number `t`. -/
def copiesAmong (table : Array GatherEntry) {l : Nat} (rows : List (Fin l)) (t : Nat) : Nat :=
  rows.countP fun k : Fin l => isCopy table t k

/-- Counting in a list without repetitions is summing over all indices. -/
theorem sum_countP [NonAssocSemiring S] {l : Nat} {rows : List (Fin l)} (hrows : rows.Nodup)
    (p : Fin l → Bool) :
    ∑ i, (if i ∈ rows ∧ p i = true then (1 : S) else 0) = rows.countP p := by
  induction rows with
  | nil => simp
  | cons k rest ih =>
    obtain ⟨hk, hrest⟩ := List.nodup_cons.1 hrows
    have split : ∀ i, (if i ∈ k :: rest ∧ p i = true then (1 : S) else 0) =
        (if i = k then (if p k = true then 1 else 0) else 0) +
          if i ∈ rest ∧ p i = true then 1 else 0 := by
      intro i
      by_cases hi : i = k
      · subst hi
        simp [hk]
      · simp [hi]
    rw [Finset.sum_congr rfl fun i _ => split i, Finset.sum_add_distrib, ih hrest, List.countP_cons]
    by_cases hp : p k = true
    · simp [hp, add_comm]
    · simp [hp]

namespace TrueDofs

variable {l : Nat} [Field S]

theorem congruent_add (link : TrueDofs S l) {H M N : Fin l → Fin l → S}
    (h : ∀ i j, H i j = M i j + N i j) (a b : Nat) :
    link.congruent H a b = link.congruent M a b + link.congruent N a b := by
  simp only [congruent, h, mul_add, add_mul, Finset.sum_add_distrib]

/-- The orientation is met twice, so it does not matter. -/
theorem Conforms.mul_valueAt {link : TrueDofs S l} {table : Array GatherEntry}
    {owned offset global : Nat} (hlink : link.Conforms table owned offset global) (k : Fin l)
    (a b : Nat) : link.prolongation.valueAt k a * link.prolongation.valueAt k b =
      if a = b then (if isCopy table a k = true then 1 else 0) else 0 := by
  obtain ⟨g, hg, hvalue⟩ := hlink.copies k
  have hsquare : (g.orientation.factor : S) * g.orientation.factor = 1 := by
    cases g.orientation with
    | plus => exact one_mul 1
    | minus => simp [Orientation.factor]
  have hcopy : isCopy table a k = true ↔ g.index = a := by simp [isCopy, hg]
  rw [hvalue, hvalue, if_congr hcopy rfl rfl]
  by_cases hga : g.index = a
  · subst hga
    by_cases hab : g.index = b
    · simp [hab, hsquare]
    · simp [hab]
  · simp [hga]

/-- **Copies**: ones on the diagonal, seen from the true degrees of freedom. -/
theorem congruent_patch {link : TrueDofs S l} {table : Array GatherEntry}
    {owned offset global : Nat} (hlink : link.Conforms table owned offset global)
    {rows : List (Fin l)} (hrows : rows.Nodup)
    (a b : Nat) :
    link.congruent (fun i j => if i = j ∧ i ∈ rows then 1 else 0) a b =
      if a = b then (copiesAmong table rows a : S) else 0 := by
  have hdiagonal : ∀ i, ∑ j, link.prolongation.valueAt i a * (if i = j ∧ i ∈ rows then 1 else 0) *
      link.prolongation.valueAt j b =
        if a = b then (if i ∈ rows ∧ isCopy table a i = true then 1 else 0) else 0 := by
    intro i
    rw [Finset.sum_eq_single i]
    · by_cases hi : i ∈ rows
      · have hmul := hlink.mul_valueAt i a b
        simpa [hi] using hmul
      · simp [hi]
    · intro j _ hj
      simp [Ne.symm hj]
    · simp
  rw [congruent, Finset.sum_congr rfl fun i _ => hdiagonal i]
  by_cases hab : a = b
  · subst hab
    simp only [if_true]
    exact sum_countP hrows fun k => isCopy table a k
  · simp [hab]

end TrueDofs

/-! ## Finalizing on all ranks -/

/-- `C A⁻¹ Cᵀ` of one rank, for patched element matrices. -/
noncomputable def Reduction.condensed {disc : Discretization S} [Field S] (red : Reduction disc)
    (batch : Vector S (disc.ne * (disc.m * disc.m))) :
    Matrix (Fin disc.trace.numLocal) (Fin disc.trace.numLocal) S :=
  red.coupling.jumpMatrix * (elementMatrix batch red.essential)⁻¹ * red.coupling.jumpMatrixᵀ

/-- For non-singular patched matrices it is what the factors of the elements give. -/
theorem Coupling.schur_ofBatch {disc : Discretization S} [Field S] [LinearOrder S]
    [IsStrictOrderedRing S] {red : Reduction disc} {batch : Vector S (disc.ne * (disc.m * disc.m))}
    (hdet : ∀ e, (ElementStore.patched batch red.essential e).det ≠ 0) :
    red.coupling.schur (ElementStore.ofBatch batch red.essential) = red.condensed batch := by
  obtain ⟨hright, -⟩ := elementMatrix_inverses hdet
  rw [schur, Reduction.condensed, Matrix.inv_eq_right_inv hright]

section Symmetry

variable [Zero S] [One S] [Add S] [Sub S] [Mul S] [Neg S] [LT S] [DecidableLT S]

theorem Session.remarkOnSymmetry_returns (options : Options S) {l : Nat} (H : Csr S l l) :
    ∃ remarks, remarkOnSymmetry options H = .ok remarks := by
  unfold remarkOnSymmetry
  cases options.symmetryTolerance with
  | none => exact ⟨[], rfl⟩
  | some tol =>
    obtain ⟨found, hfound⟩ : ∃ found, H.asymmetry? tol = .ok found := ⟨_, H.asymmetry?_eq tol⟩
    exact ⟨(found.map Remark.asymmetric).toList, by simp only [hfound]; rfl⟩

end Symmetry

namespace Session

section Finalizing

variable [Field S] [LinearOrder S]

theorem checkComplete_ofBatch {disc : Discretization S} (options : Options S) (red : Reduction disc)
    (batch : Vector S (disc.ne * (disc.m * disc.m))) :
    checkComplete options { red with store := ElementStore.ofBatch batch red.essential } =
      .ok () := by
  simp only [checkComplete, missing_ofBatch]
  rfl

variable {disc : Fin n → Discretization S} {options : Fin n → Options S}
  {essential : Fin n → List Nat} {red : ∀ r, Reduction (disc r)}
  {batch : ∀ r, Vector S ((disc r).ne * ((disc r).m * (disc r).m))} {s : Fin n → Schedule}

/-- Where all ranks finalize, all of them have assembled a matrix of their own. -/
theorem assembled_of_finalize {final : Fin n → Session S} {summary : Fin n → Summary S}
    (h : Together (fun r : Fin n => ((filled (disc r) (options r) (essential r) (red r)
      (batch r)).finalize (s r) ⟨r, n⟩).rest) fun r => (final r, summary r)) :
    ∃ rows : ∀ r, Coupling.Assembled S (disc r).trace.numLocal, ∀ r,
      (red r).coupling.assemble (s r) (ElementStore.ofBatch (batch r) (red r).essential) =
        .ok (rows r) := by
  unfold finalize finalizeProgram at h
  obtain ⟨full, hfull, h⟩ := Together.of_lift_bind h
  obtain ⟨-, -, h⟩ := Together.of_lift_bind h
  obtain ⟨rows, hrows, -⟩ := Together.of_lift_bind h
  refine ⟨rows, fun r => ?_⟩
  have hred : { red r with store := ElementStore.ofBatch (batch r) (red r).essential } = full r :=
    Outcome.ok.inj (hfull r)
  have hassembled := hrows r
  rw [← hred] at hassembled
  exact hassembled

/-- All ranks finalize once all of them have. -/
theorem finalize_of_assembled {link : ∀ r, TrueDofs S (disc r).trace.numLocal}
    (hlink : ∀ r, (disc r).trace.trueDofs = some (link r)) (tiled : TrueDofs.Tiled link)
    {rows : ∀ r, Coupling.Assembled S (disc r).trace.numLocal}
    (hrows : ∀ r, (red r).coupling.assemble (s r)
      (ElementStore.ofBatch (batch r) (red r).essential) = .ok (rows r)) :
    ∃ (block : ∀ r, Csr S (link r).numOwned (link r).numGlobal) (summary : Fin n → Summary S),
      (∀ r i j, (block r).entry i j =
        ∑ p, (link p).congruent (rows p).matrix.entry ((link r).offset + i.val) j.val) ∧
      (∀ r, (summary r).emptyRows = (rows r).emptyRows.length) ∧
      Together (fun r : Fin n => ((filled (disc r) (options r) (essential r) (red r)
        (batch r)).finalize (s r) ⟨r, n⟩).rest) fun r =>
          ({ filled (disc r) (options r) (essential r) (red r) (batch r) with
            matrix := some (.distributed ((link r).ownedRows (block r))) }, summary r) := by
  obtain ⟨block, hentry, hthen⟩ := TrueDofs.congruence_then tiled fun r => (rows r).matrix
  choose remarks hremarks using fun r => remarkOnSymmetry_returns (options r) (rows r).matrix
  refine ⟨block, fun r =>
    { interfaceRows := (disc r).trace.numLocal
      stored := (block r).stored
      emptyRows := (rows r).emptyRows.length
      faceConnections := (rows r).faceConnections
      distributed := (disc r).trace.trueDofs.isSome
      remarks := remarkOnRows (rows r).emptyRows ++ remarks r }, hentry, fun r => rfl, ?_⟩
  simp only [finalize, finalizeProgram, filled, prepared, Outcome.orFault, Program.liftM_eq,
    Program.done_ok_bind, checkComplete_ofBatch, hrows, hremarks, finish, hlink,
    Program.bind_assoc]
  refine hthen ?_
  simp only [Program.pure_eq, Program.done_ok_bind]
  exact Together.done _

end Finalizing

/-! ## The result -/

section Result

variable [Field S]

/-- Row `a`, column `b` of the sum of `Pᵀ C A⁻¹ Cᵀ P` over all ranks. -/
noncomputable def condensedSum {disc : Fin n → Discretization S}
    (link : ∀ r, TrueDofs S (disc r).trace.numLocal) (red : ∀ r, Reduction (disc r))
    (batch : ∀ r, Vector S ((disc r).ne * ((disc r).m * (disc r).m))) (a b : Nat) : S :=
  ∑ r, (link r).congruent ((red r).condensed (batch r)) a b

/-- How many copies of the true degree of freedom `t` are empty, on all ranks together. -/
def emptyCopies {L : Fin n → Nat} (table : Fin n → Array GatherEntry)
    (emptyRows : ∀ r, List (Fin (L r))) (t : Nat) : Nat :=
  ∑ r, copiesAmong (table r) (emptyRows r) t

theorem emptyCopies_eq_zero_iff {L : Fin n → Nat} {table : Fin n → Array GatherEntry}
    {emptyRows : ∀ r, List (Fin (L r))} {t : Nat} :
    emptyCopies table emptyRows t = 0 ↔
      ∀ r, ∀ k ∈ emptyRows r, isCopy (table r) t k = false := by
  simp [emptyCopies, copiesAmong, List.countP_eq_zero]

/-- The sum over all ranks, but for the ones of empty copies: the rows `A` of all ranks, where
    `emptyRows` are the local rows that were patched. -/
structure PatchedSum {disc : Fin n → Discretization S}
    (link : ∀ r, TrueDofs S (disc r).trace.numLocal) (table : Fin n → Array GatherEntry)
    (red : ∀ r, Reduction (disc r))
    (batch : ∀ r, Vector S ((disc r).ne * ((disc r).m * (disc r).m)))
    (emptyRows : ∀ r, List (Fin (disc r).trace.numLocal)) (A : Fin n → RowBlock S) : Prop where
  /-- Patched rows are zero in the sum. -/
  empty_row : ∀ p, ∀ k ∈ emptyRows p, ∀ j, (red p).condensed (batch p) k j = 0
  /-- The ones of empty copies are added to the diagonal. -/
  entry_eq : ∀ r i b, (A r).block.entry i b =
    condensedSum link red batch ((A r).offset + i) b +
      if (A r).offset + i.val = b.val then
        (emptyCopies table emptyRows ((A r).offset + i) : S) else 0
  /-- So a row is that of the sum just where there are none. -/
  row_eq_iff : ∀ r i, (∀ b, (A r).block.entry i b =
      condensedSum link red batch ((A r).offset + i) b) ↔
    ∀ p, ∀ k ∈ emptyRows p, isCopy (table p) ((A r).offset + i) k = false

variable {disc : Fin n → Discretization S} {link : ∀ r, TrueDofs S (disc r).trace.numLocal}
  {table : Fin n → Array GatherEntry} {owned offset : Fin n → Nat} {g : Nat}

theorem tiled_of_conforms
    (hconforms : ∀ r, (link r).Conforms (table r) (owned r) (offset r) g)
    (hoffset : ∀ r, offset r = (tiling owned).start r) (hcover : (tiling owned).globalSize = g)
    (hranks : 2 * n < Size.limit) : TrueDofs.Tiled link := by
  have howned : (fun r => (link r).numOwned) = owned := funext fun r => (hconforms r).owned_eq
  unfold TrueDofs.Tiled
  rw [howned]
  refine ⟨fun r => ?_, fun r => ?_, ?_, hranks⟩
  · rw [(hconforms r).offset_eq, hoffset]
  · rw [(hconforms r).global_eq, hcover]
  · exact TrueDofs.globalSize_lt_limit hoffset fun r => (hconforms r).small

variable [LinearOrder S] [IsStrictOrderedRing S] {red : ∀ r, Reduction (disc r)}
  {batch : ∀ r, Vector S ((disc r).ne * ((disc r).m * (disc r).m))} {s : Fin n → Schedule}

/-- The rows that all ranks build from their patched matrices. -/
theorem patchedSum_of_entries
    (hconforms : ∀ r, (link r).Conforms (table r) (owned r) (offset r) g)
    (hdet : ∀ r e, (ElementStore.patched (batch r) (red r).essential e).det ≠ 0)
    {rows : ∀ r, Coupling.Assembled S (disc r).trace.numLocal}
    (hrows : ∀ r, (red r).coupling.assemble (s r)
      (ElementStore.ofBatch (batch r) (red r).essential) = .ok (rows r))
    {A : Fin n → RowBlock S}
    (hentry : ∀ r i b, (A r).block.entry i b =
      ∑ p, (link p).congruent (rows p).matrix.entry ((A r).offset + i) b) :
    PatchedSum link table red batch (fun r => (rows r).emptyRows) A := by
  have hbuilt := fun r => ElementStore.built_ofBatch (batch r) (red r).essential
  have hlocal : ∀ p i j, (rows p).matrix.entry i j = (red p).condensed (batch p) i j +
      if i = j ∧ i ∈ (rows p).emptyRows then 1 else 0 := by
    intro p i j
    rw [Coupling.entry_assemble (hbuilt p) (hrows p), Coupling.schur_ofBatch (hdet p)]
  have hsum : ∀ r i b, (A r).block.entry i b =
      condensedSum link red batch ((A r).offset + i) b + if (A r).offset + i.val = b.val then
        (emptyCopies table (fun p => (rows p).emptyRows) ((A r).offset + i) : S) else 0 := by
    intro r i b
    have hrank : ∀ p, (link p).congruent (rows p).matrix.entry ((A r).offset + i) b =
        (link p).congruent ((red p).condensed (batch p)) ((A r).offset + i) b +
          if (A r).offset + i.val = b.val then
            (copiesAmong (table p) (rows p).emptyRows ((A r).offset + i) : S) else 0 := by
      intro p
      rw [(link p).congruent_add (hlocal p), TrueDofs.congruent_patch (hconforms p)
        (Coupling.nodup_emptyRows (hbuilt p) (hrows p))]
    rw [hentry, Finset.sum_congr rfl fun p _ => hrank p, Finset.sum_add_distrib]
    refine congrArg (condensedSum link red batch ((A r).offset + i) b + ·) ?_
    by_cases hb : (A r).offset + i.val = b.val
    · simp [hb, emptyCopies]
    · simp [hb]
  refine ⟨fun p k hk j => ?_, hsum, fun r i => ?_⟩
  · rw [← Coupling.schur_ofBatch (hdet p)]
    exact ((Coupling.entry_row (hbuilt p) (hrows p) k j).2 hk).2
  · rw [← emptyCopies_eq_zero_iff]
    constructor
    · intro hrow
      -- the diagonal entry tells how many there are
      have hdiagonal := hrow ⟨(A r).offset + i, by have := (A r).fits; omega⟩
      rw [hsum, if_pos rfl] at hdiagonal
      exact_mod_cast left_eq_add.1 hdiagonal.symm
    · intro hnone b
      rw [hsum, hnone]
      simp

/-- **The result**: sessions on any number of ranks, whose interface degrees of freedom copy true
    ones that the ranks own in ranges one after another, get non-singular element matrices and
    finalize together.  Their rows are those of the sum of `Pᵀ C A⁻¹ Cᵀ P` over all ranks, plus a
    one on the diagonal for every empty copy. -/
theorem distributed_rows
    (hlink : ∀ r, (disc r).trace.trueDofs = some (link r))
    (hmade : ∀ r, (link r).MadeConforming (table r) (owned r) (offset r) g)
    (hoffset : ∀ r, offset r = (tiling owned).start r) (hcover : (tiling owned).globalSize = g)
    (hranks : 2 * n < Size.limit)
    (hdet : ∀ r e, (ElementStore.patched (batch r) (red r).essential e).det ≠ 0)
    (options : Fin n → Options S) (essential : Fin n → List Nat) (s : Fin n → Schedule) :
    (∀ r, (⟨disc r, options r, essential r, some (red r), none⟩ : Session S).assembleAll (s r)
      (batch r).toArray = .ok (filled (disc r) (options r) (essential r) (red r) (batch r))) ∧
    ((∀ r, (disc r).mesh.validate = .ok () ∧ Coupling.RoomForLinks (disc r)) →
      ∃ (final : Fin n → Session S) (summary : Fin n → Summary S),
        Together (fun r : Fin n => ((filled (disc r) (options r) (essential r)
          (red r) (batch r)).finalize (s r) ⟨r, n⟩).rest) fun r => (final r, summary r)) ∧
    ∀ (final : Fin n → Session S) (summary : Fin n → Summary S),
      Together (fun r : Fin n => ((filled (disc r) (options r) (essential r)
        (red r) (batch r)).finalize (s r) ⟨r, n⟩).rest) (fun r => (final r, summary r)) →
      ∃ (rows : ∀ r, Coupling.Assembled S (disc r).trace.numLocal) (A : Fin n → RowBlock S),
        (∀ r, (red r).coupling.assemble (s r)
          (ElementStore.ofBatch (batch r) (red r).essential) = .ok (rows r)) ∧
        (∀ r, (summary r).emptyRows = (rows r).emptyRows.length) ∧
        (∀ r, (final r).matrix = some (.distributed (A r))) ∧
        (∀ r, (A r).rows = owned r ∧ (A r).offset = offset r ∧ (A r).globalSize = g) ∧
        PatchedSum link table red batch (fun r => (rows r).emptyRows) A := by
  have hconforms := fun r => (hmade r).conforms
  have tiled := tiled_of_conforms hconforms hoffset hcover hranks
  refine ⟨fun r => assembleAll_prepared (options r) (essential r) (red r) (s r) (batch r), ?_, ?_⟩
  · intro hready
    have hassembled : ∀ r, ∃ rows, (red r).coupling.assemble (s r)
        (ElementStore.ofBatch (batch r) (red r).essential) = .ok rows := by
      intro r
      obtain ⟨hvalid, hroom⟩ := hready r
      exact Coupling.assemble_returns hroom (Mesh.facesPerElement_pos hvalid) (red r).coupling (s r)
        (ElementStore.built_ofBatch (batch r) (red r).essential)
    choose rows hrows using hassembled
    obtain ⟨block, summary, -, -, htogether⟩ := finalize_of_assembled hlink tiled hrows
    exact ⟨_, summary, htogether⟩
  · intro final summary h
    obtain ⟨rows, hrows⟩ := assembled_of_finalize h
    obtain ⟨block, summary', hentry, hempty, htogether⟩ := finalize_of_assembled hlink tiled hrows
    have hsame := Together.unique h htogether
    refine ⟨rows, fun r => (link r).ownedRows (block r), hrows, fun r => ?_, fun r => ?_,
      fun r => ?_, ?_⟩
    · have hr := congrFun hsame r
      rw [← hempty, (Prod.mk.inj hr).2]
    · have hr := congrFun hsame r
      rw [(Prod.mk.inj hr).1]
    · exact ⟨(hconforms r).owned_eq, (hconforms r).offset_eq, (hconforms r).global_eq⟩
    · exact patchedSum_of_entries hconforms hdet hrows hentry

end Result

/-! ### A coupled copy and an empty one -/

/-- Both ranks have one copy of the only true degree of freedom. -/
def oneCopy : Array GatherEntry := #[some (.plus 0)]

/-- Rank 0 owns it. -/
def ownedOne (r : Fin 2) : Nat := 1 - r

theorem oneCopy_conforms : ∀ r : Fin 2,
    (TrueDofs.conforming (S := Rat) oneCopy (ownedOne r) r 1).hasValue = true := by
  decide +kernel

/-- The links of the two ranks. -/
def copyLink (r : Fin 2) : TrueDofs Rat 1 :=
  (TrueDofs.conforming oneCopy (ownedOne r) r 1).value (oneCopy_conforms r)

/-- Two elements on each rank, that meet in the face of the copy. -/
def facesOnRanks (r : Fin 2) : Discretization Rat :=
  { twoElements with
    trace := ⟨1, 1, .replicate _ ⟨0, Nat.zero_lt_one⟩, some (copyLink r), Nat.zero_lt_one⟩ }

/-- On rank 0 the elements see the face with opposite signs; on rank 1 all is essential. -/
def oneConstrained (r : Fin 2) : Reduction (facesOnRanks r) where
  essential := .replicate _ (r.val = 1)
  copies := .among (facesOnRanks r).flux.gather
  coupling := ⟨.ofFn fun k => .ofFn fun _ _ =>
    if r.val = 1 then 0 else if k.val = 1 then 1 else if k.val = 2 then -1 else 0⟩
  store := .ofBatch (.replicate _ 1) (.replicate _ (r.val = 1))

/-- The local matrices. -/
def rowsOnRanks (r : Fin 2) : Outcome (Coupling.Assembled Rat 1) :=
  (oneConstrained r).coupling.assemble .inOrder
    (ElementStore.ofBatch #v[1, 1] (oneConstrained r).essential)

theorem rowsOnRanks_return : ∀ r, (rowsOnRanks r).hasValue = true := by decide +kernel

theorem rowsOnRanks_entries :
    ((rowsOnRanks 0).value (rowsOnRanks_return 0)).emptyRows = [] ∧
      ((rowsOnRanks 0).value (rowsOnRanks_return 0)).matrix.entry 0 0 = 2 ∧
      ((rowsOnRanks 1).value (rowsOnRanks_return 1)).emptyRows = [0] := by decide +kernel

theorem ones_nonsingular (r : Fin 2) (e : Fin (facesOnRanks r).ne) :
    (ElementStore.patched
      (#v[1, 1] : Vector Rat ((facesOnRanks r).ne * ((facesOnRanks r).m * (facesOnRanks r).m)))
      (oneConstrained r).essential e).det ≠ 0 := by
  have hpos : Positive (⟨Pairing.part
      (#v[1, 1] : Vector Rat ((facesOnRanks r).ne * ((facesOnRanks r).m * (facesOnRanks r).m))) e⟩ :
        Dense Rat (facesOnRanks r).m (facesOnRanks r).m).toMatrix := by
    change Fin 2 at e
    fin_cases e
    · exact Positive.of_one (show (0 : Rat) < 1 by norm_num)
    · exact Positive.of_one (show (0 : Rat) < 1 by norm_num)
  exact (hpos.patch (Pairing.part (oneConstrained r).essential e)).det_ne_zero

/-- Only rank 0 adds to the sum. -/
theorem condensedSum_oneConstrained :
    condensedSum copyLink oneConstrained (fun _ => #v[1, 1]) 0 0 = 2 := by
  have hcopy : ∀ r, (copyLink r).prolongation.valueAt 0 0 = 1 := by
    intro r
    have hconforms : (copyLink r).Conforms oneCopy (ownedOne r) r 1 :=
      TrueDofs.conforms_of_conforming (Outcome.eq_ok_value (oneCopy_conforms r))
    obtain ⟨g, hg, hvalue⟩ := hconforms.copies 0
    obtain rfl : g = .plus 0 := (Option.some.inj hg).symm
    exact hvalue 0
  have hrow : ∀ r, _ := fun r =>
    Coupling.entry_row (ElementStore.built_ofBatch _ (oneConstrained r).essential)
      (Outcome.eq_ok_value (rowsOnRanks_return r)) (0 : Fin 1) (0 : Fin 1)
  simp only [Coupling.schur_ofBatch (ones_nonsingular _)] at hrow
  obtain ⟨hnone, hdiagonal, hempty⟩ := rowsOnRanks_entries
  have hcoupled : (oneConstrained 0).condensed #v[1, 1] (0 : Fin 1) (0 : Fin 1) = 2 := by
    refine ((hrow 0).1 ?_).symm.trans hdiagonal
    rw [hnone]
    exact List.not_mem_nil
  have hconstrained : (oneConstrained 1).condensed #v[1, 1] (0 : Fin 1) (0 : Fin 1) = 0 := by
    refine ((hrow 1).2 ?_).2
    rw [hempty]
    exact List.mem_singleton_self _
  show ∑ r : Fin 2, ∑ i : Fin 1, ∑ j : Fin 1, (copyLink r).prolongation.valueAt i 0 *
    (oneConstrained r).condensed #v[1, 1] i j * (copyLink r).prolongation.valueAt j 0 = 2
  simp only [Fin.sum_univ_two, Fin.sum_univ_one, hcopy, hcoupled, hconstrained]
  norm_num

/-- So it is for these two ranks: the sum is 2, but 3 is what the sessions finalize to. -/
theorem disturbed_oneConstrained :
    ∃ (final : Fin 2 → Session Rat) (summary : Fin 2 → Summary Rat) (A : Fin 2 → RowBlock Rat)
      (i : Fin (A 0).rows) (b : Fin (A 0).globalSize),
      Together (fun r : Fin 2 => ((filled (facesOnRanks r) {} [] (oneConstrained r)
        #v[1, 1]).finalize .inOrder ⟨r, 2⟩).rest) (fun r => (final r, summary r)) ∧
      (final 0).matrix = some (.distributed (A 0)) ∧
      condensedSum copyLink oneConstrained (fun _ => #v[1, 1]) ((A 0).offset + i) b = 2 ∧
      (A 0).block.entry i b = 3 := by
  have hlink : ∀ r, (facesOnRanks r).trace.trueDofs = some (copyLink r) := fun _ => rfl
  have hmade : ∀ r, (copyLink r).MadeConforming oneCopy (ownedOne r) r 1 := fun r =>
    ⟨copyLink r, Outcome.eq_ok_value (oneCopy_conforms r), rfl⟩
  have hready : ∀ r, (facesOnRanks r).mesh.validate = .ok () ∧
      Coupling.RoomForLinks (facesOnRanks r) :=
    fun _ => ⟨rfl, room_twoElements.1, room_twoElements.2, room_twoElements.3⟩
  obtain ⟨-, hreturns, hall⟩ := distributed_rows hlink hmade (by decide) (by decide) (by decide)
    ones_nonsingular (fun _ => {}) (fun _ => []) (fun _ => .inOrder)
  obtain ⟨final, summary, h⟩ := hreturns hready
  obtain ⟨rows, A, hrows, -, hmatrix, hsizes, hpatched⟩ := hall final summary h
  obtain ⟨howned, hoffset, hglobal⟩ := hsizes 0
  have hvalue : ∀ r, (rowsOnRanks r).value (rowsOnRanks_return r) = rows r := fun r =>
    Outcome.ok.inj ((Outcome.eq_ok_value (rowsOnRanks_return r)).symm.trans (hrows r))
  have hcount : emptyCopies (fun _ => oneCopy) (fun r => (rows r).emptyRows) 0 = 1 := by
    obtain ⟨hnone, -, hempty⟩ := rowsOnRanks_entries
    rw [hvalue] at hnone hempty
    rw [emptyCopies, Fin.sum_univ_two, copiesAmong, copiesAmong, hnone, hempty]
    decide
  have hentry := hpatched.entry_eq 0 ⟨0, by rw [howned]; decide⟩ ⟨0, by omega⟩
  simp only [hoffset, Fin.val_zero, Nat.add_zero, if_pos, condensedSum_oneConstrained, hcount]
    at hentry
  refine ⟨final, summary, A, ⟨0, by rw [howned]; decide⟩, ⟨0, by omega⟩, h, hmatrix 0, ?_, ?_⟩
  · simp only [hoffset]
    exact condensedSum_oneConstrained
  · rw [hentry]
    norm_num

end Session

end Condensation
