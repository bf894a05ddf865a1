/-
  Orphan rows — no interface degree of freedom is left without an entry.

  1. **Entries** — a row that receives something stores what it receives, and that is never zero;
     every other row stores a one on its diagonal (`storedRow_ne_nil`, `ne_zero_of_storedRow`).

  2. **Sums** — a row is empty when nothing is stored for it.  Its entry in a column is the sum of
     what is stored there, and several face degrees of freedom may share a column.  Where the stored
     columns are different, every stored entry is an entry of the matrix (`entry_of_mem`); they are
     if no two face degrees of freedom are the same interface degree of freedom (`nodup_columns`).

  3. **The result (`rows_reached`)** — every row stores something, and a row of the matrix is zero
     exactly where nothing was patched and the composed operator has a zero row.  There the stored
     entries cancel each other (`cancelled_row`).
-/
import Condensation.Proofs.EmptyCopies

namespace Condensation

variable {S : Type}

/-! ## Different columns -/

/-- Where the stored columns are different, every stored entry is an entry of the matrix. -/
theorem Csr.entry_of_mem [AddMonoid S] {r c : Nat} {A : Csr S r c} {i : Fin r}
    (h : ((A.row i).map Prod.fst).Nodup) {e : Fin c × S} (he : e ∈ A.row i) :
    A.entry i e.1 = e.2 := by
  rw [Csr.entry, filter_key_eq h he]
  simp

/-! ## Stored rows -/

namespace FaceGraph

variable [Zero S] [BEq S] {nf : Nat} {space : TraceSpace S nf}
  {graph : FaceGraph S nf space.dofsPerFace}

theorem storedRow_ne_nil [One S] (r : Fin space.numLocal) : storedRow space graph r ≠ [] := by
  unfold storedRow
  split
  · exact List.cons_ne_nil _ _
  · next hne => exact hne

/-- What a row receives is not zero. -/
theorem ne_zero_of_rowEntries [LawfulBEq S] {r : Fin space.numLocal} {e : Fin space.numLocal × S}
    (he : e ∈ graph.rowEntries space r) : e.2 ≠ 0 := by
  obtain ⟨k, -, he⟩ := List.mem_flatMap.1 he
  obtain ⟨link, -, he⟩ := List.mem_flatMap.1 he
  obtain ⟨j, -, he⟩ := List.mem_filterMap.1 he
  by_cases hv : link.2.entry (Pairing.inner k) j = 0
  · simp [hv] at he
  · obtain rfl : (space.faceDof link.1 j, link.2.entry (Pairing.inner k) j) = e := by
      simpa [hv] using he
    exact hv

theorem ne_zero_of_storedRow [One S] [NeZero (1 : S)] [LawfulBEq S] {r : Fin space.numLocal}
    {e : Fin space.numLocal × S} (he : e ∈ storedRow space graph r) : e.2 ≠ 0 := by
  unfold storedRow at he
  split at he
  · obtain rfl := List.mem_singleton.1 he
    exact one_ne_zero
  · exact ne_zero_of_rowEntries he

/-- What a block adds to a row stands in the column of its face degree of freedom. -/
theorem column_eq {v : S} {column : Fin space.numLocal} {e : Fin space.numLocal × S}
    (h : (if v == 0 then none else some (column, v)) = some e) : e.1 = column := by
  split at h
  · exact absurd h (by simp)
  · exact congrArg Prod.fst (Option.some.inj h).symm

/-- A face degree of freedom at most for every interface degree of freedom, and no face listed
    twice: then no column is stored twice. -/
theorem nodup_columns [One S] (hgather : Function.Injective space.gather.get)
    (hlinked : ∀ f, ((graph.faces.get f).linked.map Prod.fst).Nodup) (r : Fin space.numLocal) :
    ((storedRow space graph r).map Prod.fst).Nodup := by
  have hsame : ∀ {g g' j j'}, space.faceDof g j = space.faceDof g' j' → g = g' ∧ j = j' :=
    fun h => Pairing.join_inj.1 (hgather h)
  have hentries : ((graph.rowEntries space r).map Prod.fst).Nodup := by
    rw [rowEntries, List.map_flatMap, List.nodup_flatMap]
    constructor
    · intro k _
      rw [List.map_flatMap, List.nodup_flatMap]
      constructor
      -- within one block the columns belong to different degrees of freedom of one face
      · intro link _
        rw [List.map_filterMap]
        refine (List.nodup_finRange _).filterMap fun j j' c hc hc' => ?_
        obtain ⟨e, he, rfl⟩ := Option.map_eq_some_iff.1 hc
        obtain ⟨e', he', heq⟩ := Option.map_eq_some_iff.1 hc'
        exact (hsame ((column_eq he).symm.trans (heq.symm.trans (column_eq he')))).2
      -- two blocks belong to different faces
      · refine List.Pairwise.imp ?_ (List.pairwise_map.1 (hlinked _))
        intro link link' hne c hc hc'
        obtain ⟨e, he, rfl⟩ := List.mem_map.1 hc
        obtain ⟨e', he', heq⟩ := List.mem_map.1 hc'
        obtain ⟨j, -, he⟩ := List.mem_filterMap.1 he
        obtain ⟨j', -, he'⟩ := List.mem_filterMap.1 he'
        exact hne (hsame ((column_eq he).symm.trans (heq.symm.trans (column_eq he')))).1
    -- there is one face degree of freedom at most
    · refine List.Pairwise.imp_of_mem ?_ (OwnerTable.pairwise_list _ r)
      intro k k' hk hk' hlt
      refine absurd (hgather ?_) hlt.ne
      rw [OwnerTable.mem_list.1 hk, OwnerTable.mem_list.1 hk']
  unfold storedRow
  split
  · exact List.nodup_singleton _
  · exact hentries

end FaceGraph

/-! ## All rows -/

namespace Coupling

variable {disc : Discretization S}

variable [Field S] [LinearOrder S]

/-- **The result**: the interface matrix is assembled, and every row of it stores at least one
    entry, and no zeros.  A row that received nothing is a row of the identity.  A row of the matrix
    is zero exactly where none was put and the composed operator has a zero row; its columns
    repeat then, so this does not happen where no two face degrees of freedom are the same
    interface degree of freedom. -/
theorem rows_reached (hvalid : disc.mesh.validate = .ok ()) (hroom : RoomForLinks disc)
    (c : Coupling disc) (s : Schedule) {store : ElementStore S disc.ne disc.m}
    (hbuilt : store.Built) :
    ∃ rows, c.assemble s store = .ok rows ∧ ∀ r,
      rows.matrix.row r ≠ [] ∧
      (∀ e ∈ rows.matrix.row r, e.2 ≠ 0) ∧
      (r ∈ rows.emptyRows → ∀ j, rows.matrix.entry r j = if r = j then 1 else 0) ∧
      ((∀ j, rows.matrix.entry r j = 0) ↔
        r ∉ rows.emptyRows ∧ ∀ j, c.schur store r j = 0) ∧
      (((rows.matrix.row r).map Prod.fst).Nodup → ∃ j, rows.matrix.entry r j ≠ 0) ∧
      (Function.Injective disc.trace.gather.get → ∃ j, rows.matrix.entry r j ≠ 0) := by
  obtain ⟨rows, hrows⟩ := c.assemble_returns hroom (Mesh.facesPerElement_pos hvalid) s hbuilt
  obtain ⟨presolved, graph, -, hlinked, -, hrow⟩ := assemble_spec hbuilt hrows
  refine ⟨rows, hrows, fun r => ?_⟩
  have hstored : rows.matrix.row r ≠ [] := by
    rw [hrow]
    exact FaceGraph.storedRow_ne_nil r
  have hnonzero : ∀ e ∈ rows.matrix.row r, e.2 ≠ 0 := by
    rw [hrow]
    exact fun e he => FaceGraph.ne_zero_of_storedRow he
  have hdifferent : ((rows.matrix.row r).map Prod.fst).Nodup →
      ∃ j, rows.matrix.entry r j ≠ 0 := by
    intro hnodup
    obtain ⟨e, he⟩ := List.exists_mem_of_ne_nil _ hstored
    exact ⟨e.1, by rw [Csr.entry_of_mem hnodup he]; exact hnonzero e he⟩
  refine ⟨hstored, hnonzero, fun hr j => ((entry_row hbuilt hrows r j).2 hr).1, ?_, hdifferent,
    fun hgather => hdifferent ?_⟩
  · constructor
    · intro hzero
      have hr : r ∉ rows.emptyRows := by
        intro hr
        have hone := ((entry_row hbuilt hrows r r).2 hr).1
        rw [hzero, if_pos rfl] at hone
        exact zero_ne_one hone
      exact ⟨hr, fun j => ((entry_row hbuilt hrows r j).1 hr).symm.trans (hzero j)⟩
    · rintro ⟨hr, hzero⟩ j
      rw [(entry_row hbuilt hrows r j).1 hr, hzero]
  · rw [hrow]
    exact FaceGraph.nodup_columns hgather (fun f => by rw [hlinked]; exact nodup_coupled _ _ f) r

/-- So it is for two elements, of which one has no matrix: the second interface degree of freedom is
    on no face. -/
theorem rows_reached_twoElements :
    ∃ rows, oneAssembled.coupling.assemble .inOrder oneAssembled.store = .ok rows ∧
      ∀ r, rows.matrix.row r ≠ [] ∧ ∃ j, rows.matrix.entry r j ≠ 0 := by
  have hvalid : twoElements.mesh.validate = .ok () := rfl
  obtain ⟨rows, hrows, hall⟩ := rows_reached hvalid room_twoElements oneAssembled.coupling
    .inOrder built_oneAssembled
  have hgather : Function.Injective twoElements.trace.gather.get :=
    fun k k' _ => Subsingleton.elim (α := Fin 1) k k'
  exact ⟨rows, hrows, fun r => ⟨(hall r).1, (hall r).2.2.2.2.2 hgather⟩⟩

end Coupling

/-! ### Entries that cancel -/

/-- The two elements again, with two degrees of freedom on their face that are the same interface
    degree of freedom. -/
def doubledFace : Discretization Rat :=
  { twoElements with trace := ⟨2, 1, .replicate _ ⟨0, Nat.zero_lt_one⟩, none, Nat.zero_lt_two⟩ }

/-- The same, made of its parts. -/
def doubledFaceOfParts : Outcome (Discretization Rat) := do
  let adjacency ← Adjacency.ofFaces 2 2 #[⟨⟨0, 1⟩, ⟨1, 0⟩, false⟩]
  let flux ← FluxSpace.discontinuous 2 1
  let trace ← TraceSpace.ofGather 2 1 #[0, 0] none
  Discretization.ofParts ⟨2, 2, 2, ⟨true, true, false⟩⟩ adjacency flux trace.2

/-- Blocks whose columns are opposite to each other. -/
def oppositeColumns : FaceBlocks Rat := ⟨#[1, -1, 1, -1], #[some (.plus 0)]⟩

/-- A unit matrix for every element. -/
def unitBatch : Vector Rat (doubledFace.ne * (doubledFace.m * doubledFace.m)) :=
  Vector.replicate _ 1

/-- No degree of freedom is essential. -/
def allFree : Vector Bool (doubledFace.ne * doubledFace.m) := Vector.replicate _ false

/-- The assembled rows. -/
def cancelledRows : Outcome (Coupling.Assembled Rat 1) := do
  let c ← Coupling.ofFaceBlocks doubledFace .inOrder oppositeColumns
  c.assemble .inOrder (.ofBatch unitBatch allFree)

theorem cancelledRows_return : cancelledRows.hasValue = true := by decide +kernel

/-- A row may be zero though it stores entries: here two face degrees of freedom share an interface
    degree of freedom, every element has a unit matrix, four entries are stored in the only row, and
    their sum is zero.  No row counts as empty. -/
theorem cancelled_row :
    doubledFaceOfParts = .ok doubledFace ∧
      (∀ e : Fin doubledFace.ne, (ElementStore.patched unitBatch allFree e).det ≠ 0) ∧
      ∃ (c : Coupling doubledFace) (rows : Coupling.Assembled Rat 1),
        Coupling.ofFaceBlocks doubledFace .inOrder oppositeColumns = .ok c ∧
        c.assemble .inOrder (.ofBatch unitBatch allFree) = .ok rows ∧
        rows.emptyRows = [] ∧ rows.matrix.stored = 4 ∧ ∀ r j, rows.matrix.entry r j = 0 := by
  have hstored : (cancelledRows.value cancelledRows_return).emptyRows = [] ∧
      (cancelledRows.value cancelledRows_return).matrix.stored = 4 ∧
      ∀ r j, (cancelledRows.value cancelledRows_return).matrix.entry r j = 0 := by
    decide +kernel
  obtain ⟨c, hc, hrows⟩ :=
    Outcome.bind_eq_ok_iff.1 (Outcome.eq_ok_value cancelledRows_return)
  refine ⟨rfl, fun e => ?_, c, _, hc, hrows, hstored⟩
  have hunit : ∀ (e : Fin doubledFace.ne) (i : Fin doubledFace.m),
      ElementStore.patched unitBatch allFree e i i = 1 := by
    decide +kernel
  have hdet : (ElementStore.patched unitBatch allFree e).det = 1 :=
    (Matrix.det_fin_one _).trans (hunit e ⟨0, Nat.zero_lt_one⟩)
  rw [hdet]
  exact one_ne_zero

end Condensation
