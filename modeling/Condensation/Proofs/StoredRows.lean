/-
  Stored rows — the interface matrix stores in every row exactly what the graph gives for it.

  1. **The crux (`sumAt_rowEntries`)** — an entry of a row that received something is the sum over
     the face degrees of freedom of the row, the faces linked to their faces and the face degrees of
     freedom of the column.  Leaving out zeros and grouping by rows do not show in exact sums.

  2. **The result (`stored_rows`)** — for every space, every graph and every order of the rows.  Only
     its last part, on entries, asks anything of the arithmetic (`ExactSums`).
-/
import Condensation.Proofs.RowLayout
import Condensation.Proofs.Grouping
import Condensation.Proofs.CongruenceSum

namespace Condensation

variable {S : Type}

/-! ## Entries -/

/-- Sums do not depend on order and grouping, and what counts as zero is zero. -/
structure ExactSums (S : Type) [Zero S] [Add S] [BEq S] : Prop where
  assoc : ∀ a b c : S, a + b + c = a + (b + c)
  comm : ∀ a b : S, a + b = b + a
  zero_add : ∀ a : S, 0 + a = a
  zero_of_beq : ∀ a : S, (a == 0) = true → a = 0

namespace FaceGraph

variable {nf : Nat}

section Sums

variable [AddCommMonoid S] [BEq S]

/-- What a block row holds in a column, without its zeros. -/
theorem sumAt_nonzero (hzero : ∀ a : S, (a == 0) = true → a = 0) {n L : Nat} (value : Fin n → S)
    (target : Fin n → Fin L) (col : Fin L) :
    sumAt ((List.finRange n).filterMap fun j =>
      if value j == 0 then none else some (target j, value j)) col =
        ∑ j, if target j = col then value j else 0 := by
  rw [sumAt_eq_sum, sum_filterMap, ← List.ofFn_eq_map, List.sum_ofFn]
  refine Finset.sum_congr rfl fun j _ => ?_
  by_cases hj : (value j == 0) = true
  · rw [if_pos hj, hzero _ hj]
    simp
  · rw [if_neg hj]
    rfl

/-- **The crux**: what a row holds in a column. -/
theorem sumAt_rowEntries (hzero : ∀ a : S, (a == 0) = true → a = 0) (space : TraceSpace S nf)
    (graph : FaceGraph S nf space.dofsPerFace) (r col : Fin space.numLocal) :
    sumAt (graph.rowEntries space r) col =
      ∑ f, ∑ i, if space.faceDof f i = r then
        ((graph.faces.get f).linked.map fun link =>
          ∑ j, if space.faceDof link.1 j = col then link.2.entry i j else 0).sum
      else 0 := by
  have hblock : ∀ k : Fin (nf * space.dofsPerFace),
      sumAt ((graph.faces.get (Pairing.outer k)).linked.flatMap fun link =>
        (List.finRange space.dofsPerFace).filterMap fun j =>
          let v := link.2.entry (Pairing.inner k) j
          if v == 0 then none else some (space.faceDof link.1 j, v)) col =
      ((graph.faces.get (Pairing.outer k)).linked.map fun link =>
        ∑ j, if space.faceDof link.1 j = col then link.2.entry (Pairing.inner k) j else 0).sum := by
    intro k
    rw [sumAt_flatMap]
    exact congrArg List.sum (List.map_congr_left fun link _ => sumAt_nonzero hzero _ _ col)
  rw [rowEntries, sumAt_flatMap, TraceSpace.ownerTable_of, List.map_congr_left fun k _ => hblock k,
    sum_filter, ← List.ofFn_eq_map, List.sum_ofFn, Pairing.sum_join]
  simp only [Pairing.outer_join, Pairing.inner_join, decide_eq_true_eq]
  rfl

end Sums

/-! ## The result -/

variable [Zero S] [One S] [Add S] [BEq S]

/-- **The result**: the layout succeeds in every order of the rows, and its arrays describe a
    matrix.  A row that receives something stores just that, in this order; every other row stores
    a one on its diagonal, takes one place, and is listed, in ascending order.  With exact sums the
    entries of a row that receives something are the sums over the face degrees of freedom of the
    row, the faces linked to them and the face degrees of freedom of the column. -/
theorem stored_rows (space : TraceSpace S nf) (graph : FaceGraph S nf space.dofsPerFace)
    (s : Schedule) :
    ∃ rows, graph.toRows space s = .ok rows ∧
      Csr.Describes space.numLocal space.numLocal rows.matrix.rowPtr.toArray
        (rows.matrix.columns.toArray.map Fin.val) rows.matrix.values.toArray ∧
      (∀ r : Fin space.numLocal, rows.matrix.rowPtr.get r.succ =
        rows.matrix.rowPtr.get r.castSucc + max 1 (graph.rowEntries space r).length) ∧
      (∀ r, graph.rowEntries space r ≠ [] → rows.matrix.row r = graph.rowEntries space r) ∧
      (∀ r, graph.rowEntries space r = [] → rows.matrix.row r = [(r, 1)]) ∧
      rows.emptyRows.Pairwise (· < ·) ∧
      (∀ r, r ∈ rows.emptyRows ↔ graph.rowEntries space r = []) ∧
      (ExactSums S → ∀ r, graph.rowEntries space r ≠ [] → ∀ col : Fin space.numLocal,
        rows.matrix.entryAt r col =
          .ok (total fun f => total fun i => if space.faceDof f i = r then
            ((graph.faces.get f).linked.map fun link =>
              total fun j => if space.faceDof link.1 j = col then link.2.entry i j else 0).sum
          else 0)) := by
  obtain ⟨rows, hrows, hempty, hrow⟩ := toRows_returns space graph s
  have hfull : ∀ r, graph.rowEntries space r ≠ [] →
      rows.matrix.row r = graph.rowEntries space r := by
    intro r hr
    rw [hrow, storedRow, if_neg hr]
  refine ⟨rows, hrows, rows.matrix.describes, ?_, hfull, ?_, ?_, ?_, ?_⟩
  · intro r
    rw [rows.matrix.rowPtr_succ, hrow, length_storedRow, get_rowCounts]
  · intro r hr
    rw [hrow, storedRow, if_pos hr]
  · rw [hempty]
    exact (List.pairwise_lt_finRange _).filter _
  · intro r
    rw [hempty]
    simp [unreached]
  · intro hexact r hr col
    let sums : AddCommMonoid S :=
      { add_assoc := hexact.assoc
        add_comm := hexact.comm
        zero_add := hexact.zero_add
        add_zero := fun a => (hexact.comm a 0).trans (hexact.zero_add a)
        nsmul := nsmulRec }
    have hsum := sumAt_rowEntries hexact.zero_of_beq space graph r col
    simp only [← total_eq_sum] at hsum
    rw [Csr.entryAt_eq, Csr.entry, hfull r hr]
    exact congrArg Outcome.ok hsum

/-! ### A gap in the places -/

/-- Two faces with two degrees of freedom each that meet in one of them; one interface degree of
    freedom is on no face. -/
def meetingFaces : TraceSpace ℚ 2 :=
  ⟨2, 4, #v[0, 1, 1, 3], none, by decide⟩

/-- The first face is linked to both.  The first place of the second one is free, so what stands
    behind it is not read. -/
def gappedGraph : FaceGraph ℚ 2 2 where
  places := 2
  faces := #v[⟨#v[some ⟨0, Nat.zero_lt_two⟩, some ⟨1, Nat.one_lt_two⟩],
      #v[⟨#v[2, 6, 3, 0]⟩, ⟨#v[4, 0, 0, 0]⟩]⟩,
    ⟨#v[none, some ⟨0, Nat.zero_lt_two⟩], #v[⟨#v[9, 9, 9, 9]⟩, ⟨#v[9, 9, 9, 9]⟩]⟩]

/-- The interface degrees of freedom by number. -/
def meetingDof (k : Fin 4) : Fin meetingFaces.numLocal := k

theorem exactSums_rat : ExactSums ℚ where
  assoc := add_assoc
  comm := add_comm
  zero_add := zero_add
  zero_of_beq _ := eq_of_beq

/-- So it is for them: the first row stores one column twice, and the last two rows receive
    nothing. -/
theorem stored_rows_gapped :
    ∃ rows, gappedGraph.toRows meetingFaces .backwards = .ok rows ∧
      rows.matrix.row (meetingDof 0) = [(meetingDof 0, 2), (meetingDof 1, 3), (meetingDof 1, 4)] ∧
      rows.matrix.entryAt (meetingDof 0) (meetingDof 1) = .ok (3 + 4) ∧
      rows.matrix.row (meetingDof 2) = [(meetingDof 2, 1)] ∧
      meetingDof 1 ∉ rows.emptyRows ∧ meetingDof 3 ∈ rows.emptyRows := by
  obtain ⟨rows, hrows, -, -, hfull, hempty, -, hlisted, hentry⟩ :=
    stored_rows meetingFaces gappedGraph .backwards
  have hfirst : gappedGraph.rowEntries meetingFaces (meetingDof 0) =
      [(meetingDof 0, 2), (meetingDof 1, 3), (meetingDof 1, 4)] := by decide +kernel
  have hreached : gappedGraph.rowEntries meetingFaces (meetingDof 0) ≠ [] := by
    rw [hfirst]
    exact List.cons_ne_nil _ _
  refine ⟨rows, hrows, (hfull _ hreached).trans hfirst, ?_, hempty _ (by decide +kernel), ?_, ?_⟩
  · rw [hentry exactSums_rat _ hreached]
    decide +kernel
  · rw [hlisted]
    decide +kernel
  · exact (hlisted _).2 (by decide +kernel)

end FaceGraph

end Condensation
