/-
  Row layout — the two passes write every row where it belongs.

  1. **Starts** — row `i` starts behind the rows before it; a row takes as many places as it has
     entries, an empty one takes one (`rowStart_succ`).  The segments of the second pass are these
     parts of the buffers (`cut_rowStarts`), so they do not overlap.

  2. **Patching** — an empty row has a place of its own, so setting it to a row of the identity
     changes nothing else (`getElem?_foldl_patchRow_of_ne`).

  3. **The crux (`toRows_returns`)** — the layout always succeeds, in every order of the rows, and
     each row of the matrix is what the graph gives for it, or a row of the identity.
-/
import Condensation.Interface.Assembly
import Condensation.Proofs.WorkOrders
import Condensation.Proofs.SparseEntries

namespace Condensation

variable {S : Type}

/-! ## Slices -/

theorem slice_congr {α : Type} {a b : List α} {start len : Nat}
    (h : ∀ j, j < len → a[start + j]? = b[start + j]?) :
    (a.drop start).take len = (b.drop start).take len := by
  refine List.ext_getElem? fun j => ?_
  rcases Nat.lt_or_ge j len with hj | hj
  · rw [List.getElem?_take_of_lt hj, List.getElem?_take_of_lt hj, List.getElem?_drop,
      List.getElem?_drop, h j hj]
  · rw [List.getElem?_take_eq_none hj, List.getElem?_take_eq_none hj]

/-- A slice of length one is the entry at its start. -/
theorem slice_one {α : Type} {a : List α} {start : Nat} {x : α} (h : a[start]? = some x) :
    (a.drop start).take 1 = [x] := by
  rw [List.take_one, List.head?_drop, h]
  rfl

namespace FaceGraph

/-! ## Starts -/

/-- Where row `i` starts, for rows of the given lengths. -/
def rowStart {L : Nat} (counts : Vector Nat L) (i : Nat) : Nat :=
  Size.offset (counts.toList.map (max 1)) i

theorem rowStart_zero {L : Nat} (counts : Vector Nat L) : rowStart counts 0 = 0 :=
  Size.offset_zero _

theorem rowStart_succ {L : Nat} (counts : Vector Nat L) (i : Fin L) :
    rowStart counts (i + 1) = rowStart counts i + max 1 (counts.get i) := by
  rw [rowStart, Size.offset_succ (by simp)]
  simp [rowStart, Vector.get]

theorem rowStart_mono {L : Nat} (counts : Vector Nat L) {i j : Nat} (h : i ≤ j) :
    rowStart counts i ≤ rowStart counts j :=
  Size.offset_mono _ h

/-- A row ends before every later one starts. -/
theorem rowStart_add_le {L : Nat} (counts : Vector Nat L) {i j : Fin L} (h : i < j) :
    rowStart counts i + max 1 (counts.get i) ≤ rowStart counts j := by
  rw [← rowStart_succ]
  exact rowStart_mono counts h

/-- Every row starts inside the table. -/
theorem rowStart_lt {L : Nat} (counts : Vector Nat L) (r : Fin L) :
    rowStart counts r < rowStart counts L := by
  have h1 := rowStart_succ counts r
  have h2 := rowStart_mono counts (Nat.succ_le_of_lt r.isLt)
  simp only [Nat.succ_eq_add_one] at h2
  omega

/-- No two rows start at the same place, since every row takes at least one. -/
theorem rowStart_injective {L : Nat} (counts : Vector Nat L) (i j : Fin L)
    (h : rowStart counts i = rowStart counts j) : i = j := by
  rcases lt_trichotomy i j with hlt | heq | hgt
  · have := rowStart_add_le counts hlt
    omega
  · exact heq
  · have := rowStart_add_le counts hgt
    omega

/-- The table of starts holds the start of every row and the end of the last one. -/
theorem rowStarts_eq {L : Nat} (counts : Vector Nat L) :
    rowStarts counts = (List.range (L + 1)).map (rowStart counts) := by
  refine List.map_congr_left fun i _ => ?_
  rw [rowStart, Size.offset, List.map_take, List.sum_eq_foldr]

theorem getD_rowStarts {L : Nat} (counts : Vector Nat L) {i : Nat} (h : i ≤ L) :
    (rowStarts counts).getD i 0 = rowStart counts i := by
  rw [rowStarts_eq, List.getD_eq_getElem?_getD, List.getElem?_map, List.getElem?_range (by omega)]
  rfl

/-- The segments of the second pass lie between the starts of the rows. -/
theorem cut_rowStarts {L : Nat} (counts : Vector Nat L) :
    ∃ segs : List (Segment (rowStart counts L)),
      Segment.ofOffsets (rowStart counts L) (rowStarts counts) = some segs ∧
        Segment.Cut ((rowStarts counts).getD · 0) L segs := by
  have hlength : (rowStarts counts).length - 1 = L := by simp [rowStarts]
  have first : (rowStarts counts).head? = some 0 := by
    rw [rowStarts_eq, List.range_succ_eq_map, List.map_cons, rowStart_zero]
    rfl
  have sorted : (rowStarts counts).Pairwise (· ≤ ·) := by
    rw [rowStarts_eq, List.pairwise_map]
    exact List.pairwise_lt_range.imp fun h => rowStart_mono counts (Nat.le_of_lt h)
  have fits : ∀ o ∈ rowStarts counts, o ≤ rowStart counts L := by
    intro o ho
    rw [rowStarts_eq] at ho
    obtain ⟨i, hi, rfl⟩ := List.mem_map.1 ho
    exact rowStart_mono counts (Nat.le_of_lt_succ (List.mem_range.1 hi))
  have hcut := Segment.cut_ofOffsets first sorted fits
  rwa [hlength] at hcut

/-- The two buffers are cut at the same places, and no place lies in two rows. -/
theorem pairs_rowStarts {L : Nat} (counts : Vector Nat L) :
    ∃ (segs : List (Segment (rowStart counts L)))
      (pairs : List (Segment (rowStart counts L) × Segment (rowStart counts L)))
      (hlen : pairs.length = L),
      Segment.ofOffsets (rowStart counts L) (rowStarts counts) = some segs ∧
      segs.zip segs = pairs ∧
      (∀ i, (pairs.get i).1.start = rowStart counts i ∧
        (pairs.get i).1.length = max 1 (counts.get (i.cast hlen)) ∧
        (pairs.get i).2 = (pairs.get i).1) ∧
      ∀ i j, i ≠ j → (pairs.get i).1.Apart (pairs.get j).1 ∧
        (pairs.get i).2.Apart (pairs.get j).2 := by
  obtain ⟨segs, hsegs, cut⟩ := cut_rowStarts counts
  have hpairs : (segs.zip segs).length = L := by simp [cut.count_eq]
  refine ⟨segs, segs.zip segs, hpairs, hsegs, rfl, fun i => ?_, fun i j hij => ?_⟩
  · have hi : i.val < segs.length := by
      have := i.isLt
      have := cut.count_eq
      omega
    have hiL : i.val < L := by rwa [cut.count_eq] at hi
    have hsucc : rowStart counts (i + 1) = rowStart counts i + max 1 (counts.get (i.cast hpairs)) :=
      rowStart_succ counts (i.cast hpairs)
    have hstart := cut.start_eq i hi
    have hlength := cut.length_eq hi
    rw [getD_rowStarts counts (Nat.le_of_lt hiL)] at hstart hlength
    rw [getD_rowStarts counts hiL, hsucc, Nat.add_sub_cancel_left] at hlength
    rw [List.get_eq_getElem, List.getElem_zip]
    exact ⟨hstart, hlength, rfl⟩
  · have hne : i.val ≠ j.val := fun h => hij (Fin.ext h)
    simp only [List.get_eq_getElem, List.getElem_zip]
    exact ⟨cut.apart_get _ _ hne, cut.apart_get _ _ hne⟩

/-! ## Patching -/

section Patching

variable [One S] {L : Nat} (counts : Vector Nat L)

/-- Patching overwrites places and adds none. -/
theorem size_foldl_patchRow (rows : List (Fin L)) (stored : Array Nat × Array S) :
    (rows.foldl (patchRow (rowStarts counts)) stored).1.size = stored.1.size ∧
      (rows.foldl (patchRow (rowStarts counts)) stored).2.size = stored.2.size := by
  induction rows generalizing stored with
  | nil => exact ⟨rfl, rfl⟩
  | cons r rest ih =>
    rw [List.foldl_cons]
    have := ih (patchRow (rowStarts counts) stored r)
    simpa [patchRow] using this

/-- A place that is the start of no patched row stays as it is. -/
theorem getElem?_foldl_patchRow_of_ne (rows : List (Fin L)) (stored : Array Nat × Array S)
    {p : Nat} (hp : ∀ r ∈ rows, rowStart counts r ≠ p) :
    (rows.foldl (patchRow (rowStarts counts)) stored).1[p]? = stored.1[p]? ∧
      (rows.foldl (patchRow (rowStarts counts)) stored).2[p]? = stored.2[p]? := by
  induction rows generalizing stored with
  | nil => exact ⟨rfl, rfl⟩
  | cons r rest ih =>
    rw [List.foldl_cons]
    have later := ih (patchRow (rowStarts counts) stored r) fun q hq => hp q (by simp [hq])
    have hne := hp r (by simp)
    rw [later.1, later.2]
    simp only [patchRow, getD_rowStarts counts (Nat.le_of_lt r.isLt)]
    exact ⟨Array.getElem?_setIfInBounds_ne hne, Array.getElem?_setIfInBounds_ne hne⟩

/-- The start of a patched row holds the diagonal one. -/
theorem getElem?_foldl_patchRow (rows : List (Fin L)) (stored : Array Nat × Array S) {r : Fin L}
    (hr : r ∈ rows) (h1 : rowStart counts r < stored.1.size)
    (h2 : rowStart counts r < stored.2.size) :
    (rows.foldl (patchRow (rowStarts counts)) stored).1[rowStart counts r]? = some r.val ∧
      (rows.foldl (patchRow (rowStarts counts)) stored).2[rowStart counts r]? = some 1 := by
  induction rows generalizing stored with
  | nil => simp at hr
  | cons q rest ih =>
    rw [List.foldl_cons]
    by_cases hin : r ∈ rest
    · exact ih _ hin (by simpa [patchRow] using h1) (by simpa [patchRow] using h2)
    · have hrq : r = q := by
        rcases List.mem_cons.1 hr with h | h
        · exact h
        · exact absurd h hin
      subst hrq
      have hne : ∀ q ∈ rest, rowStart counts q ≠ rowStart counts r := fun q hq h =>
        hin (rowStart_injective counts q r h ▸ hq)
      obtain ⟨e1, e2⟩ := getElem?_foldl_patchRow_of_ne counts rest
        (patchRow (rowStarts counts) stored r) hne
      rw [e1, e2]
      simp only [patchRow, getD_rowStarts counts (Nat.le_of_lt r.isLt)]
      exact ⟨Array.getElem?_setIfInBounds_self_of_lt h1, Array.getElem?_setIfInBounds_self_of_lt h2⟩

end Patching

/-! ## Rows -/

/-- A row with entries fills its segment; an empty one leaves it. -/
theorem writeRow_returns {L p q : Nat} (entries : List (Fin L × S)) (hp : p = max 1 entries.length)
    (hq : q = max 1 entries.length) (columns : Vector Nat p) (values : Vector S q) :
    ∃ out, writeRow entries columns values = .ok out ∧ (entries ≠ [] →
      out.1.toList = entries.map (·.1.val) ∧ out.2.toList = entries.map (·.2)) := by
  by_cases hne : entries = []
  · subst hne
    refine ⟨(columns, values), ?_, fun h => absurd rfl h⟩
    simp only [List.length_nil] at hp hq
    rw [writeRow, dif_neg (by simp; omega), if_pos ⟨rfl, by omega⟩]
  · have hpos := List.length_pos_iff.2 hne
    have hlen : entries.length = p ∧ entries.length = q := by omega
    refine ⟨_, by rw [writeRow, dif_pos hlen], fun _ => ⟨?_, ?_⟩⟩ <;> simp [Vector.toList]

section Rows

variable [Zero S] [BEq S] {nf : Nat}

/-- What the matrix stores in row `r`. -/
def storedRow [One S] (space : TraceSpace S nf) (graph : FaceGraph S nf space.dofsPerFace)
    (r : Fin space.numLocal) : List (Fin space.numLocal × S) :=
  if graph.rowEntries space r = [] then [(r, 1)] else graph.rowEntries space r

/-- The rows that receive nothing. -/
def unreached (space : TraceSpace S nf) (graph : FaceGraph S nf space.dofsPerFace) :
    List (Fin space.numLocal) :=
  (List.finRange space.numLocal).filter fun r => graph.rowEntries space r = []

/-- How many entries every row receives. -/
def rowCounts (space : TraceSpace S nf) (graph : FaceGraph S nf space.dofsPerFace) :
    Vector Nat space.numLocal :=
  Vector.ofFn fun r => (graph.rowEntries space r).length

theorem get_rowCounts (space : TraceSpace S nf) (graph : FaceGraph S nf space.dofsPerFace)
    (r : Fin space.numLocal) :
    (rowCounts space graph).get r = (graph.rowEntries space r).length :=
  Vector.get_ofFn_eq _ r

/-- A stored row is as long as the place that was kept for it. -/
theorem length_storedRow [One S] (space : TraceSpace S nf) (graph : FaceGraph S nf space.dofsPerFace)
    (r : Fin space.numLocal) :
    (storedRow space graph r).length = max 1 ((rowCounts space graph).get r) := by
  rw [storedRow, get_rowCounts]
  split
  · next h => simp [h]
  · next h =>
    have := List.length_pos_iff.2 h
    omega

/-- After the second pass every row with entries is in its segment. -/
theorem segmentPairs_returns (space : TraceSpace S nf)
    (graph : FaceGraph S nf space.dofsPerFace) (s : Schedule)
    (counts : Vector Nat space.numLocal) (hcounts : counts = rowCounts space graph) :
    ∃ filled : Vector Nat (rowStart counts space.numLocal) ×
        Vector S (rowStart counts space.numLocal),
      s.segmentPairs (Vector.replicate _ 0) (Vector.replicate _ (0 : S)) (rowStarts counts)
        (fun r _ _ columns values =>
          if h : r < space.numLocal then writeRow (graph.rowEntries space ⟨r, h⟩) columns values
          else .abort) = .ok filled ∧
      ∀ r : Fin space.numLocal, graph.rowEntries space r ≠ [] →
        (filled.1.toList.drop (rowStart counts r)).take (graph.rowEntries space r).length =
          (graph.rowEntries space r).map (·.1.val) ∧
        (filled.2.toList.drop (rowStart counts r)).take (graph.rowEntries space r).length =
          (graph.rowEntries space r).map (·.2) := by
  obtain ⟨segs, pairs, hlen, hsegs, hpairs, hpair, apart⟩ := pairs_rowStarts counts
  have hcount : ∀ r, counts.get r = (graph.rowEntries space r).length := by
    intro r
    rw [hcounts, get_rowCounts]
  have hlength : ∀ i : Fin pairs.length, (pairs.get i).1.length =
      max 1 (graph.rowEntries space (i.cast hlen)).length := by
    intro i
    rw [(hpair i).2.1, hcount]
  have hbody := fun i : Fin pairs.length =>
    writeRow_returns (graph.rowEntries space (i.cast hlen)) (hlength i)
      (by rw [(hpair i).2.2]; exact hlength i)
      ((pairs.get i).1.read (Vector.replicate _ 0)) ((pairs.get i).2.read (Vector.replicate _ (0 : S)))
  choose out hout hwritten using hbody
  obtain ⟨filled, hrun, hread⟩ := s.onSegmentPairs_returns pairs apart
    (Vector.replicate _ 0, Vector.replicate _ (0 : S))
    (fun r _ _ columns values =>
      if h : r < space.numLocal then writeRow (graph.rowEntries space ⟨r, h⟩) columns values
      else .abort) out fun i => by
        have hi : i.val < space.numLocal := (i.cast hlen).isLt
        simp only [dif_pos hi]
        exact hout i
  refine ⟨filled, ?_, fun r hne => ?_⟩
  · simp only [Schedule.segmentPairs, hsegs, Outcome.ofOption, Outcome.ok_bind, hpairs]
    exact hrun
  · obtain ⟨hread1, hread2⟩ := hread (r.cast hlen.symm)
    obtain ⟨hw1, hw2⟩ := hwritten (r.cast hlen.symm) hne
    obtain ⟨hstart, -, hsame⟩ := hpair (r.cast hlen.symm)
    have hfull : max 1 (graph.rowEntries space r).length = (graph.rowEntries space r).length := by
      have := List.length_pos_iff.2 hne
      omega
    have hlength := hlength (r.cast hlen.symm)
    simp only [Fin.val_cast, Fin.cast_cast, Fin.cast_eq_self] at hstart hlength hw1 hw2
    rw [hfull] at hlength
    rw [← hw1, ← hw2, ← hread1, ← hread2, Segment.toList_read, Segment.toList_read, hsame, hstart,
      hlength]
    exact ⟨rfl, rfl⟩

/-- Patching reaches the rows without entries, and no other. -/
theorem slices_patched [One S] (space : TraceSpace S nf)
    (graph : FaceGraph S nf space.dofsPerFace) {counts : Vector Nat space.numLocal}
    (hcounts : rowCounts space graph = counts)
    (filled : Vector Nat (rowStart counts space.numLocal) ×
      Vector S (rowStart counts space.numLocal))
    (hfilled : ∀ r : Fin space.numLocal, graph.rowEntries space r ≠ [] →
      (filled.1.toList.drop (rowStart counts r)).take (graph.rowEntries space r).length =
        (graph.rowEntries space r).map (·.1.val) ∧
      (filled.2.toList.drop (rowStart counts r)).take (graph.rowEntries space r).length =
        (graph.rowEntries space r).map (·.2)) (r : Fin space.numLocal) :
    (((unreached space graph).foldl (patchRow (rowStarts counts))
        (filled.1.toArray, filled.2.toArray)).1.toList.drop (rowStart counts r)).take
          (storedRow space graph r).length = (storedRow space graph r).map (·.1.val) ∧
      (((unreached space graph).foldl (patchRow (rowStarts counts))
        (filled.1.toArray, filled.2.toArray)).2.toList.drop (rowStart counts r)).take
          (storedRow space graph r).length = (storedRow space graph r).map (·.2) := by
  by_cases hr : graph.rowEntries space r = []
  · have hmem : r ∈ unreached space graph := by simp [unreached, hr]
    have hlt := rowStart_lt counts r
    have hone := getElem?_foldl_patchRow counts (unreached space graph)
      (filled.1.toArray, filled.2.toArray) hmem (by simpa using hlt) (by simpa using hlt)
    rw [storedRow, if_pos hr]
    exact ⟨slice_one (by simpa using hone.1), slice_one (by simpa using hone.2)⟩
  · have hne : ∀ j, j < (graph.rowEntries space r).length →
        ∀ q ∈ unreached space graph, rowStart counts q ≠ rowStart counts r + j := by
      intro j hj q hq
      have hq : graph.rowEntries space q = [] := by simpa [unreached] using hq
      rcases lt_trichotomy q r with h | h | h
      · have := rowStart_add_le counts h
        omega
      · exact absurd (h ▸ hq) hr
      · have := rowStart_add_le counts h
        rw [← get_rowCounts, hcounts] at hj
        omega
    have hsame := fun j hj => getElem?_foldl_patchRow_of_ne counts (unreached space graph)
      (filled.1.toArray, filled.2.toArray) (hne j hj)
    simp only [← Array.getElem?_toList, Vector.toList_toArray] at hsame
    rw [storedRow, if_neg hr, slice_congr fun j hj => (hsame j hj).1,
      slice_congr fun j hj => (hsame j hj).2]
    exact hfilled r hr

/-- **The crux**: the layout always succeeds, and every row is what the graph gives for it, or a
    row of the identity. -/
theorem toRows_returns [One S] (space : TraceSpace S nf) (graph : FaceGraph S nf space.dofsPerFace)
    (s : Schedule) :
    ∃ rows, graph.toRows space s = .ok rows ∧ rows.emptyRows = unreached space graph ∧
      ∀ r, rows.matrix.row r = storedRow space graph r := by
  generalize hcounts : rowCounts space graph = counts
  have hcount : ∀ r, counts.get r = (graph.rowEntries space r).length := by
    intro r
    rw [← get_rowCounts, hcounts]
  obtain ⟨filled, hfilled, hslices⟩ := segmentPairs_returns space graph s counts hcounts.symm
  have hfirst : s.each (Vector.replicate space.numLocal 0)
      (fun r _ => return (graph.rowEntries space r).length) = .ok counts := by
    rw [s.each_pure, ← hcounts]
    rfl
  have hstored : (counts.toList.map (max 1)).foldr (· + ·) 0 = rowStart counts space.numLocal := by
    rw [← List.sum_eq_foldr, rowStart, ← Size.offset_length]
    simp
  have hempty : ((List.finRange space.numLocal).filter fun r => counts.get r = 0) =
      unreached space graph := by
    refine List.filter_congr fun r _ => ?_
    simp [hcount]
  have hslice := slices_patched space graph hcounts filled hslices
  generalize hpatched : (unreached space graph).foldl (patchRow (rowStarts counts))
    (filled.1.toArray, filled.2.toArray) = patched at hslice
  have hsizes : patched.1.size = rowStart counts space.numLocal ∧
      patched.2.size = rowStart counts space.numLocal := by
    have := size_foldl_patchRow counts (unreached space graph)
      (filled.1.toArray, filled.2.toArray)
    rw [hpatched] at this
    simpa using this
  have hlengths : ∀ r : Fin space.numLocal, rowStart counts (r + 1) =
      rowStart counts r + (storedRow space graph r).length := by
    intro r
    rw [rowStart_succ, length_storedRow, hcounts]
  have hptrSize : (rowStarts counts).toArray.size = space.numLocal + 1 := by simp [rowStarts]
  have hptr : ∀ i, i ≤ space.numLocal →
      (rowStarts counts).toArray.getD i 0 = rowStart counts i := by
    intro i hi
    rw [← getD_rowStarts counts hi]
    simp
  obtain ⟨A, hA, hrows⟩ := Csr.ofParts_of_slices (storedRow space graph) (rowStart counts)
    (rowStart_zero counts) hlengths hptrSize hptr hsizes.1 hsizes.2 (fun r => (hslice r).1)
    fun r => (hslice r).2
  refine ⟨⟨A, unreached space graph⟩, ?_, rfl, hrows⟩
  unfold toRows
  rw [hfirst, Outcome.ok_bind]
  dsimp only
  rw [hstored, hfilled, Outcome.ok_bind, hempty, hpatched, hA]
  rfl

end Rows

end FaceGraph

end Condensation
