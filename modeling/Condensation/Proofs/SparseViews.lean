/-
  Sparse views — whichever way a matrix in compressed rows is looked at, it has the same entries.

  1. **Acceptance (`ofArrays_eq_ok_iff`)** — three arrays are accepted just if they describe a matrix,
     and that matrix stores them; all others are refused.

  2. **Stored places (`entry_eq_sum_stored`)** — an entry is the sum over the places of its row that
     name its column.  Each view adds these values in its own order: by query, by row, column after
     column, or on the columns that occur.

  3. **Columns that occur (`entry_compressed`)** — a matrix on its referenced columns has the entries
     that it has in full there, since no column is referenced twice.

  4. **The result (`views_agree`)** — for all arrays, sorted or not, with repeated entries and empty
     rows.
-/
import Condensation.Proofs.SparseEntries
import Mathlib.Algebra.BigOperators.Intervals

namespace Condensation

variable {S : Type} {r c : Nat}

namespace Csr

/-! ## Acceptance -/

section Acceptance

variable {rowPtr colIdx : Array Nat} {values : Array S}

theorem ofArrays?_eq_some_iff {A : Csr S r c} :
    ofArrays? r c rowPtr colIdx values = some A ↔
      A.rowPtr.toArray = rowPtr ∧ A.columns.toArray.map Fin.val = colIdx ∧
        A.values.toArray = values := by
  unfold ofArrays?
  constructor
  · intro h
    split at h
    · next describes =>
      obtain rfl := Option.some.inj h
      refine ⟨rfl, Array.ext (by simp) fun k h1 h2 => ?_, rfl⟩
      simp
    · cases h
  · rintro ⟨rfl, rfl, rfl⟩
    rw [dif_pos A.describes]
    refine congrArg some (ext_arrays rfl ?_ rfl)
    refine List.ext_getElem (by simp) fun k h1 h2 => ?_
    simp

/-- Arrays are refused just if they do not describe a matrix. -/
theorem ofArrays_cases (c : Nat) (rowPtr colIdx : Array Nat) (values : Array S)
    (hr : r + 1 < Size.limit) :
    (Describes r c rowPtr colIdx values ∧
      ofArrays r c rowPtr colIdx values = ofParts r c rowPtr colIdx values) ∨
    (¬ Describes r c rowPtr colIdx values ∧
      ∃ why, ofArrays r c rowPtr colIdx values = .fault why) := by
  have hsum : Size.sum r 1 = .ok (r + 1) := if_pos hr
  rw [ofArrays, hsum, Outcome.ok_bind, Outcome.sameLength, Outcome.require]
  by_cases rows : r + 1 = rowPtr.size
  case neg =>
    rw [if_neg rows]
    exact .inr ⟨fun d => rows d.rows.symm, _, rfl⟩
  rw [if_pos rows, Outcome.ok_bind, Outcome.sameLength, Outcome.require]
  by_cases paired : colIdx.size = values.size
  case neg =>
    rw [if_neg paired]
    exact .inr ⟨fun d => paired d.paired.symm, _, rfl⟩
  -- the first and the last pointer exist, since their number is right
  have hptr : ∀ i, i ≤ r → rowPtr[i]? = some (rowPtr.getD i 0) := by
    intro i hi
    have hlt : i < rowPtr.size := by omega
    simp [Array.getD, hlt]
  rw [if_pos paired, Outcome.ok_bind, hptr 0 (Nat.zero_le r), hptr r le_rfl, Outcome.ofOption,
    Outcome.ofOption, Outcome.ok_bind, Outcome.ok_bind, Outcome.require]
  by_cases ends : rowPtr.getD 0 0 = 0 ∧ rowPtr.getD r 0 = colIdx.size
  case neg =>
    rw [if_neg ends]
    exact .inr ⟨fun d => ends ⟨d.first, d.last⟩, _, rfl⟩
  rw [if_pos ends, Outcome.ok_bind, Outcome.require]
  by_cases mono : ∀ i : Fin r, rowPtr.getD i 0 ≤ rowPtr.getD (i + 1) 0
  case neg =>
    rw [if_neg mono]
    exact .inr ⟨fun d => mono d.mono, _, rfl⟩
  rw [if_pos mono, Outcome.ok_bind]
  cases hfind : colIdx.find? (c ≤ ·) with
  | some j =>
    have hout : c ≤ j := by simpa using Array.find?_some hfind
    obtain ⟨k, hk, rfl⟩ := Array.mem_iff_getElem.1 (Array.mem_of_find?_eq_some hfind)
    exact .inr ⟨fun d => absurd (d.inside ⟨k, hk⟩) (Nat.not_lt.2 hout), _, rfl⟩
  | none =>
    refine .inl ⟨⟨rows.symm, paired.symm, ends.1, ends.2, mono, fun k => ?_⟩, rfl⟩
    simpa using Array.find?_eq_none.1 hfind colIdx[k] (Array.getElem_mem k.isLt)

/-- **Acceptance**: the matrix that is made from three arrays stores them. -/
theorem ofArrays_eq_ok_iff {A : Csr S r c} :
    ofArrays r c rowPtr colIdx values = .ok A ↔ r + 1 < Size.limit ∧
      A.rowPtr.toArray = rowPtr ∧ A.columns.toArray.map Fin.val = colIdx ∧
        A.values.toArray = values := by
  constructor
  · intro h
    have hr : r + 1 < Size.limit := by
      by_contra hlimit
      rw [ofArrays, Size.sum, if_neg hlimit] at h
      cases h
    refine ⟨hr, ?_⟩
    rcases ofArrays_cases c rowPtr colIdx values hr with ⟨-, hparts⟩ | ⟨-, why, hwhy⟩
    · rw [hparts, ofParts, Outcome.ofOption_eq_ok_iff] at h
      exact ofArrays?_eq_some_iff.1 h
    · rw [hwhy] at h
      cases h
  · rintro ⟨hr, rfl, rfl, rfl⟩
    rcases ofArrays_cases c _ _ _ hr with ⟨-, hparts⟩ | ⟨hnot, -⟩
    · rw [hparts, ofParts, Outcome.ofOption_eq_ok_iff]
      exact ofArrays?_eq_some_iff.2 ⟨rfl, rfl, rfl⟩
    · exact absurd A.describes hnot

theorem exists_ofArrays_iff :
    (∃ A : Csr S r c, ofArrays r c rowPtr colIdx values = .ok A) ↔
      r + 1 < Size.limit ∧ Describes r c rowPtr colIdx values := by
  constructor
  · rintro ⟨A, h⟩
    obtain ⟨hr, rfl, rfl, rfl⟩ := ofArrays_eq_ok_iff.1 h
    exact ⟨hr, A.describes⟩
  · rintro ⟨hr, describes⟩
    have hsome : ∃ A, ofArrays? r c rowPtr colIdx values = some A := ⟨_, dif_pos describes⟩
    obtain ⟨A, hA⟩ := hsome
    exact ⟨A, ofArrays_eq_ok_iff.2 ⟨hr, ofArrays?_eq_some_iff.1 hA⟩⟩

end Acceptance

/-! ## Stored places -/

/-- A slice of a list adds up to the sum over its places. -/
theorem sum_slice [AddCommMonoid S] (l : List S) {a b : Nat} (hb : b ≤ l.length) :
    ((l.drop a).take (b - a)).sum = ∑ k ∈ Finset.Ico a b, l.getD k 0 := by
  have hslice : (l.drop a).take (b - a) = List.ofFn fun k : Fin (b - a) => l.getD (a + k) 0 := by
    refine List.ext_getElem (by simp; omega) fun k h1 h2 => ?_
    have hk : k < b - a := by simpa using h2
    have hak : a + k < l.length := by omega
    rw [List.getElem_take, List.getElem_drop, List.getElem_ofFn, List.getD_eq_getElem?_getD,
      List.getElem?_eq_getElem hak]
    rfl
  rw [hslice, List.sum_ofFn, Finset.sum_Ico_eq_sum_range, Finset.sum_range]

/-- **Stored places**: an entry is the sum over the places of its row that name its column. -/
theorem entry_eq_sum_stored [AddCommMonoid S] (A : Csr S r c) (i : Fin r) (j : Fin c) :
    A.entry i j = ∑ k ∈ Finset.Ico (A.rowPtr.toArray.getD i 0) (A.rowPtr.toArray.getD (i + 1) 0),
      if (A.columns.toArray.map Fin.val).getD k 0 = j then A.values.toArray.getD k 0 else 0 := by
  have hptr : ∀ q : Fin (r + 1), A.rowPtr.toArray.getD q.val 0 = A.rowPtr.get q := fun q =>
    (Vector.get_mk_eq_getD A.rowPtr.toArray A.rowPtr.size_toArray q 0).symm
  have hstart : A.rowPtr.toArray.getD i 0 = A.rowPtr.get i.castSucc := hptr i.castSucc
  have hstop : A.rowPtr.toArray.getD (i + 1) 0 = A.rowPtr.get i.succ := hptr i.succ
  have hlast : A.rowPtr.get i.succ ≤ A.stored := by
    have := A.rowPtr_monotone (Fin.le_last i.succ)
    rwa [A.rowPtr_last] at this
  let weight : Fin c × S → S := fun e => if e.1 = j then e.2 else 0
  have hentry : A.entry i j = ((A.row i).map weight).sum := sumAt_eq_sum (A.row i) j
  rw [hentry, row, List.map_take, List.map_drop, sum_slice _ (by
    rw [List.length_map, length_entries]; exact hlast), hstart, hstop]
  refine Finset.sum_congr rfl fun k hk => ?_
  have hk : k < A.stored := by
    have := (Finset.mem_Ico.1 hk).2
    omega
  simp [weight, entries, hk, Fin.ext_iff]

/-! ## Columns that occur -/

theorem get_referenced_injective (A : Csr S r c) : Function.Injective A.referenced.get :=
  List.nodup_iff_injective_get.1 (A.pairwise_referenced.imp ne_of_lt)

/-- **Columns that occur**: the entries on the referenced columns. -/
theorem entry_compressed [AddCommMonoid S] (A : Csr S r c) (i : Fin r)
    (k : Fin A.referenced.length) : A.compressed.entry i k = A.entry i (A.referenced.get k) := by
  have hfull : A.entry i (A.referenced.get k) = sumAt (A.row i) (A.referenced.get k) := rfl
  rw [hfull, ← A.row_compressed i]
  exact (sumAt_rename fun e _ => A.get_referenced_injective.eq_iff).symm

/-! ## The result -/

/-- **The result**: where the number of rows is in range, three arrays are accepted just if they
    describe a matrix, and refused if they do not.  For an accepted matrix every view gives the
    same entries, which are sums of stored values: reading by numbers, the product, the transposed
    product and the matrix written out.  The referenced columns are those that are stored, ascending,
    each once; on them the matrix has its entries, and the product with the values of a vector at
    these columns is the product with the vector. -/
theorem views_agree [NonUnitalNonAssocSemiring S] (r c : Nat) (rowPtr colIdx : Array Nat)
    (values : Array S) :
    ((∃ A : Csr S r c, ofArrays r c rowPtr colIdx values = .ok A) ↔
      r + 1 < Size.limit ∧ Describes r c rowPtr colIdx values) ∧
    (r + 1 < Size.limit → ¬ Describes r c rowPtr colIdx values →
      ∃ why, ofArrays r c rowPtr colIdx values = .fault why) ∧
    ∀ A : Csr S r c, ofArrays r c rowPtr colIdx values = .ok A →
      (∀ i j, A.entry i j =
        ∑ k ∈ Finset.Ico (rowPtr.getD i 0) (rowPtr.getD (i + 1) 0),
          if colIdx.getD k 0 = j then values.getD k 0 else 0) ∧
      (∀ (i : Fin r) (j : Fin c), A.entryAt i j = .ok (A.entry i j)) ∧
      (∀ x i, (A.mulVec x).get i = ∑ j, A.entry i j * x.get j) ∧
      (∀ y j, (A.mulVecTranspose y).get j = ∑ i, A.entry i j * y.get i) ∧
      (∀ i j, (A.toRows.get i).get j = A.entry i j) ∧
      A.referenced.Pairwise (· < ·) ∧ (∀ j, j ∈ A.referenced ↔ j.val ∈ colIdx) ∧
      (∀ i k, A.compressed.entry i k = A.entry i (A.referenced.get k)) ∧
      ∀ (x : Vector S c) (y : Vector S A.referenced.length),
        (∀ k, y.get k = x.get (A.referenced.get k)) → A.compressed.mulVec y = A.mulVec x := by
  refine ⟨exists_ofArrays_iff, fun hr hnot => ?_, fun A h => ?_⟩
  · rcases ofArrays_cases c rowPtr colIdx values hr with ⟨describes, -⟩ | ⟨-, hwhy⟩
    · exact absurd describes hnot
    · exact hwhy
  obtain ⟨-, rfl, rfl, rfl⟩ := ofArrays_eq_ok_iff.1 h
  refine ⟨A.entry_eq_sum_stored, A.entryAt_eq, A.get_mulVec, A.get_mulVecTranspose,
    fun i j => ?_, A.pairwise_referenced, fun j => ?_, A.entry_compressed, fun x y hy => ?_⟩
  · rw [toRows, Vector.get_ofFn_eq, Vector.get_ofFn_eq]
  · rw [mem_referenced, Array.mem_map]
    constructor
    · intro hj
      exact ⟨j, Array.mem_def.2 hj, rfl⟩
    · rintro ⟨j', hj', heq⟩
      exact Fin.ext heq ▸ Array.mem_def.1 hj'
  · refine Vector.ext_get fun i => ?_
    rw [A.get_mulVec_compressed x.get y hy, A.get_mulVec]

/-! ### One row that stores something -/

/-- So it is for a row that is stored out of order and in parts, above an empty one; arrays whose
    pointers go back are refused. -/
theorem views_agree_inParts :
    (∃ A : Csr Int 2 4, ofArrays 2 4 #[0, 3, 3] #[3, 1, 3] #[1, 2, -4] = .ok A ∧
      (∀ j, A.entry 0 j = #v[0, 2, 0, -3].get j) ∧ A.referenced = [1, 3] ∧
      (∀ x, (A.mulVec x).get 0 = 2 * x.get 1 + -3 * x.get 3) ∧
      ∀ (x : Vector Int 4) (y : Vector Int A.referenced.length),
        (∀ k, y.get k = x.get (A.referenced.get k)) → A.compressed.mulVec y = A.mulVec x) ∧
    ∃ why, (ofArrays 2 4 #[0, 4, 3] #[3, 1, 3] #[1, 2, -4] : Outcome (Csr Int 2 4)) =
      .fault why := by
  obtain ⟨haccepts, -, hviews⟩ := views_agree 2 4 #[0, 3, 3] #[3, 1, 3] (#[1, 2, -4] : Array Int)
  obtain ⟨-, hrefuses, -⟩ := views_agree 2 4 #[0, 4, 3] #[3, 1, 3] (#[1, 2, -4] : Array Int)
  obtain ⟨A, hA⟩ := haccepts.2 ⟨by decide, by decide⟩
  obtain ⟨hentry, -, hmul, -, -, hascending, hmem, -, hcompressed⟩ := hviews A hA
  have hrow : ∀ j, A.entry 0 j = #v[0, 2, 0, -3].get j := by
    intro j
    rw [hentry]
    revert j
    decide +kernel
  refine ⟨⟨A, hA, hrow, ?_, fun x => ?_, hcompressed⟩, hrefuses (by decide) (by decide)⟩
  · have hperm : A.referenced.Perm [1, 3] := by
      refine (List.perm_ext_iff_of_nodup (hascending.imp ne_of_lt) (by decide)).2 fun j => ?_
      rw [hmem]
      revert j
      decide +kernel
    exact hperm.eq_of_pairwise (fun a b _ _ hab hba => absurd hba (lt_asymm hab)) hascending
      (by decide)
  · rw [hmul, Fin.sum_univ_four, hrow, hrow, hrow, hrow]
    simp [Vector.get]

end Csr

end Condensation
