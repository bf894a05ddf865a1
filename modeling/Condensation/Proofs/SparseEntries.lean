/-
  Sparse entries — what a matrix in compressed rows does depends on its summed entries only.

  1. **Keyed values** — `sumAt l i` is what a list of keyed values holds at the key `i`.  Neither
     the order of the list nor how it is cut into parts matters.

  2. **Rows** — a row adds up to its entries whatever the weights are (`sum_row`): a position that
     is stored several times counts once, with the sum.  Hence both products are the products
     with the entries (`get_mulVec`, `get_mulVecTranspose`).  `valueAt` is the entry in a column
     given by number.

  3. **Compression** — on the referenced columns the rows are the same (`row_compressed`), so a
     product needs the vector at these columns only.

  4. **Construction** — three arrays whose slices are given rows describe the matrix with exactly
     these rows (`ofParts_of_slices`).

  5. **Storage** — conversely the arrays of a matrix describe one (`describes`), and the rows say
     everything: matrices with the same stored rows store the same arrays (`ext_row`).
-/
import Condensation.Algebra.Sparse
import Condensation.Algebra.Sparse.Columns
import Condensation.Proofs.Operators
import Condensation.Proofs.Sizes

namespace Condensation

variable {S : Type} {r c : Nat}

/-! ## Keyed values -/

section KeyedValues

variable {ι κ : Type} [DecidableEq ι] [DecidableEq κ]

/-- The sum of the values that a list of keyed values holds at `i`. -/
def sumAt [Zero S] [Add S] (l : List (ι × S)) (i : ι) : S :=
  ((l.filter fun e => e.1 = i).map (·.2)).sum

/-- Among entries with different keys, each is found by its key. -/
theorem filter_key_eq {l : List (ι × S)}
    (h : (l.map Prod.fst).Nodup) {e : ι × S} (he : e ∈ l) :
    (l.filter fun e' => e'.1 = e.1) = [e] := by
  induction l with
  | nil => exact absurd he List.not_mem_nil
  | cons a rest ih =>
    obtain ⟨ha, hrest⟩ := List.nodup_cons.1 h
    rcases List.mem_cons.1 he with rfl | he
    · have hnone : (rest.filter fun e' => e'.1 = e.1) = [] := by
        refine List.filter_eq_nil_iff.2 fun e' he' => ?_
        simp only [decide_eq_true_eq]
        exact fun heq => ha (heq ▸ List.mem_map_of_mem he')
      rw [List.filter_cons_of_pos (by simp), hnone]
    · have hne : a.1 ≠ e.1 := fun heq => ha (heq ▸ List.mem_map_of_mem he)
      rw [List.filter_cons_of_neg (by simpa using hne), ih hrest he]

@[simp] theorem sumAt_nil [Zero S] [Add S] (i : ι) : sumAt ([] : List (ι × S)) i = 0 := rfl

variable [AddCommMonoid S]

@[simp] theorem sumAt_cons (e : ι × S) (l : List (ι × S)) (i : ι) :
    sumAt (e :: l) i = (if e.1 = i then e.2 else 0) + sumAt l i := by
  by_cases h : e.1 = i
  · simp [sumAt, h]
  · simp [sumAt, h]

theorem sumAt_eq_sum (l : List (ι × S)) (i : ι) :
    sumAt l i = (l.map fun e => if e.1 = i then e.2 else 0).sum := by
  rw [sumAt, sum_filter]
  simp

theorem sumAt_append (l l' : List (ι × S)) (i : ι) :
    sumAt (l ++ l') i = sumAt l i + sumAt l' i := by
  simp [sumAt]

theorem sumAt_flatten (ls : List (List (ι × S))) (i : ι) :
    sumAt ls.flatten i = (ls.map fun l => sumAt l i).sum := by
  induction ls with
  | nil => rfl
  | cons l rest ih => rw [List.flatten_cons, sumAt_append, ih, List.map_cons, List.sum_cons]

/-- A key that does not occur holds nothing. -/
theorem sumAt_eq_zero {l : List (ι × S)} {i : ι} (h : ∀ e ∈ l, e.1 ≠ i) : sumAt l i = 0 := by
  have hnone : (l.filter fun e => e.1 = i) = [] :=
    List.filter_eq_nil_iff.2 fun e he => by simpa using h e he
  rw [sumAt, hnone]
  rfl

theorem sumAt_perm {l l' : List (ι × S)} (h : l.Perm l') (i : ι) : sumAt l i = sumAt l' i :=
  ((h.filter _).map _).sum_eq

/-- Where the keys are different, each of them holds the one value that is listed for it. -/
theorem sumAt_of_mem {l : List (ι × S)} (h : (l.map Prod.fst).Nodup) {e : ι × S} (he : e ∈ l) :
    sumAt l e.1 = e.2 := by
  rw [sumAt, filter_key_eq h he]
  simp

/-- Leaving out values at other keys changes nothing. -/
theorem sumAt_filter {l : List (ι × S)} {p : ι × S → Bool} {i : ι}
    (h : ∀ e ∈ l, e.1 = i → p e = true) : sumAt (l.filter p) i = sumAt l i := by
  rw [sumAt, sumAt, List.filter_filter]
  refine congrArg (fun l' : List (ι × S) => (l'.map (·.2)).sum) (List.filter_congr fun e he => ?_)
  by_cases hi : e.1 = i
  · simp [hi, h e he hi]
  · simp [hi]

/-- Renaming the keys, where exactly `i` becomes `k`. -/
theorem sumAt_rename {l : List (ι × S)} {f : ι → κ} {i : ι} {k : κ}
    (h : ∀ e ∈ l, f e.1 = k ↔ e.1 = i) : sumAt (l.map fun e => (f e.1, e.2)) k = sumAt l i := by
  induction l with
  | nil => rfl
  | cons e rest ih =>
    have he : f e.1 = k ↔ e.1 = i := h e (by simp)
    have hrest := ih fun e' he' => h e' (by simp [he'])
    rw [List.map_cons, sumAt_cons, sumAt_cons, hrest]
    simp only [he]

end KeyedValues

/-- A weighted list of keyed values is the weighted sum of what it holds at its keys. -/
theorem sum_weighted_eq [NonUnitalNonAssocSemiring S] (l : List (Fin c × S)) (f : Fin c → S) :
    (l.map fun e => e.2 * f e.1).sum = ∑ j, sumAt l j * f j := by
  induction l with
  | nil => simp
  | cons e rest ih =>
    simp only [List.map_cons, List.sum_cons, ih, sumAt_cons, add_mul, Finset.sum_add_distrib]
    simp

namespace Csr

/-! ## Products -/

section Products

variable [NonUnitalNonAssocSemiring S]

/-- **Rows**: a weighted row is the weighted sum of its entries. -/
theorem sum_row (A : Csr S r c) (i : Fin r) (f : Fin c → S) :
    ((A.row i).map fun e => e.2 * f e.1).sum = ∑ j, A.entry i j * f j :=
  sum_weighted_eq _ f

theorem get_mulVec (A : Csr S r c) (x : Vector S c) (i : Fin r) :
    (A.mulVec x).get i = ∑ j, A.entry i j * x.get j := by
  rw [mulVec, Vector.get_ofFn_eq]
  exact A.sum_row i x.get

theorem get_scatter (factor : S) (y : Vector S c) (e : Fin c × S) (j : Fin c) :
    (scatter factor y e).get j = y.get j + if e.1 = j then e.2 * factor else 0 := by
  unfold scatter
  by_cases h : e.1 = j
  · subst h
    simp
  · rw [Vector.get_put_of_ne _ _ h]
    simp [h]

/-- Scattering a row adds its entries, with the factor. -/
theorem get_foldl_scatter (factor : S) (l : List (Fin c × S)) (y : Vector S c) (j : Fin c) :
    (l.foldl (scatter factor) y).get j =
      y.get j + ((l.filter fun e => e.1 = j).map (·.2)).sum * factor := by
  induction l generalizing y with
  | nil => simp
  | cons e rest ih =>
    rw [List.foldl_cons, ih, get_scatter]
    by_cases h : e.1 = j
    · simp [h, add_mul, add_assoc]
    · simp [h]

theorem get_mulVecTranspose (A : Csr S r c) (x : Vector S r) (j : Fin c) :
    (A.mulVecTranspose x).get j = ∑ i, A.entry i j * x.get i := by
  have rows : ∀ (is : List (Fin r)) (y : Vector S c),
      (is.foldl (fun y i => (A.row i).foldl (scatter (x.get i)) y) y).get j =
        y.get j + (is.map fun i => A.entry i j * x.get i).sum := by
    intro is
    induction is with
    | nil => simp
    | cons i rest ih =>
      intro y
      rw [List.foldl_cons, ih, get_foldl_scatter, List.map_cons, List.sum_cons, add_assoc]
      rfl
  rw [mulVecTranspose, rows, Vector.get_replicate_eq, zero_add, ← List.ofFn_eq_map, List.sum_ofFn]

end Products

/-! ## Columns by number -/

/-- What row `i` holds in the column with number `t`; nothing beyond the last column. -/
def valueAt [Zero S] [Add S] (A : Csr S r c) (i : Fin r) (t : Nat) : S :=
  sumAt ((A.row i).map fun e => (e.1.val, e.2)) t

/-- Reading what a row holds, by numbers. -/
theorem entryAt_eq_valueAt [Zero S] [Add S] (A : Csr S r c) (i : Fin r) (t : Nat) :
    A.entryAt i t = .ok (A.valueAt i t) := by
  have hrow : A.rowAt i = .ok (A.row i) := dif_pos i.isLt
  rw [entryAt, hrow, Outcome.ok_bind, valueAt, sumAt, List.filter_map, List.map_map]
  rfl

theorem entryAt_eq [Zero S] [Add S] (A : Csr S r c) (i : Fin r) (j : Fin c) :
    A.entryAt i j = .ok (A.entry i j) := by
  rw [entryAt_eq_valueAt, valueAt, sumAt, entry, List.filter_map, List.map_map]
  simp only [Function.comp_def, Fin.ext_iff]

theorem valueAt_eq_entry [AddCommMonoid S] (A : Csr S r c) (i : Fin r) (j : Fin c) :
    A.valueAt i j = A.entry i j :=
  sumAt_rename fun e _ => by simp [Fin.ext_iff]

theorem valueAt_of_le [AddCommMonoid S] (A : Csr S r c) (i : Fin r) {t : Nat} (h : c ≤ t) :
    A.valueAt i t = 0 := by
  refine sumAt_eq_zero fun e he => ?_
  obtain ⟨q, -, rfl⟩ := List.mem_map.1 he
  have hq := q.1.isLt
  show ¬ q.1.val = t
  omega

/-! ## Referenced columns -/

/-- In an ascending list without repetitions, a member is found at its rank. -/
theorem get_rankIn {j : Fin c} {l : List (Fin c)} (hl : l.Pairwise (· < ·)) (hj : j ∈ l) :
    l.get ⟨rankIn j l, rankIn_lt hj⟩ = j := by
  induction l with
  | nil => simp at hj
  | cons a rest ih =>
    obtain ⟨ha, hrest⟩ := List.pairwise_cons.1 hl
    rcases List.mem_cons.1 hj with rfl | hj'
    · simp [rankIn]
    · have haj : a < j := ha j hj'
      have hrank : rankIn j (a :: rest) = rankIn j rest + 1 := by
        simp [rankIn, haj]
      have := ih hrest hj'
      simp only [List.get_eq_getElem, hrank, List.getElem_cons_succ] at this ⊢
      exact this

theorem pairwise_distinct {l : List (Fin c)} (hl : l.Pairwise (· ≤ ·)) :
    (distinct l).Pairwise (· < ·) := by
  fun_induction distinct l with
  | case1 a rest ih => exact ih (List.pairwise_cons.1 hl).2
  | case2 a b rest hab ih =>
    obtain ⟨ha, hrest⟩ := List.pairwise_cons.1 hl
    refine List.pairwise_cons.2 ⟨fun x hx => ?_, ih hrest⟩
    have hbx : b ≤ x := by
      rcases List.mem_cons.1 (mem_distinct.1 hx) with rfl | hx
      · exact le_refl _
      · exact (List.pairwise_cons.1 hrest).1 x hx
    exact lt_of_lt_of_le (lt_of_le_of_ne (ha b (by simp)) hab) hbx
  | case3 l hshort =>
    rcases l with _ | ⟨a, _ | ⟨b, rest⟩⟩
    · simp
    · simp
    · exact absurd rfl (hshort a b rest)

/-- The referenced columns ascend, each once. -/
theorem pairwise_referenced (A : Csr S r c) : A.referenced.Pairwise (· < ·) := by
  refine pairwise_distinct ?_
  have := @List.pairwise_mergeSort _ (fun a b : Fin c => decide (a ≤ b))
    (by intro a b d hab hbd; simp only [decide_eq_true_eq] at *; exact le_trans hab hbd)
    (by intro a b; simp only [Bool.or_eq_true, decide_eq_true_eq]; exact le_total a b)
    A.columns.toList
  exact this.imp fun h => by simpa using h

/-- The referenced column at the position of a stored entry is the column of that entry. -/
theorem get_position (A : Csr S r c) (k : Fin A.stored) :
    A.referenced.get (A.position k) = A.columns.get k :=
  get_rankIn A.pairwise_referenced (mem_referenced.2 (Vector.get_mem_toList _ k))

/-- **Compression**: with the columns named in full again, the rows are the same. -/
theorem row_compressed (A : Csr S r c) (i : Fin r) :
    (A.compressed.row i).map (fun e => (A.referenced.get e.1, e.2)) = A.row i := by
  have columns : (Vector.ofFn A.position).toList.map (A.referenced.get ·) = A.columns.toList := by
    refine List.ext_getElem (by simp) fun k h1 h2 => ?_
    have hk : k < A.stored := by simpa using h2
    rw [List.getElem_map, Vector.getElem_toList, Vector.getElem_toList, Vector.getElem_ofFn]
    exact A.get_position ⟨k, hk⟩
  have entries : A.compressed.entries.map (fun e => (A.referenced.get e.1, e.2)) = A.entries := by
    have : A.compressed.entries = (Vector.ofFn A.position).toList.zip A.values.toList := rfl
    rw [this, entries, ← columns, List.zip_map_left]
    rfl
  rw [row, List.map_take, List.map_drop, entries]
  rfl

/-- A product on the referenced columns is the product with the vector that they were taken
    from. -/
theorem get_mulVec_compressed [NonUnitalNonAssocSemiring S] (A : Csr S r c) (f : Fin c → S)
    (x : Vector S A.referenced.length) (hx : ∀ k, x.get k = f (A.referenced.get k)) (i : Fin r) :
    (A.compressed.mulVec x).get i = ∑ j, A.entry i j * f j := by
  rw [← A.sum_row i f, ← A.row_compressed i, List.map_map, mulVec, Vector.get_ofFn_eq]
  refine congrArg List.sum (List.map_congr_left fun e _ => ?_)
  rw [hx]
  rfl

/-! ## Construction -/

/-- Arrays whose slices are given rows describe a matrix. -/
theorem describes_of_slices {rowPtr colIdx : Array Nat} {values : Array S}
    (rows : Fin r → List (Fin c × S)) (start : Nat → Nat) (h0 : start 0 = 0)
    (hstep : ∀ i : Fin r, start (i + 1) = start i + (rows i).length)
    (hsize : rowPtr.size = r + 1) (hptr : ∀ i, i ≤ r → rowPtr.getD i 0 = start i)
    (hcols : colIdx.size = start r) (hvals : values.size = start r)
    (hcolRows : ∀ i : Fin r, (colIdx.toList.drop (start i)).take (rows i).length =
      (rows i).map (·.1.val)) : Describes r c rowPtr colIdx values := by
  refine ⟨hsize, by omega, by rw [hptr 0 (by omega), h0], by rw [hptr r le_rfl, hcols], ?_, ?_⟩
  · intro i
    rw [hptr i (by omega), hptr (i + 1) (by omega), hstep]
    omega
  · intro k
    have hk : k.val < start r := by
      rw [← hcols]
      exact k.isLt
    obtain ⟨i, hi, hle, hlt⟩ := Size.exists_part h0 hk
    have hstep' : start (i + 1) = start i + (rows ⟨i, hi⟩).length := hstep ⟨i, hi⟩
    have hmem : colIdx[k] ∈ (colIdx.toList.drop (start i)).take (rows ⟨i, hi⟩).length := by
      have hlen : k.val - start i <
          ((colIdx.toList.drop (start i)).take (rows ⟨i, hi⟩).length).length := by
        have hsizes : colIdx.toList.length = colIdx.size := Array.length_toList
        rw [List.length_take, List.length_drop]
        omega
      refine List.mem_iff_getElem.2 ⟨k.val - start i, hlen, ?_⟩
      simp [Nat.add_sub_cancel' hle]
    rw [hcolRows ⟨i, hi⟩] at hmem
    obtain ⟨e, -, he⟩ := List.mem_map.1 hmem
    rw [← he]
    exact e.1.isLt

/-- **Construction**: such arrays describe the matrix with these rows. -/
theorem ofParts_of_slices {rowPtr colIdx : Array Nat} {values : Array S}
    (rows : Fin r → List (Fin c × S)) (start : Nat → Nat) (h0 : start 0 = 0)
    (hstep : ∀ i : Fin r, start (i + 1) = start i + (rows i).length)
    (hsize : rowPtr.size = r + 1) (hptr : ∀ i, i ≤ r → rowPtr.getD i 0 = start i)
    (hcols : colIdx.size = start r) (hvals : values.size = start r)
    (hcolRows : ∀ i : Fin r, (colIdx.toList.drop (start i)).take (rows i).length =
      (rows i).map (·.1.val))
    (hvalRows : ∀ i : Fin r, (values.toList.drop (start i)).take (rows i).length =
      (rows i).map (·.2)) :
    ∃ A, ofParts r c rowPtr colIdx values = .ok A ∧ ∀ i, A.row i = rows i := by
  have describes := describes_of_slices rows start h0 hstep hsize hptr hcols hvals hcolRows
  refine ⟨_, Outcome.ofOption_eq_ok_iff.2 (dif_pos describes), fun i => ?_⟩
  -- the stored columns are those of the array, so both rows agree once their columns are numbers
  have inj : Function.Injective fun e : Fin c × S => (e.1.val, e.2) := by
    rintro ⟨a, v⟩ ⟨b, w⟩ h
    simp only [Prod.mk.injEq] at h
    rw [Fin.ext h.1, h.2]
  refine List.map_injective_iff.2 inj ?_
  have hptr1 : (Vector.mk rowPtr hsize).get i.castSucc = start i := by
    rw [Vector.get_mk_eq_getD _ _ _ 0]
    exact hptr i (by omega)
  have hptr2 : (Vector.mk rowPtr hsize).get i.succ = start (i + 1) := by
    rw [Vector.get_mk_eq_getD _ _ _ 0]
    exact hptr (i + 1) (by omega)
  have hlen : start (i + 1) - start i = (rows i).length := by
    have := hstep i
    omega
  have hcolumns : (Vector.ofFn fun k : Fin colIdx.size =>
      (⟨colIdx[k], describes.inside k⟩ : Fin c)).toList.map Fin.val = colIdx.toList := by
    refine List.ext_getElem (by simp) fun k h1 h2 => ?_
    simp
  have hentries : ((Vector.ofFn fun k : Fin colIdx.size =>
      (⟨colIdx[k], describes.inside k⟩ : Fin c)).toList.zip values.toList).map
        (fun e => (e.1.val, e.2)) = colIdx.toList.zip values.toList := by
    conv_rhs => rw [← hcolumns, List.zip_map_left]
    rfl
  have hrow : (rows i).map (fun e => (e.1.val, e.2)) =
      ((rows i).map (·.1.val)).zip ((rows i).map (·.2)) := by
    rw [List.zip_map']
  rw [hrow, ← hcolRows, ← hvalRows]
  simp only [row, Csr.entries, hptr1, hptr2, hlen, List.map_take, List.map_drop]
  show ((((Vector.ofFn fun k : Fin colIdx.size =>
      (⟨colIdx[k], describes.inside k⟩ : Fin c)).toList.zip values.toList).map
        (fun e => (e.1.val, e.2))).drop (start i)).take (rows i).length = _
  rw [hentries, List.zip, List.drop_zipWith, List.take_zipWith]

/-! ## Storage -/

/-- The arrays of a matrix describe one. -/
theorem describes (A : Csr S r c) :
    Describes r c A.rowPtr.toArray (A.columns.toArray.map Fin.val) A.values.toArray := by
  have hptr : ∀ i : Fin (r + 1), A.rowPtr.toArray.getD i.val 0 = A.rowPtr.get i := fun i =>
    (Vector.get_mk_eq_getD A.rowPtr.toArray A.rowPtr.size_toArray i 0).symm
  constructor
  case rows => exact A.rowPtr.size_toArray
  case paired => simp
  case first => exact (hptr ⟨0, Nat.succ_pos r⟩).trans A.rowPtr_zero
  case last =>
    rw [Array.size_map, Vector.size_toArray]
    exact (hptr (Fin.last r)).trans A.rowPtr_last
  case mono =>
    intro i
    have hi := A.rowPtr_mono i
    rw [← hptr, ← hptr] at hi
    exact hi
  case inside =>
    intro k
    simp

theorem rowPtr_monotone (A : Csr S r c) : Monotone A.rowPtr.get :=
  Fin.monotone_iff_le_succ.2 A.rowPtr_mono

theorem length_entries (A : Csr S r c) : A.entries.length = A.stored := by
  simp [entries]

theorem map_fst_entries (A : Csr S r c) : A.entries.map (·.1) = A.columns.toList := by
  rw [entries, List.map_fst_zip (by simp)]

theorem map_snd_entries (A : Csr S r c) : A.entries.map (·.2) = A.values.toList := by
  rw [entries, List.map_snd_zip (by simp)]

theorem length_row (A : Csr S r c) (i : Fin r) :
    (A.row i).length = A.rowPtr.get i.succ - A.rowPtr.get i.castSucc := by
  have hlast := A.rowPtr_monotone (Fin.le_last i.succ)
  rw [A.rowPtr_last] at hlast
  rw [row, List.length_take, List.length_drop, length_entries]
  omega

/-- Every row takes as many places as it stores. -/
theorem rowPtr_succ (A : Csr S r c) (i : Fin r) :
    A.rowPtr.get i.succ = A.rowPtr.get i.castSucc + (A.row i).length := by
  have := A.rowPtr_mono i
  rw [A.length_row]
  omega

/-- Slices that follow each other make up one slice. -/
theorem flatten_slices {α : Type} (l : List α) {n : Nat} (start : Fin (n + 1) → Nat)
    (hstart : Monotone start) :
    (List.ofFn fun i : Fin n => (l.drop (start i.castSucc)).take
      (start i.succ - start i.castSucc)).flatten =
        (l.drop (start 0)).take (start (Fin.last n) - start 0) := by
  induction n with
  | zero => simp
  | succ n ih =>
    have htail : Monotone fun i : Fin (n + 1) => start i.succ :=
      fun i j h => hstart (Fin.succ_le_succ_iff.2 h)
    have hrest := ih (fun i => start i.succ) htail
    have h1 : start 0 ≤ start 1 := hstart (Fin.zero_le _)
    have h2 : start 1 ≤ start (Fin.last (n + 1)) := hstart (Fin.le_last _)
    have hsplit : start (Fin.last (n + 1)) - start 0 =
        (start 1 - start 0) + (start (Fin.last (n + 1)) - start 1) := by omega
    rw [List.ofFn_succ, List.flatten_cons]
    simp only [Fin.succ_zero_eq_one, Fin.castSucc_zero, Fin.succ_last] at hrest ⊢
    rw [hsplit, List.take_add, List.drop_drop, Nat.add_sub_cancel' h1, ← hrest]
    rfl

/-- A matrix stores its rows one after another. -/
theorem flatten_rows (A : Csr S r c) : (List.ofFn A.row).flatten = A.entries := by
  have h0 : A.rowPtr.get 0 = 0 := A.rowPtr_zero
  have h := flatten_slices A.entries A.rowPtr.get A.rowPtr_monotone
  rw [h0, A.rowPtr_last, List.drop_zero, Nat.sub_zero, List.take_of_length_le (by
    rw [length_entries])] at h
  exact h

/-- Matrices with the same row pointer and the same stored arrays. -/
theorem ext_arrays {A B : Csr S r c} (hptr : A.rowPtr = B.rowPtr)
    (hcolumns : A.columns.toList = B.columns.toList) (hvalues : A.values.toList = B.values.toList) :
    A = B := by
  obtain ⟨stored, rowPtr, columns, values, _, _, _⟩ := A
  obtain ⟨stored', rowPtr', columns', values', _, _, _⟩ := B
  obtain rfl : stored = stored' := by simpa using congrArg List.length hcolumns
  obtain rfl : rowPtr = rowPtr' := hptr
  obtain rfl : columns = columns' := Vector.toList_inj.1 hcolumns
  obtain rfl : values = values' := Vector.toList_inj.1 hvalues
  rfl

/-- **Storage**: a matrix is determined by its rows. -/
theorem ext_row {A B : Csr S r c} (h : ∀ i, A.row i = B.row i) : A = B := by
  have hentries : A.entries = B.entries := by
    rw [← flatten_rows, ← flatten_rows, funext h]
  have hptr : ∀ i, A.rowPtr.get i = B.rowPtr.get i := by
    intro i
    induction i using Fin.induction with
    | zero => exact A.rowPtr_zero.trans B.rowPtr_zero.symm
    | succ i ih =>
      have hlen := congrArg List.length (h i)
      rw [length_row, length_row] at hlen
      have hA := A.rowPtr_mono i
      have hB := B.rowPtr_mono i
      omega
  refine ext_arrays (Vector.ext_get hptr) ?_ ?_
  · rw [← map_fst_entries, hentries, map_fst_entries]
  · rw [← map_snd_entries, hentries, map_snd_entries]

end Csr

end Condensation
