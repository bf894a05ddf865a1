/-
  Triplet sums — a matrix built from triplets holds, at every position, the sum of the values given
  for it.

  1. **Merging** — neighbors with equal positions are added up, and nothing else happens: the sums at
     all positions stay (`sumAt_merge`), and no new row or column comes in (`exists_of_mem_merge`).

  2. **Rows** — the merged triplets are in the order of their rows, so row `i` is stored behind as
     many entries as there are in smaller rows.  This is what the row pointer counts.  A row that
     one triplet lies in stores this one (`row_of_ofTriplets`).

  3. **The result (`ofTriplets_returns`)** — triplets inside the matrix are never refused, and every
     entry is the sum of what was given.
-/
import Condensation.Algebra.Sparse.Triplets
import Condensation.Proofs.Cutting
import Condensation.Proofs.SparseEntries

namespace Condensation

variable {S : Type} {r c : Nat}

namespace Triplet

/-- The values of some triplets, keyed by their positions. -/
def keyed (ts : List (Triplet S)) : List ((Nat × Nat) × S) :=
  ts.map fun t => ((t.row, t.column), t.value)

theorem keyed_perm {ts us : List (Triplet S)} (h : ts.Perm us) : (keyed ts).Perm (keyed us) :=
  h.map _

/-! ## Merging -/

theorem sumAt_merge [AddCommMonoid S] (ts : List (Triplet S)) (p : Nat × Nat) :
    sumAt (keyed (merge ts)) p = sumAt (keyed ts) p := by
  fun_induction merge ts with
  | case1 a b rest h ih =>
    obtain ⟨hrow, hcolumn⟩ := h
    rw [ih]
    simp only [keyed, List.map_cons, sumAt_cons, hrow, hcolumn]
    split
    · rw [add_assoc]
    · simp only [zero_add]
  | case2 a b rest h ih =>
    have hcons : ∀ ts, sumAt (keyed (a :: ts)) p =
        (if (a.row, a.column) = p then a.value else 0) + sumAt (keyed ts) p :=
      fun ts => sumAt_cons _ _ _
    rw [hcons, hcons, ih]
  | case3 => rfl

/-- A merged triplet stands where one of the given triplets stands. -/
theorem exists_of_mem_merge [Add S] {ts : List (Triplet S)} {t : Triplet S} (ht : t ∈ merge ts) :
    ∃ u ∈ ts, u.row = t.row ∧ u.column = t.column := by
  fun_induction merge ts with
  | case1 a b rest h ih =>
    obtain ⟨u, hu, hpos⟩ := ih ht
    rcases List.mem_cons.1 hu with rfl | hu
    · exact ⟨a, by simp, hpos⟩
    · exact ⟨u, by simp [hu], hpos⟩
  | case2 a b rest h ih =>
    rcases List.mem_cons.1 ht with rfl | ht
    · exact ⟨t, by simp, rfl, rfl⟩
    · obtain ⟨u, hu, hpos⟩ := ih ht
      exact ⟨u, List.mem_cons_of_mem _ hu, hpos⟩
  | case3 ts => exact ⟨t, ht, rfl, rfl⟩

/-- Merging keeps the order of the rows. -/
theorem pairwise_merge [Add S] {ts : List (Triplet S)}
    (h : ts.Pairwise fun a b => a.row ≤ b.row) :
    (merge ts).Pairwise fun a b => a.row ≤ b.row := by
  fun_induction merge ts with
  | case1 a b rest hab ih =>
    refine ih ?_
    obtain ⟨ha, hrest⟩ := List.pairwise_cons.1 h
    refine List.pairwise_cons.2 ⟨fun u hu => ?_, (List.pairwise_cons.1 hrest).2⟩
    exact ha u (List.mem_cons_of_mem _ hu)
  | case2 a b rest hab ih =>
    obtain ⟨ha, hrest⟩ := List.pairwise_cons.1 h
    refine List.pairwise_cons.2 ⟨fun t ht => ?_, ih hrest⟩
    obtain ⟨u, hu, hrow, -⟩ := exists_of_mem_merge ht
    rw [← hrow]
    exact ha u hu
  | case3 => exact h

/-- Sorting by positions sorts by rows. -/
theorem pairwise_sorted (ts : List (Triplet S)) :
    (ts.mergeSort before).Pairwise fun a b => a.row ≤ b.row := by
  have hbefore : ∀ a b : Triplet S, before a b = true ↔
      a.row < b.row ∨ (a.row = b.row ∧ a.column ≤ b.column) := by
    intro a b
    simp [before]
  have htrans : ∀ a b d : Triplet S, before a b = true → before b d = true → before a d = true := by
    intro a b d hab hbd
    rw [hbefore] at *
    omega
  have htotal : ∀ a b : Triplet S, (before a b || before b a) = true := by
    intro a b
    rw [Bool.or_eq_true, hbefore, hbefore]
    omega
  refine (List.pairwise_mergeSort htrans htotal ts).imp fun {a b} hab => ?_
  rw [hbefore] at hab
  omega

/-- Triplets in different rows are not merged. -/
theorem merge_of_rows [Add S] {ts : List (Triplet S)}
    (h : ts.Pairwise fun a b => a.row ≠ b.row) : merge ts = ts := by
  fun_induction merge ts with
  | case1 a b rest heq ih =>
    exact absurd heq.1 (List.rel_of_pairwise_cons h (by simp))
  | case2 a b rest hne ih => rw [ih (List.pairwise_cons.1 h).2]
  | case3 => rfl

/-- Among triplets in different rows, one at most lies in a row. -/
theorem filter_row_eq {ts : List (Triplet S)} (h : ts.Pairwise fun a b => a.row ≠ b.row)
    {t : Triplet S} (ht : t ∈ ts) {i : Nat} (hi : t.row = i) :
    ts.filter (fun u => u.row = i) = [t] := by
  induction ts with
  | nil => simp at ht
  | cons a rest ih =>
    obtain ⟨ha, hrest⟩ := List.pairwise_cons.1 h
    rcases List.mem_cons.1 ht with rfl | ht
    · have hnone : rest.filter (fun u => u.row = i) = [] :=
        List.filter_eq_nil_iff.2 fun u hu hrow =>
          ha u hu (hi.trans (of_decide_eq_true hrow).symm)
      rw [List.filter_cons_of_pos (by simpa using hi), hnone]
    · have hne : ¬ a.row = i := fun hrow => ha t ht (hrow.trans hi.symm)
      rw [List.filter_cons_of_neg (by simpa using hne), ih hrest ht]

end Triplet

/-! ## Rows -/

namespace Csr

open Triplet

/-- The stored entries of row `i` among triplets that lie inside the matrix. -/
def rowOf (ts : List (Triplet S)) (hin : ∀ t ∈ ts, t.Inside r c) (i : Nat) : List (Fin c × S) :=
  (ts.filter fun t => t.row = i).pmap (fun t h => (⟨t.column, h⟩, t.value))
    fun t ht => (hin t (List.mem_of_mem_filter ht)).2

theorem length_rowOf (ts : List (Triplet S)) (hin : ∀ t ∈ ts, t.Inside r c) (i : Nat) :
    (rowOf ts hin i).length = ts.countP fun t => t.row = i := by
  rw [rowOf, List.length_pmap, List.countP_eq_length_filter]

theorem map_rowOf {β : Type} (ts : List (Triplet S)) (hin : ∀ t ∈ ts, t.Inside r c) (i : Nat)
    (f : Nat → S → β) :
    (rowOf ts hin i).map (fun e => f e.1.val e.2) =
      (ts.filter fun t => t.row = i).map fun t => f t.column t.value := by
  rw [rowOf, List.map_pmap]
  exact List.pmap_eq_map (f := fun t : Triplet S => f t.column t.value) _

theorem sumAt_rowOf [AddCommMonoid S] (ts : List (Triplet S)) (hin : ∀ t ∈ ts, t.Inside r c)
    (i : Nat) (j : Fin c) : sumAt (rowOf ts hin i) j = sumAt (keyed ts) (i, j.val) := by
  have hkeyed : (rowOf ts hin i).map (fun e => ((i, e.1.val), e.2)) =
      (keyed ts).filter fun e => e.1.1 = i := by
    rw [map_rowOf ts hin i fun column value => ((i, column), value), keyed, List.filter_map]
    refine List.map_congr_left fun t ht => ?_
    have : t.row = i := by simpa using (List.mem_filter.1 ht).2
    rw [this]
  have hrename : sumAt ((rowOf ts hin i).map fun e => ((i, e.1.val), e.2)) (i, j.val) =
      sumAt (rowOf ts hin i) j := by
    refine sumAt_rename (l := rowOf ts hin i) (f := fun k : Fin c => (i, k.val)) fun e _ => ?_
    simp [Fin.ext_iff]
  rw [← hrename, hkeyed]
  refine sumAt_filter fun e _ he => ?_
  simp [he]

/-- Merged triplets lie where the triplets lie. -/
theorem inside_merged [Add S] {ts : List (Triplet S)} (hin : ∀ t ∈ ts, t.Inside r c) :
    ∀ t ∈ merge (ts.mergeSort before), t.Inside r c := by
  intro t ht
  obtain ⟨u, hu, hrow, hcolumn⟩ := exists_of_mem_merge ht
  have := hin u ((List.mergeSort_perm _ _).mem_iff.1 hu)
  rwa [Inside, hrow, hcolumn] at this

/-- Triplets inside the matrix give the matrix with the rows of the merged triplets. -/
theorem ofTriplets_rows [Add S] {ts : List (Triplet S)} (hin : ∀ t ∈ ts, t.Inside r c) :
    ∃ A, ofTriplets r c ts = .ok A ∧
      ∀ i : Fin r, A.row i = rowOf (merge (ts.mergeSort before)) (inside_merged hin) i := by
  have hsorted : ∀ t ∈ ts.mergeSort before, t.Inside r c :=
    fun t ht => hin t ((List.mergeSort_perm _ _).mem_iff.1 ht)
  have hfound : (ts.mergeSort before).find? (fun t => ¬ t.Inside r c) = none := by
    refine List.find?_eq_none.2 fun t ht => ?_
    simpa using hsorted t ht
  let merged := merge (ts.mergeSort before)
  have hmerged : ∀ t ∈ merged, t.Inside r c := inside_merged hin
  have hrows : merged.Pairwise fun a b => a.row ≤ b.row := pairwise_merge (pairwise_sorted ts)
  have hall : merged.countP (fun t => t.row < r) = merged.length :=
    List.countP_eq_length.2 fun t ht => by simpa using (hmerged t ht).1
  obtain ⟨A, hA, hrow⟩ := @ofParts_of_slices S r c
    (Array.ofFn fun i : Fin (r + 1) => merged.countP fun t => t.row < i.val)
    (merged.map (·.column)).toArray (merged.map (·.value)).toArray
    (fun i => rowOf merged hmerged i) (fun i => merged.countP fun t => t.row < i) (by simp)
    (fun i => by rw [length_rowOf]; exact countP_lt_succ hrows i) (by simp)
    (fun i hi => by simp [Array.getD, Nat.lt_succ_of_le hi])
    (by simpa using hall.symm) (by simpa using hall.symm)
    (fun i => by
      rw [length_rowOf, map_rowOf merged hmerged i fun column _ => column, ← slice_eq hrows,
        List.map_take, List.map_drop])
    (fun i => by
      rw [length_rowOf, map_rowOf merged hmerged i fun _ value => value, ← slice_eq hrows,
        List.map_take, List.map_drop])
  refine ⟨A, ?_, hrow⟩
  rw [ofTriplets, hfound]
  exact hA

/-- **The result**: triplets inside the matrix give the matrix of their sums. -/
theorem ofTriplets_returns [AddCommMonoid S] {ts : List (Triplet S)}
    (hin : ∀ t ∈ ts, t.Inside r c) :
    ∃ A, ofTriplets r c ts = .ok A ∧ ∀ i j, A.entry i j = sumAt (keyed ts) (i.val, j.val) := by
  obtain ⟨A, hA, hrow⟩ := ofTriplets_rows hin
  refine ⟨A, hA, fun i j => ?_⟩
  have hentry : A.entry i j = sumAt (A.row i) j := rfl
  rw [hentry, hrow, sumAt_rowOf, sumAt_merge]
  exact sumAt_perm (keyed_perm (List.mergeSort_perm _ _)) _

/-- Triplets that were accepted lie inside the matrix. -/
theorem inside_of_ofTriplets [Add S] {ts : List (Triplet S)} {A : Csr S r c}
    (h : ofTriplets r c ts = .ok A) : ∀ t ∈ ts, t.Inside r c := by
  intro t ht
  cases hfind : (ts.mergeSort before).find? fun t => ¬ t.Inside r c with
  | some u =>
    rw [ofTriplets, hfind] at h
    simp at h
  | none =>
    have hsorted := List.find?_eq_none.1 hfind t ((List.mergeSort_perm _ _).mem_iff.2 ht)
    simpa using hsorted

/-- A row that one triplet lies in stores this one. -/
theorem row_of_ofTriplets [Add S] {ts : List (Triplet S)} {A : Csr S r c}
    (h : ofTriplets r c ts = .ok A) (hrows : ts.Pairwise fun a b => a.row ≠ b.row)
    {t : Triplet S} (ht : t ∈ ts) {i : Fin r} (hi : t.row = i) :
    ∃ j : Fin c, j.val = t.column ∧ A.row i = [(j, t.value)] := by
  have hin := inside_of_ofTriplets h
  obtain ⟨A', hA', hrow⟩ := ofTriplets_rows hin
  obtain rfl : A' = A := by
    have := hA'.symm.trans h
    simpa using this
  have hperm := List.mergeSort_perm ts before
  have hmerge : merge (ts.mergeSort before) = ts.mergeSort before :=
    merge_of_rows ((hperm.pairwise_iff Ne.symm).2 hrows)
  have hone : (merge (ts.mergeSort before)).filter (fun u => u.row = i.val) = [t] := by
    rw [hmerge]
    refine List.perm_singleton.1 ((hperm.filter _).trans ?_)
    rw [filter_row_eq hrows ht hi]
  have hcolumn : t.column < c := (hin t ht).2
  refine ⟨⟨t.column, hcolumn⟩, rfl, ?_⟩
  have hmap := map_rowOf (merge (ts.mergeSort before)) (inside_merged hin) i.val Prod.mk
  rw [hone, ← hrow] at hmap
  have inj : Function.Injective fun e : Fin c × S => (e.1.val, e.2) := by
    rintro ⟨a, v⟩ ⟨b, w⟩ hab
    simp only [Prod.mk.injEq] at hab
    rw [Fin.ext hab.1, hab.2]
  exact List.map_injective_iff.2 inj hmap

/-- What a matrix made from triplets holds in a column given by number. -/
theorem valueAt_of_ofTriplets [AddCommMonoid S] {ts : List (Triplet S)} {A : Csr S r c}
    (h : ofTriplets r c ts = .ok A) (i : Fin r) (t : Nat) :
    A.valueAt i t = sumAt (keyed ts) (i.val, t) := by
  have hin := inside_of_ofTriplets h
  obtain ⟨A', hA', hentry⟩ := ofTriplets_returns hin
  obtain rfl : A' = A := by
    have := hA'.symm.trans h
    simpa using this
  rcases Nat.lt_or_ge t c with ht | ht
  · exact (A'.valueAt_eq_entry i ⟨t, ht⟩).trans (hentry i ⟨t, ht⟩)
  · rw [A'.valueAt_of_le i ht]
    refine (sumAt_eq_zero fun e he => ?_).symm
    obtain ⟨u, hu, rfl⟩ := List.mem_map.1 he
    have hcolumn := (hin u hu).2
    intro heq
    have : u.column = t := congrArg Prod.snd heq
    omega

end Csr

end Condensation
