/-
  Routed triplets — every matrix entry arrives once, at the owner of its row.

  Every rank sorts its triplets by row, sends rows and columns in one exchange and values in another,
  and puts them together again by their places.

  1. **Order (`inRowOrder_byRow`)** — the sort is stable, so the triplets of one row travel in the
     order in which they were given.

  2. **Conservation (`sum_arriving`)** — every row below the size of the space has exactly one owner, so
     the parts of a list for all ranks are the list again, as multisets.

  3. **The result (`routing_conserves`)** — for any number of ranks, and triplets in any order, all
     ranks get their triplets; what they have got together is what was sent; each of them has its own
     rows; and it got them rank by rank, those of one rank in the order of their rows.
-/
import Condensation.Proofs.Delivery
import Condensation.Proofs.FaithfulPulls

namespace Condensation

variable {S : Type} {n : Nat} {len : Fin n → Nat}

/-! ## Order -/

/-- `L` are the triplets of `M` in the order of their rows; those of one row are in the order that they
    have in `M`. -/
structure InRowOrder (L M : List (Triplet S)) : Prop where
  ascending : L.Pairwise fun a b => a.row ≤ b.row
  stable : ∀ i, (L.filter fun t => t.row = i) = M.filter fun t => t.row = i

/-- Leaving out some of the rows leaves the order. -/
theorem InRowOrder.filter {L M : List (Triplet S)} (h : InRowOrder L M) (p : Nat → Bool) :
    InRowOrder (L.filter fun t => p t.row) (M.filter fun t => p t.row) := by
  refine ⟨h.ascending.filter _, fun i => ?_⟩
  rw [List.filter_comm, h.stable, List.filter_comm]

namespace Exchange

/-- Sorting by row keeps the triplets of one row in their order. -/
theorem inRowOrder_byRow (triplets : List (Triplet S)) : InRowOrder (byRow triplets) triplets := by
  refine ⟨pairwise_byRow triplets, fun i => ?_⟩
  let before (a b : Triplet S) : Bool := decide (a.row ≤ b.row)
  -- the triplets of row `i` are in order already, so the sort keeps them as they follow each other
  have hordered : (triplets.filter fun t => t.row = i).Pairwise fun a b => before a b = true := by
    refine List.pairwise_of_forall_mem_list fun a ha b hb => ?_
    have hrow : a.row = i := by simpa using (List.mem_filter.1 ha).2
    have hrow' : b.row = i := by simpa using (List.mem_filter.1 hb).2
    simp [before, hrow, hrow']
  have hkept : (triplets.filter fun t => t.row = i).Sublist (byRow triplets) :=
    List.sublist_mergeSort
      (by intro a b c hab hbc; simp only [decide_eq_true_eq] at *; exact le_trans hab hbc)
      (by intro a b; simp only [Bool.or_eq_true, decide_eq_true_eq]; exact le_total _ _)
      hordered List.filter_sublist
  have hinside := hkept.filter fun t => decide (t.row = i)
  rw [List.filter_filter] at hinside
  simp only [Bool.and_self] at hinside
  exact (hinside.eq_of_length ((byRow_perm triplets).filter _).length_eq.symm).symm

/-! ## Conservation -/

/-- What goes to rank `r` is what lies in its range. -/
theorem partOf_eq_filter {β : Type} {index : β → Nat} {L : List β}
    (hin : ∀ b ∈ L, index b < (tiling len).globalSize) (r : Fin n) :
    partOf len index L r = L.filter fun b => ((tiling len).range r).Holds (index b) := by
  refine List.filter_congr fun b hb => ?_
  rw [decide_eq_decide]
  exact Ownership.rankOf_eq_iff (hin b hb) r

/-- The parts of a list for all ranks are the list. -/
theorem sum_partOf {β : Type} {index : β → Nat} {L : List β}
    (hin : ∀ b ∈ L, index b < (tiling len).globalSize) :
    ∑ r : Fin n, (partOf len index L r : Multiset β) = L := by
  induction L with
  | nil => simp [partOf]
  | cons b rest ih =>
    have hfirst := Ownership.rankOf_lt (hin b (by simp))
    have hpart : ∀ r : Fin n, (partOf len index (b :: rest) r : Multiset β) =
        (if r = ⟨(tiling len).rankOf (index b), hfirst⟩ then {b} else 0) +
          (partOf len index rest r : Multiset β) := by
      intro r
      by_cases hr : (tiling len).rankOf (index b) = r
      · have hq : r = ⟨(tiling len).rankOf (index b), hfirst⟩ := Fin.ext hr.symm
        rw [partOf, List.filter_cons_of_pos (by simpa using hr), if_pos hq]
        rfl
      · have hq : r ≠ ⟨(tiling len).rankOf (index b), hfirst⟩ :=
          fun e => hr (congrArg Fin.val e).symm
        rw [partOf, List.filter_cons_of_neg (by simpa using hr), if_neg hq, zero_add]
        rfl
    simp only [hpart, Finset.sum_add_distrib, Finset.sum_ite_eq', Finset.mem_univ, if_true,
      ih fun b' hb' => hin b' (by simp [hb'])]
    rfl

/-- Lists that lie one after another are their sum. -/
theorem coe_flatten_ofFn {β : Type} (parts : Fin n → List β) :
    ((List.ofFn parts).flatten : Multiset β) = ∑ s, (parts s : Multiset β) := by
  induction n with
  | zero => rfl
  | succ n ih =>
    rw [List.ofFn_succ, List.flatten_cons, Fin.sum_univ_succ, ← ih, Multiset.coe_add]

/-- **Conservation**: what all ranks get is what all ranks have sent. -/
theorem sum_arriving {triplets : Fin n → List (Triplet S)}
    (hin : ∀ s, ∀ t ∈ triplets s, t.row < (tiling len).globalSize) :
    ∑ r, (arriving len triplets r : Multiset (Triplet S)) =
      ∑ s, (triplets s : Multiset (Triplet S)) := by
  calc ∑ r, (arriving len triplets r : Multiset (Triplet S))
      = ∑ r : Fin n, ∑ s, (partOf len (·.row) (triplets s) r : Multiset (Triplet S)) := by
        refine Finset.sum_congr rfl fun r _ => ?_
        rw [Multiset.coe_eq_coe.2 (arriving_perm hin r), arrived, coe_flatten_ofFn]
    _ = ∑ s, ∑ r : Fin n, (partOf len (·.row) (triplets s) r : Multiset (Triplet S)) :=
        Finset.sum_comm
    _ = ∑ s, (triplets s : Multiset (Triplet S)) :=
        Finset.sum_congr rfl fun s _ => sum_partOf (hin s)

/-! ## The result -/

/-- What rank `r` gets from rank `s`; a single rank keeps its triplets as they are. -/
def partFrom (len : Fin n → Nat) (triplets : Fin n → List (Triplet S)) (s r : Fin n) :
    List (Triplet S) :=
  if n = 1 then triplets s else partOf len (·.row) (byRow (triplets s)) r

/-- It comes rank by rank. -/
theorem arriving_eq_flatten (len : Fin n → Nat) (triplets : Fin n → List (Triplet S)) (r : Fin n) :
    arriving len triplets r = (List.ofFn fun s => partFrom len triplets s r).flatten := by
  unfold arriving partFrom
  split
  · next hn =>
    subst hn
    obtain rfl : r = 0 := Subsingleton.elim r 0
    simp
  · rfl

/-- **Routing conserves**: for any number of ranks, ranges that may be empty, and triplets in any
    order with rows in range, all ranks get triplets; together these are the triplets that were sent;
    those of a rank lie in its rows; and they come rank by rank, from every rank its triplets in
    these rows, which several ranks sort by row and leave in their order within a row. -/
theorem routing_conserves (len : Fin n → Nat) (triplets : Fin n → List (Triplet S))
    (hin : ∀ s, ∀ t ∈ triplets s, t.row < (tiling len).globalSize) :
    ∃ received : Fin n → List (Triplet S),
      Together (fun r : Fin n => toRowOwners ⟨r, n⟩ (tiling len) (triplets r)) received ∧
      ∑ r, (received r : Multiset (Triplet S)) = ∑ s, (triplets s : Multiset (Triplet S)) ∧
      (∀ r, ∀ t ∈ received r, ((tiling len).range r).Holds t.row) ∧
      ∃ part : Fin n → Fin n → List (Triplet S),
        (∀ r, received r = (List.ofFn fun s => part s r).flatten) ∧
        (∀ s r, (part s r).Perm
          ((triplets s).filter fun t => ((tiling len).range r).Holds t.row)) ∧
        (1 < n → ∀ s r, InRowOrder (part s r)
          ((triplets s).filter fun t => ((tiling len).range r).Holds t.row)) := by
  have hsorted : ∀ s, ∀ t ∈ byRow (triplets s), t.row < (tiling len).globalSize :=
    fun s t ht => hin s t ((byRow_perm _).mem_iff.1 ht)
  have htogether : Together (fun r : Fin n => toRowOwners ⟨r, n⟩ (tiling len) (triplets r))
      (arriving len triplets) :=
    Together.of_bind_done (toRowOwners_then (k := fun _ found => .done (.ok found)) hin
      (Together.done _))
  refine ⟨arriving len triplets, htogether, sum_arriving hin, ?_, partFrom len triplets,
    arriving_eq_flatten len triplets, ?_, ?_⟩
  · intro r t ht
    have harrived : t ∈ arrived len (fun t : Triplet S => t.row) triplets r :=
      (arriving_perm hin r).mem_iff.1 ht
    exact holds_of_mem_arrived (fun t : Triplet S => t.row) hin harrived
  · intro s r
    rw [← partOf_eq_filter (hin s)]
    unfold partFrom
    split
    · next hn =>
      subst hn
      rw [partOf_alone _ (hin s)]
    · exact (byRow_perm _).filter _
  · intro hn s r
    rw [partFrom, if_neg (Nat.ne_of_gt hn), partOf_eq_filter (hsorted s)]
    exact (inRowOrder_byRow (triplets s)).filter fun i => decide (((tiling len).range r).Holds i)

/-- Triplets of three ranks, the second of which owns no row: two of them for row 0 in one list, and
    one that is stored twice. -/
def gapTriplets : Fin 3 → List (Triplet Int) :=
  ![[⟨2, 7, 1⟩, ⟨0, 5, 2⟩, ⟨0, 3, 4⟩], [⟨1, 0, 8⟩, ⟨1, 0, 8⟩], []]

/-- So it is for these three ranks: the first one gets the two triplets of row 0 as they were given,
    then those of row 1 from the second one. -/
theorem routing_conserves_gap :
    ∃ received : Fin 3 → List (Triplet Int),
      Together (fun r : Fin 3 => toRowOwners ⟨r, 3⟩ (tiling gapLengths) (gapTriplets r)) received ∧
      ∑ r, (received r : Multiset (Triplet Int)) =
        ∑ s, (gapTriplets s : Multiset (Triplet Int)) ∧
      ∃ part : Fin 3 → List (Triplet Int), received 0 = part 0 ++ part 1 ++ part 2 ∧
        ((part 0).filter fun t => t.row = 0) = [⟨0, 5, 2⟩, ⟨0, 3, 4⟩] ∧
        (part 1).Perm [⟨1, 0, 8⟩, ⟨1, 0, 8⟩] := by
  obtain ⟨received, htogether, hsum, -, part, hparts, hperm, horder⟩ :=
    routing_conserves gapLengths gapTriplets (by decide)
  refine ⟨received, htogether, hsum, fun s => part s 0, ?_, ?_, hperm 1 0⟩
  · rw [hparts 0]
    simp [List.ofFn_succ]
  · exact (horder (by decide) 0 0).stable 0

end Exchange

end Condensation
