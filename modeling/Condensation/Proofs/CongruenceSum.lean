/-
  Congruence sum — the distributed matrix is the sum of `Pᵀ H P` over all ranks.

  1. **One rank (`sumAt_products`)** — the expanded entries of a rank add up, at every position, to
     `Σᵢⱼ P(i,a) H(i,j) P(j,b)`, however often a position is stored in `P` or `H`.

  2. **All ranks (`congruence_then`)** — every expanded entry travels to the owner of its row and is
     counted there once, so what a rank builds are its rows of the sum over all ranks.

  3. **Two routes (`congruence_together`)** — stacked in the order of the ranks these rows are the
     whole matrix, and multiplying with it is the same as prolonging, multiplying on every rank and
     adding up the transposed prolongations.
-/
import Condensation.Interface.Congruence
import Condensation.Proofs.SharedProducts
import Condensation.Proofs.TripletSums

namespace Condensation

variable {S α : Type} {n l : Nat}

open Triplet

/-! ## One rank -/

section OneRank

variable {ι κ : Type} [DecidableEq ι] [DecidableEq κ]

theorem sumAt_flatMap [AddCommMonoid S] {β : Type} (L : List β) (f : β → List (ι × S)) (i : ι) :
    sumAt (L.flatMap f) i = (L.map fun b => sumAt (f b) i).sum := by
  rw [List.flatMap, sumAt_flatten, List.map_map]
  rfl

/-- What a list of multiples under one first key holds. -/
theorem sumAt_multiples [NonUnitalNonAssocSemiring S] (l : List (κ × S)) (i' : ι) (x : S) (i : ι)
    (k : κ) : sumAt (l.map fun e => ((i', e.1), x * e.2)) (i, k) =
      if i' = i then x * sumAt l k else 0 := by
  induction l with
  | nil => simp
  | cons e rest ih =>
    rw [List.map_cons, sumAt_cons, ih, sumAt_cons]
    by_cases hi : i' = i
    · by_cases hk : e.1 = k
      · simp [hi, hk, mul_add]
      · simp [hi, hk]
    · simp [hi]

/-- Multiples of what stands at one key. -/
theorem sum_selected [NonUnitalNonAssocSemiring S] (l : List (κ × S)) (k : κ) (x : S) :
    (l.map fun e => if e.1 = k then e.2 * x else 0).sum = sumAt l k * x := by
  induction l with
  | nil => simp
  | cons e rest ih =>
    rw [List.map_cons, List.sum_cons, ih, sumAt_cons, add_mul]
    split
    · rfl
    · simp

namespace TrueDofs

/-- The entries of `Pᵀ H P` that one entry of row `i` of `H` gives. -/
def productsAt [Mul S] (link : TrueDofs S l) (i : Fin l) (h : Fin l × S) : List (Triplet S) :=
  (link.prolongation.row i).flatMap fun a =>
    (link.prolongation.row h.1).map fun b => ⟨a.1, b.1, a.2 * h.2 * b.2⟩

/-- All expanded entries of a rank. -/
def products [Mul S] (link : TrueDofs S l) (H : Csr S l l) : List (Triplet S) :=
  (List.finRange l).flatMap fun i => (H.row i).flatMap (link.productsAt i)

theorem expand_eq [Mul S] (link : TrueDofs S l) (H : Csr S l l) :
    link.expand H = .ok (link.products H) := by
  have hentry : ∀ (i : Fin l) (h : Fin l × S), link.expandEntry i h = .ok (link.productsAt i h) := by
    intro i h
    rw [expandEntry, Csr.rowAt, dif_pos h.1.isLt]
    rfl
  have hrow : ∀ i : Fin l, (H.row i).mapM (link.expandEntry i) =
      .ok ((H.row i).map (link.productsAt i)) :=
    fun i => Outcome.mapM_eq_ok fun h _ => hentry i h
  rw [expand, Outcome.mapM_eq_ok fun i _ => hrow i, Outcome.ok_bind, Outcome.pure_eq,
    List.flatten_flatten, List.map_map]
  rfl

/-- The expanded entries lie in the true space. -/
theorem products_inside [Mul S] {link : TrueDofs S l} {H : Csr S l l} :
    ∀ t ∈ link.products H, t.row < link.numGlobal ∧ t.column < link.numGlobal := by
  intro t ht
  obtain ⟨i, -, ht⟩ := List.mem_flatMap.1 ht
  obtain ⟨h, -, ht⟩ := List.mem_flatMap.1 ht
  obtain ⟨a, -, ht⟩ := List.mem_flatMap.1 ht
  obtain ⟨b, -, rfl⟩ := List.mem_map.1 ht
  exact ⟨a.1.isLt, b.1.isLt⟩

/-- The entry of `Pᵀ M P` in row `a` and column `b`. -/
def congruent [NonUnitalSemiring S] (link : TrueDofs S l) (M : Fin l → Fin l → S) (a b : Nat) : S :=
  ∑ i, ∑ j, link.prolongation.valueAt i a * M i j * link.prolongation.valueAt j b

theorem sumAt_productsAt [NonUnitalSemiring S] (link : TrueDofs S l) (i : Fin l) (h : Fin l × S)
    (a b : Nat) : sumAt (keyed (link.productsAt i h)) (a, b) =
      link.prolongation.valueAt i a * (h.2 * link.prolongation.valueAt h.1 b) := by
  have hinner : ∀ p : Fin link.numGlobal × S,
      sumAt (keyed ((link.prolongation.row h.1).map fun q =>
        (⟨p.1, q.1, p.2 * h.2 * q.2⟩ : Triplet S))) (a, b) =
          if p.1.val = a then p.2 * (h.2 * link.prolongation.valueAt h.1 b) else 0 := by
    intro p
    have hmultiples := sumAt_multiples
      ((link.prolongation.row h.1).map fun q => (q.1.val, q.2)) p.1.val (p.2 * h.2) a b
    rw [List.map_map] at hmultiples
    rw [keyed, List.map_map, ← mul_assoc]
    exact hmultiples
  have hselected := sum_selected ((link.prolongation.row i).map fun p => (p.1.val, p.2)) a
    (h.2 * link.prolongation.valueAt h.1 b)
  rw [List.map_map] at hselected
  rw [productsAt, keyed, List.map_flatMap, sumAt_flatMap]
  exact (congrArg List.sum (List.map_congr_left fun p _ => hinner p)).trans hselected

/-- **One rank**: its expanded entries add up to its part of the congruence. -/
theorem sumAt_products [NonUnitalSemiring S] (link : TrueDofs S l) (H : Csr S l l) (a b : Nat) :
    sumAt (keyed (link.products H)) (a, b) = link.congruent H.entry a b := by
  have hrow : ∀ i, sumAt (keyed ((H.row i).flatMap (link.productsAt i))) (a, b) =
      link.prolongation.valueAt i a * ∑ j, H.entry i j * link.prolongation.valueAt j b := by
    intro i
    rw [keyed, List.map_flatMap, sumAt_flatMap, ← H.sum_row i, ← List.sum_map_mul_left]
    exact congrArg List.sum (List.map_congr_left fun h _ => link.sumAt_productsAt i h a b)
  rw [products, keyed, List.map_flatMap, sumAt_flatMap, ← List.ofFn_eq_map, List.sum_ofFn]
  refine Finset.sum_congr rfl fun i _ => (hrow i).trans ?_
  rw [Finset.mul_sum]
  exact Finset.sum_congr rfl fun j _ => (mul_assoc _ _ _).symm

end TrueDofs

end OneRank

/-! ## All ranks -/

section AllRanks

open Exchange

theorem keyed_arrived {len : Fin n → Nat} (ts : Fin n → List (Triplet S)) (r : Nat) :
    keyed (arrived len (·.row) ts r) = arrived len (fun e => e.1.1) (fun s => keyed (ts s)) r := by
  rw [keyed, arrived, arrived, List.map_flatten, List.map_ofFn]
  refine congrArg List.flatten (congrArg List.ofFn (funext fun s => ?_))
  rw [partOf, keyed, List.filter_map]
  rfl

namespace TrueDofs

/-- A triplet with its row counted from the start of a range. -/
def shifted (first : Nat) (t : Triplet S) : Triplet S :=
  { t with row := t.row - first }

theorem sumAt_shifted [AddCommMonoid S] {first : Nat} {ts : List (Triplet S)}
    (h : ∀ t ∈ ts, first ≤ t.row) (i j : Nat) :
    sumAt (keyed (ts.map (shifted first))) (i, j) = sumAt (keyed ts) (first + i, j) := by
  have hkeyed : keyed (ts.map (shifted first)) =
      (keyed ts).map fun e => ((e.1.1 - first, e.1.2), e.2) := by
    rw [keyed, keyed, List.map_map, List.map_map]
    rfl
  rw [hkeyed]
  refine sumAt_rename (f := fun p : Nat × Nat => (p.1 - first, p.2)) fun e he => ?_
  obtain ⟨t, ht, rfl⟩ := List.mem_map.1 he
  have := h t ht
  simp only [Prod.mk.injEq]
  omega

theorem ownedEntry_eq {mine : IndexRange} {t : Triplet S} (h : mine.Holds t.row) :
    ownedEntry mine t = .ok (shifted mine.first t) :=
  if_pos h

/-- Rows as the owned rows of a square matrix on the true space. -/
def ownedRows (link : TrueDofs S l) (block : Csr S link.numOwned link.numGlobal) : RowBlock S :=
  ⟨link.numGlobal, link.numOwned, link.offset, block, link.fits⟩

theorem ofRows_eq (link : TrueDofs S l) (block : Csr S link.numOwned link.numGlobal)
    (h : link.numGlobal < Size.limit) :
    RowBlock.ofRows link.numGlobal link.offset block = .ok (link.ownedRows block) := by
  have hlen : Outcome.sameLength .distributedColumns link.numGlobal link.numGlobal = .ok () :=
    Outcome.require_eq_ok_iff.2 rfl
  have hlast : Size.sum link.offset link.numOwned = .ok (link.offset + link.numOwned) :=
    if_pos (lt_of_le_of_lt link.fits h)
  rw [RowBlock.ofRows, hlen, Outcome.ok_bind, hlast, Outcome.ok_bind, dif_pos ⟨rfl, link.fits⟩]
  rfl

variable {m : Fin n → Nat} {link : ∀ r, TrueDofs S (m r)} [NonUnitalSemiring S]

/-- What arrives at rank `r`. -/
def received (link : ∀ r, TrueDofs S (m r)) (H : ∀ r, Csr S (m r) (m r)) (r : Fin n) :
    List (Triplet S) :=
  arriving (fun r => (link r).numOwned) (fun r => (link r).products (H r)) r

theorem products_owned (tiled : Tiled link) (H : ∀ r, Csr S (m r) (m r)) :
    ∀ s, ∀ t ∈ (link s).products (H s),
      t.row < (tiling fun r => (link r).numOwned).globalSize := by
  intro s t ht
  rw [← tiled.global_eq s]
  exact (products_inside t ht).1

/-- Only owned rows arrive, and only existing columns. -/
theorem held_of_mem_received (tiled : Tiled link) {H : ∀ r, Csr S (m r) (m r)} {r : Fin n}
    {t : Triplet S} (ht : t ∈ received link H r) :
    ((tiling fun r => (link r).numOwned).range r).Holds t.row ∧ t.column < (link r).numGlobal := by
  have hin := products_owned tiled H
  have harrived := (arriving_perm hin r).mem_iff.1 ht
  refine ⟨holds_of_mem_arrived _ hin harrived, ?_⟩
  obtain ⟨s, hs⟩ := mem_of_mem_arrived harrived
  have hcolumn := (products_inside t (List.mem_of_mem_filter hs)).2
  rw [tiled.global_eq r, ← tiled.global_eq s]
  exact hcolumn

/-- The triplets from which rank `r` builds its rows. -/
def ownedTriplets (link : ∀ r, TrueDofs S (m r)) (H : ∀ r, Csr S (m r) (m r)) (r : Fin n) :
    List (Triplet S) :=
  (received link H r).map (shifted ((tiling fun r => (link r).numOwned).start r))

theorem ownedTriplets_inside (tiled : Tiled link) (H : ∀ r, Csr S (m r) (m r)) (r : Fin n) :
    ∀ u ∈ ownedTriplets link H r, u.Inside (link r).numOwned (link r).numGlobal := by
  intro u hu
  obtain ⟨t, ht, rfl⟩ := List.mem_map.1 hu
  obtain ⟨⟨hle, hlt⟩, hcolumn⟩ := held_of_mem_received tiled ht
  have hlast : ((tiling fun r => (link r).numOwned).range r).last =
      (tiling fun r => (link r).numOwned).start r + (link r).numOwned :=
    Ownership.start_succ _ r
  have hfirst : ((tiling fun r => (link r).numOwned).range r).first =
      (tiling fun r => (link r).numOwned).start r := rfl
  refine ⟨?_, hcolumn⟩
  show t.row - (tiling fun r => (link r).numOwned).start r < (link r).numOwned
  omega

/-- They hold the sum over all ranks. -/
theorem sumAt_ownedTriplets (tiled : Tiled link) (H : ∀ r, Csr S (m r) (m r)) (r : Fin n)
    (i : Fin (link r).numOwned) (b : Nat) :
    sumAt (keyed (ownedTriplets link H r)) (i.val, b) =
      ∑ s, (link s).congruent (H s).entry ((link r).offset + i) b := by
  have hin := products_owned tiled H
  have hfirst : ∀ t ∈ received link H r, (tiling fun r => (link r).numOwned).start r ≤ t.row :=
    fun t ht => (held_of_mem_received tiled ht).1.1
  have hrow : ((tiling fun r => (link r).numOwned).range r).Holds
      ((tiling fun r => (link r).numOwned).start r + i.val) :=
    Ownership.holds_start_add (fun r => (link r).numOwned) r i
  have hsum := sumAt_arrived (fun p : Nat × Nat => p.1) (fun s => keyed ((link s).products (H s)))
    (i := ((tiling fun r => (link r).numOwned).start r + i.val, b)) hrow
  rw [← keyed_arrived] at hsum
  refine (sumAt_shifted hfirst i.val b).trans ?_
  rw [received, sumAt_perm (keyed_perm (arriving_perm hin r)), tiled.offset_eq r]
  exact hsum.trans (Finset.sum_congr rfl fun s _ => sumAt_products _ _ _ _)

/-- **All ranks**: every rank builds its rows of the sum, and goes on with them. -/
theorem congruence_then (tiled : Tiled link) (H : ∀ r, Csr S (m r) (m r)) :
    ∃ block : ∀ r, Csr S (link r).numOwned (link r).numGlobal,
      (∀ r i j, (block r).entry i j =
        ∑ s, (link s).congruent (H s).entry ((link r).offset + i.val) j.val) ∧
      ∀ {α : Type} {k : Fin n → RowBlock S → Program S α} {a : Fin n → α},
        Together (fun r => k r ((link r).ownedRows (block r))) a →
        Together (fun r : Fin n => (link r).congruence ⟨r, n⟩ (H r) >>= k r) a := by
  choose block hblock hentry using fun r => Csr.ofTriplets_returns (ownedTriplets_inside tiled H r)
  refine ⟨block, fun r i j => ?_, fun {α k a} h => ?_⟩
  · rw [hentry, sumAt_ownedTriplets tiled]
  · have howned : ∀ r : Fin n, (received link H r).mapM
        (ownedEntry ((tiling fun r => (link r).numOwned).range r)) =
          .ok (ownedTriplets link H r) :=
      fun r => Outcome.mapM_eq_ok fun t ht => ownedEntry_eq (held_of_mem_received tiled ht).1
    have hrows : ∀ r, RowBlock.ofRows (link r).numGlobal (link r).offset (block r) =
        .ok ((link r).ownedRows (block r)) := by
      intro r
      refine (link r).ofRows_eq (block r) ?_
      rw [tiled.global_eq r]
      exact tiled.small
    simp only [received] at howned
    simp only [congruence, dif_pos, expand_eq, ranges, Program.ofOutcome, Program.liftM_eq,
      Program.done_ok_bind, Program.bind_assoc]
    refine Ownership.gather_then tiled ?_
    refine toRowOwners_then (products_owned tiled H) ?_
    simp only [Ownership.rangeAt_tiling, Program.done_ok_bind, howned, hblock, hrows]
    exact h

end TrueDofs

end AllRanks

/-! ## Two routes -/

namespace TrueDofs

section Routes

variable [NonUnitalSemiring S]

theorem congruent_eq (link : TrueDofs S l) (M : Fin l → Fin l → S) (a b : Fin link.numGlobal) :
    link.congruent M a b =
      ∑ i, ∑ j, link.prolongation.entry i a * M i j * link.prolongation.entry j b := by
  simp only [congruent, Csr.valueAt_eq_entry]

/-- A row of the congruence, multiplied: first `P`, then `M`, then `Pᵀ`. -/
theorem sum_congruent (link : TrueDofs S l) (M : Fin l → Fin l → S) (a : Nat) (value : Nat → S) :
    ∑ b : Fin link.numGlobal, link.congruent M a b * value b =
      ∑ i, link.prolongation.valueAt i a *
        ∑ j, M i j * ∑ b, link.prolongation.entry j b * value b.val := by
  have hterm : ∀ b : Fin link.numGlobal, link.congruent M a b * value b =
      ∑ i, ∑ j, link.prolongation.valueAt i a *
        (M i j * (link.prolongation.entry j b * value b)) := by
    intro b
    rw [congruent, Finset.sum_mul]
    refine Finset.sum_congr rfl fun i _ => ?_
    rw [Finset.sum_mul]
    refine Finset.sum_congr rfl fun j _ => ?_
    rw [Csr.valueAt_eq_entry, mul_assoc, mul_assoc]
  rw [Finset.sum_congr rfl fun b _ => hterm b, Finset.sum_comm]
  refine Finset.sum_congr rfl fun i _ => ?_
  rw [Finset.sum_comm, Finset.mul_sum]
  refine Finset.sum_congr rfl fun j _ => ?_
  rw [Finset.mul_sum, Finset.mul_sum]

/-- A row of the sum over all ranks, multiplied: the local products between the prolongations. -/
theorem sum_row {g : Nat} {m : Fin n → Nat} (link : ∀ r, TrueDofs S (m r))
    (hglobal : ∀ r, (link r).numGlobal = g) (H : ∀ r, Csr S (m r) (m r)) (value : Nat → S) (t : Nat)
    {row : Fin g → S} (hrow : ∀ b, row b = ∑ s, (link s).congruent (H s).entry t b) :
    ∑ b, row b * value b = ∑ s, ∑ i, (link s).prolongation.valueAt i t *
      ((H s).mulVec (Vector.ofFn fun j =>
        ∑ b, (link s).prolongation.entry j b * value b.val)).get i := by
  have hrank : ∀ s, ∑ b : Fin g, (link s).congruent (H s).entry t b * value b =
      ∑ i, (link s).prolongation.valueAt i t * ((H s).mulVec (Vector.ofFn fun j =>
        ∑ b, (link s).prolongation.entry j b * value b.val)).get i := by
    intro s
    rw [← hglobal s, sum_congruent]
    refine Finset.sum_congr rfl fun i _ => ?_
    simp only [Csr.get_mulVec, Vector.get_ofFn_eq]
  simp only [hrow, Finset.sum_mul]
  rw [Finset.sum_comm]
  exact Finset.sum_congr rfl fun s _ => hrank s

end Routes

/-- Blocks of rows with the entries of one matrix stack up to its rows. -/
theorem stacked_rows [Zero S] [Add S] {g c : Nat} {len : Fin n → Nat}
    (hcover : (tiling len).globalSize = g) (block : ∀ r, Csr S (len r) c) (f : Nat → Fin c → S)
    (h : ∀ (r : Fin n) (i : Fin (len r)) b,
      (block r).entry i b = f ((tiling len).start r + i) b) :
    (List.ofFn fun r => (block r).toRows.toList).flatten =
      List.ofFn fun a : Fin g => Vector.ofFn (f a) := by
  have hrows : ∀ r, (block r).toRows.toList =
      List.ofFn fun i : Fin (len r) => Vector.ofFn (f ((tiling len).start r + i)) := by
    intro r
    refine List.ext_getElem (by simp) fun i h1 h2 => ?_
    have hi : i < len r := by simpa using h2
    simp only [Csr.toRows, Vector.getElem_toList, Vector.getElem_ofFn, List.getElem_ofFn]
    exact congrArg Vector.ofFn (funext (h r ⟨i, hi⟩))
  rw [funext hrows]
  exact Ownership.flatten_stack_eq_ofFn hcover fun a => Vector.ofFn (f a)

/-- Ranges that follow each other, all in range, end in range. -/
theorem globalSize_lt_limit {len offset : Fin n → Nat}
    (hoffset : ∀ r : Fin n, offset r = (tiling len).start r)
    (hlimit : ∀ r, offset r + len r < Size.limit) : (tiling len).globalSize < Size.limit := by
  cases n with
  | zero => simp [tiling, Ownership.globalSize, Size.limit]
  | succ n =>
    have hend := hlimit (Fin.last n)
    rwa [hoffset, ← Ownership.start_succ, Fin.val_last, Ownership.start_last] at hend

/-- **Two routes**: for any number of ranks, any links that tile the true space and any local
    matrices, the distributed matrix is assembled on all ranks; stacked in the order of the ranks
    its rows are `Σᵣ PᵣᵀHᵣPᵣ`; and its products are the local products between the prolongations. -/
theorem congruence_together [NonUnitalSemiring S] {g : Nat} {m : Fin n → Nat}
    (P : ∀ r, Csr S (m r) g) (restriction : Fin n → Array GatherEntry) (offset : Fin n → Nat)
    {link : ∀ r, TrueDofs S (m r)}
    (hlink : ∀ r, ofProlongation (P r) (restriction r) (offset r) = .ok (link r))
    (hoffset : ∀ r : Fin n, offset r = (tiling fun s => (restriction s).size).start r)
    (hcover : (tiling fun s => (restriction s).size).globalSize = g)
    (hranks : 2 * n < Size.limit) (H : ∀ r, Csr S (m r) (m r)) :
    ∃ (block : ∀ r, Csr S (restriction r).size g)
      (fits : ∀ r, offset r + (restriction r).size ≤ g),
      Together (fun r : Fin n => (link r).congruence ⟨r, n⟩ (H r))
        (fun r => ⟨g, (restriction r).size, offset r, block r, fits r⟩) ∧
      (List.ofFn fun r => (block r).toRows.toList).flatten =
        List.ofFn (fun a : Fin g => Vector.ofFn fun b : Fin g =>
          ∑ r, ∑ i, ∑ j, (P r).entry i a * (H r).entry i j * (P r).entry j b) ∧
      ∀ x : Fin n → Array S, (∀ r, (x r).size = (restriction r).size) →
        ∀ onLocal onTrue onRows : Fin n → Array S, (∀ r, (onLocal r).size = m r) →
          (∀ r, (onTrue r).size = (restriction r).size) →
          (∀ r, (onRows r).size = (restriction r).size) →
          ∃ (v : ∀ r, Vector S (m r)) (y : Fin n → Array S),
            Together (fun r : Fin n => (link r).prolong ⟨r, n⟩ (x r) (onLocal r))
              (fun r => (v r).toArray) ∧
            Together (fun r : Fin n => (link r).prolongTranspose ⟨r, n⟩
              ((H r).mulVec (v r)).toArray (onTrue r)) y ∧
            Together (fun r : Fin n =>
              (⟨g, (restriction r).size, offset r, block r, fits r⟩ : RowBlock S).mulVec ⟨r, n⟩
                (x r) (onRows r)) y := by
  choose hlimit table fits heq using fun r => ofProlongation_eq (hlink r)
  obtain rfl : link = fun r => ⟨(restriction r).size, g, offset r, P r, table r, fits r⟩ :=
    funext heq
  have hsmall := globalSize_lt_limit hoffset hlimit
  have tiled : Tiled fun r => (⟨(restriction r).size, g, offset r, P r, table r, fits r⟩ :
      TrueDofs S (m r)) := ⟨hoffset, fun r => hcover.symm, hsmall, hranks⟩
  obtain ⟨block, hentry, hthen⟩ := congruence_then tiled H
  refine ⟨block, fits, ?_, ?_, ?_⟩
  · exact Together.of_bind_done (hthen (k := fun _ A => .done (.ok A)) (Together.done _))
  · let sum : Nat → Fin g → S := fun a b =>
      ∑ s, congruent ⟨(restriction s).size, g, offset s, P s, table s, fits s⟩ (H s).entry a b
    have hrows : ∀ (r : Fin n) (i : Fin (restriction r).size) (b : Fin g), (block r).entry i b =
        sum ((tiling fun s => (restriction s).size).start r + i) b := by
      intro r i b
      rw [← hoffset]
      exact hentry r i b
    refine (stacked_rows hcover block sum hrows).trans (congrArg List.ofFn (funext fun a => ?_))
    refine congrArg Vector.ofFn (funext fun b => ?_)
    refine Finset.sum_congr rfl fun s _ => ?_
    exact congruent_eq ⟨(restriction s).size, g, offset s, P s, table s, fits s⟩ (H s).entry a b
  · intro x hx onLocal onTrue onRows hLocal hTrue hRows
    obtain ⟨value, hvalue⟩ := exists_spread hx
    let v : ∀ r, Vector S (m r) := fun r => Vector.ofFn fun i => ∑ j, (P r).entry i j * value j.val
    have hroutes : ∀ (r : Fin n) (t : Fin (restriction r).size),
        ∑ b : Fin g, (block r).entry t b * value b =
          ∑ s, ∑ i, (P s).valueAt i (offset r + t) * ((H s).mulVec (v s)).get i :=
      fun r t => sum_row (fun r => ⟨(restriction r).size, g, offset r, P r, table r, fits r⟩)
        (fun r => rfl) H value (offset r + t) (hentry r t)
    refine ⟨v, fun r => (Vector.ofFn fun t => ∑ b : Fin g, (block r).entry t b * value b).toArray,
      ?_, ?_, ?_⟩
    · exact Together.of_bind_done (prolong_then tiled hvalue hLocal (Together.done _))
    · simp only [hroutes]
      exact Together.of_bind_done
        (prolongTranspose_then tiled (fun s => (H s).mulVec (v s)) hTrue (Together.done _))
    · exact Together.of_bind_done (RowBlock.mulVec_then
        (A := fun r => ⟨g, (restriction r).size, offset r, block r, fits r⟩)
        ⟨hoffset, fun r => hcover.symm, hsmall, hranks⟩ hvalue hRows (Together.done _))

/-! ### Two ranks that share one true degree of freedom -/

/-- A single row whose entries all lie in column zero. -/
def oneRow (values : List Int) : Csr Int 1 1 where
  stored := values.length
  rowPtr := #v[0, values.length]
  columns := Vector.replicate _ ⟨0, Nat.zero_lt_one⟩
  values := ⟨values.toArray, by simp⟩
  rowPtr_zero := rfl
  rowPtr_last := rfl
  rowPtr_mono := fun i => by
    obtain rfl : i = 0 := Subsingleton.elim _ _
    exact Nat.zero_le _

/-- The second rank refers to the shared degree of freedom twice, -/
def sharedProlongation (r : Fin 2) : Csr Int 1 1 :=
  if r.val = 0 then oneRow [1] else oneRow [1, 1]

/-- but only the first one owns it. -/
def sharedRestriction (r : Fin 2) : Array GatherEntry :=
  if r.val = 0 then #[some (.plus 0)] else #[]

/-- The links of the two ranks. -/
def sharedLink (r : Fin 2) : TrueDofs Int 1 :=
  if r.val = 0 then ⟨1, 1, 0, oneRow [1], #v[.plus ⟨0, Nat.zero_lt_one⟩], by decide⟩
  else ⟨0, 1, 1, oneRow [1, 1], #v[], by decide⟩

/-- The matrices of the two ranks. -/
def sharedLocal (r : Fin 2) : Csr Int 1 1 :=
  if r.val = 0 then oneRow [3] else oneRow [5]

theorem sharedLink_made : ∀ r : Fin 2,
    ofProlongation (sharedProlongation r) (sharedRestriction r) r.val = .ok (sharedLink r)
  | 0 => rfl
  | 1 => rfl

/-- So it is for these two ranks: their matrix is `1·3·1 + 2·5·2`. -/
theorem congruence_shared :
    ∃ (block : ∀ r, Csr Int (sharedRestriction r).size 1)
      (fits : ∀ r, r.val + (sharedRestriction r).size ≤ 1),
      Together (fun r : Fin 2 => (sharedLink r).congruence ⟨r, 2⟩ (sharedLocal r))
        (fun r => ⟨1, _, r.val, block r, fits r⟩) ∧
      (List.ofFn fun r => (block r).toRows.toList).flatten = [#v[23]] ∧
      ∃ (v : Fin 2 → Vector Int 1) (y : Fin 2 → Array Int),
        Together (fun r : Fin 2 => (sharedLink r).prolong ⟨r, 2⟩
          (if r = 0 then #[7] else #[]) #[0]) (fun r => (v r).toArray) ∧
        Together (fun r : Fin 2 => (sharedLink r).prolongTranspose ⟨r, 2⟩
          ((sharedLocal r).mulVec (v r)).toArray (if r = 0 then #[0] else #[])) y ∧
        Together (fun r : Fin 2 => (⟨1, _, r.val, block r, fits r⟩ : RowBlock Int).mulVec ⟨r, 2⟩
          (if r = 0 then #[7] else #[]) (if r = 0 then #[0] else #[])) y := by
  obtain ⟨block, fits, htogether, hstack, hroutes⟩ := congruence_together sharedProlongation
    sharedRestriction (fun r => r.val) sharedLink_made (by decide) (by decide) (by decide)
    sharedLocal
  obtain ⟨v, y, hroutes⟩ := hroutes (fun r => if r = 0 then #[7] else #[]) (by decide)
    (fun _ => #[0]) (fun r => if r = 0 then #[0] else #[]) (fun r => if r = 0 then #[0] else #[])
    (by decide) (by decide) (by decide)
  refine ⟨block, fits, htogether, hstack.trans ?_, v, y, hroutes⟩
  decide +kernel

end TrueDofs

end Condensation
