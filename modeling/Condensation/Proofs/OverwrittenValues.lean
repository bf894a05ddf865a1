/-
  Overwritten values — where `Rᵀ` is not the transpose of `R`.

  A restriction table may read several owned true degrees of freedom from one local one.  Reading
  takes the local value for each of them; writing back goes through the table in order, and what
  is written to a place replaces what was written there before.

  1. **Staying (`exists_stays`)** — of the true degrees of freedom with one place the last one
     stays there, and no value arrives at a place that the table does not name.

  2. **Written products (`sum_written`)** — so a product with what was written is the product with
     what is read, taken over those that stay.

  3. **The result (`restriction_products`)** — the two products differ by the part of the
     overwritten ones; they are level for all vectors just if every true degree of freedom has a
     place of its own.
-/
import Condensation.Proofs.KeptValues

namespace Condensation

namespace TrueDofs

variable {S : Type} {l : Nat}

/-! ## Staying -/

/-- Every place in the table has a true degree of freedom whose value stays. -/
theorem exists_stays (link : TrueDofs S l) (k : Fin link.numOwned) :
    ∃ last, link.Stays last ∧
      (link.restriction.get last).index = (link.restriction.get k).index := by
  let sharing := Finset.univ.filter fun k' : Fin link.numOwned =>
    (link.restriction.get k').index = (link.restriction.get k).index
  have hsharing : sharing.Nonempty := ⟨k, by simp [sharing]⟩
  obtain ⟨last, hlast, hmax⟩ := sharing.exists_max_image id hsharing
  have hplace := (Finset.mem_filter.1 hlast).2
  refine ⟨last, ?_, hplace⟩
  intro k' hk'
  exact hmax k' (Finset.mem_filter.2 ⟨Finset.mem_univ _, hk'.trans hplace⟩)

/-- Those that stay have different places. -/
theorem Stays.eq_of_place {link : TrueDofs S l} {k k' : Fin link.numOwned} (h : link.Stays k)
    (h' : link.Stays k') (hplace : (link.restriction.get k).index = (link.restriction.get k').index) :
    k = k' :=
  le_antisymm (h' k hplace) (h k' hplace.symm)

/-- All values stay just if all places are different. -/
theorem forall_stays_iff (link : TrueDofs S l) :
    (∀ k, link.Stays k) ↔ Function.Injective fun k => (link.restriction.get k).index := by
  constructor
  · intro h k k' hplace
    exact (h k).eq_of_place (h k') hplace
  · intro h k k' hplace
    exact le_of_eq (h hplace)

/-- No true value arrives where none is read from. -/
theorem get_restrictTransposeVec_of_ne [Zero S] [One S] [Neg S] [Mul S] (link : TrueDofs S l)
    (t : Vector S link.numOwned) {i : Fin l} (h : ∀ k, (link.restriction.get k).index ≠ i) :
    (link.restrictTransposeVec t).get i = 0 := by
  refine foldl_finRange_invariant _ (fun _ (v : Vector S l) => v.get i = 0)
    (Vector.get_replicate_eq _ _) ?_
  intro k v hv
  rw [Vector.get_put_of_ne _ _ (h k)]
  exact hv

/-! ## Written products -/

theorem get_restrictVec [One S] [Neg S] [Mul S] (link : TrueDofs S l) (v : Vector S l)
    (k : Fin link.numOwned) : (link.restrictVec v).get k =
      (link.restriction.get k).orientation.factor * v.get (link.restriction.get k).index :=
  Option.some.inj ((Vector.getElem?_toArray_get _ k).symm.trans (link.getElem?_restrictVec v k))

/-- **Written products**: what was written, multiplied, is what is read from those that stay. -/
theorem sum_written [CommRing S] (link : TrueDofs S l) (t : Vector S link.numOwned)
    (w : Vector S l) : ∑ i, (link.restrictTransposeVec t).get i * w.get i =
      ∑ k, if link.Stays k then t.get k * (link.restrictVec w).get k else 0 := by
  symm
  calc ∑ k, (if link.Stays k then t.get k * (link.restrictVec w).get k else 0)
      = ∑ k : {k // link.Stays k}, t.get k * (link.restrictVec w).get k := by
        rw [← Finset.sum_filter]
        exact Finset.sum_subtype _ (by simp) _
    _ = ∑ i, (link.restrictTransposeVec t).get i * w.get i := by
        refine Fintype.sum_of_injective
          (fun k : {k // link.Stays k} => (link.restriction.get k.val).index) ?_ _ _ ?_ ?_
        · intro k k' hplace
          exact Subtype.ext (k.2.eq_of_place k'.2 hplace)
        · intro i hi
          rw [link.get_restrictTransposeVec_of_ne t, zero_mul]
          rintro k rfl
          obtain ⟨last, hlast, hplace⟩ := link.exists_stays k
          exact hi ⟨⟨last, hlast⟩, hplace⟩
        · intro k
          rw [get_restrictTransposeVec_of_stays k.2, get_restrictVec]
          ring

/-! ## The result -/

variable [CommRing S]

/-- Reading `v` and writing `t` succeed over anything, and the product of `t` with what was read is
    the product of `v` with what was written, and `rest`. -/
def ProductsDiffer (link : TrueDofs S l) (v : Vector S l) (t : Vector S link.numOwned)
    (rest : S) : Prop :=
  ∃ (y : Vector S link.numOwned) (z : Vector S l),
    (∀ into : Vector S link.numOwned, link.restrict v.toArray into.toArray = .ok y.toArray) ∧
    (∀ into : Vector S l, link.restrictTranspose t.toArray into.toArray = .ok z.toArray) ∧
    ∑ k, y.get k * t.get k = ∑ i, v.get i * z.get i + rest

theorem restrict_eq (link : TrueDofs S l) (v : Vector S l) (into : Vector S link.numOwned) :
    link.restrict v.toArray into.toArray = .ok (link.restrictVec v).toArray := by
  have hinto : Outcome.sameLength .ownedTrueVector link.numOwned into.toArray.size = .ok () :=
    Outcome.require_eq_ok_iff.2 into.size_toArray.symm
  rw [restrict, Outcome.sized_toArray, Outcome.ok_bind, hinto]
  rfl

theorem restrictTranspose_eq (link : TrueDofs S l) (t : Vector S link.numOwned)
    (into : Vector S l) :
    link.restrictTranspose t.toArray into.toArray = .ok (link.restrictTransposeVec t).toArray := by
  have hinto : Outcome.sameLength .localVector l into.toArray.size = .ok () :=
    Outcome.require_eq_ok_iff.2 into.size_toArray.symm
  rw [restrictTranspose, Outcome.sized_toArray, Outcome.ok_bind, hinto]
  rfl

theorem productsDiffer_iff {link : TrueDofs S l} {v : Vector S l} {t : Vector S link.numOwned}
    {rest : S} : link.ProductsDiffer v t rest ↔
      ∑ k, (link.restrictVec v).get k * t.get k =
        ∑ i, v.get i * (link.restrictTransposeVec t).get i + rest := by
  constructor
  · rintro ⟨y, z, hy, hz, hsum⟩
    have hy := (hy y).symm.trans (link.restrict_eq v y)
    have hz := (hz z).symm.trans (link.restrictTranspose_eq t z)
    obtain rfl := Vector.toArray_inj.1 (Outcome.ok.inj hy)
    obtain rfl := Vector.toArray_inj.1 (Outcome.ok.inj hz)
    exact hsum
  · intro hsum
    exact ⟨_, _, link.restrict_eq v, link.restrictTranspose_eq t, hsum⟩

/-- What overwritten values would add. -/
theorem sum_read (link : TrueDofs S l) (v : Vector S l) (t : Vector S link.numOwned) :
    ∑ k, (link.restrictVec v).get k * t.get k =
      ∑ i, v.get i * (link.restrictTransposeVec t).get i +
        ∑ k, if link.Stays k then 0 else (link.restrictVec v).get k * t.get k := by
  have hwritten : ∑ i, v.get i * (link.restrictTransposeVec t).get i =
      ∑ k, if link.Stays k then (link.restrictVec v).get k * t.get k else 0 := by
    simp only [mul_comm (v.get _), mul_comm ((link.restrictVec v).get _)]
    exact link.sum_written t v
  rw [hwritten, ← Finset.sum_add_distrib]
  refine Finset.sum_congr rfl fun k _ => ?_
  split
  · rw [add_zero]
  · rw [zero_add]

/-- An overwritten true degree of freedom shows in one product. -/
theorem exists_overwritten_part [Nontrivial S] {link : TrueDofs S l} {k : Fin link.numOwned}
    (h : ¬ link.Stays k) : ∃ (v : Vector S l) (t : Vector S link.numOwned),
      (∑ k', if link.Stays k' then 0 else (link.restrictVec v).get k' * t.get k') ≠ 0 := by
  -- all local values are one, and so is the true value that is overwritten
  refine ⟨Vector.replicate l 1, Vector.ofFn fun k' => if k' = k then 1 else 0, ?_⟩
  have hone : ∀ k', k' ≠ k → (if link.Stays k' then 0 else
      (link.restrictVec (Vector.replicate l 1)).get k' *
        (Vector.ofFn fun k' => if k' = k then (1 : S) else 0).get k') = 0 := by
    intro k' hk'
    rw [Vector.get_ofFn_eq, if_neg hk', mul_zero, ite_self]
  rw [Fintype.sum_eq_single k hone, if_neg h, get_restrictVec, Vector.get_ofFn_eq, if_pos rfl,
    Vector.get_replicate_eq, mul_one, mul_one]
  cases (link.restriction.get k).orientation with
  | plus => exact one_ne_zero
  | minus => exact neg_ne_zero.2 one_ne_zero

/-- **The result**: for every link, whatever was in the output vectors, the product with what is read
    exceeds the product with what is written by the part of the overwritten values.  The two are
    transposes just if no two true degrees of freedom are read from one local one. -/
theorem restriction_products [Nontrivial S] (link : TrueDofs S l) :
    (∀ (v : Vector S l) (t : Vector S link.numOwned), link.ProductsDiffer v t
      (∑ k, if link.Stays k then 0 else (link.restrictVec v).get k * t.get k)) ∧
    ((∀ (v : Vector S l) (t : Vector S link.numOwned), link.ProductsDiffer v t 0) ↔
      Function.Injective fun k => (link.restriction.get k).index) := by
  refine ⟨fun v t => productsDiffer_iff.2 (link.sum_read v t), ?_⟩
  rw [← forall_stays_iff]
  constructor
  · intro hlevel k
    by_contra hk
    obtain ⟨v, t, hpart⟩ := exists_overwritten_part hk
    have hproducts := productsDiffer_iff.1 (hlevel v t)
    rw [link.sum_read] at hproducts
    exact hpart (add_left_cancel hproducts)
  · intro hstays v t
    refine productsDiffer_iff.2 ((link.sum_read v t).trans ?_)
    simp [hstays]

/-! ### Two true degrees of freedom with one place -/

/-- A prolongation of zeros; it plays no part here. -/
def noProlongation : Csr Int 2 3 where
  stored := 0
  rowPtr := Vector.replicate 3 0
  columns := Vector.ofFn nofun
  values := Vector.ofFn nofun
  rowPtr_zero := Vector.get_replicate_eq 0 _
  rowPtr_last := Vector.get_replicate_eq 0 _
  rowPtr_mono i := le_of_eq (by rw [Vector.get_replicate_eq, Vector.get_replicate_eq])

/-- The first two of three true degrees of freedom are read from one local one. -/
def doublyRead : TrueDofs Int 2 :=
  ⟨3, 3, 0, noProlongation, #v[.plus ⟨0, Nat.two_pos⟩, .plus ⟨0, Nat.two_pos⟩,
    .minus ⟨1, Nat.one_lt_two⟩], Nat.le_refl 3⟩

/-- Their values. -/
def doublyWritten : Vector Int doublyRead.numOwned := #v[4, 5, 6]

/-- So it is where 4 and 5 are written to one place: 5 stays, and the product with what was read
    exceeds the other one by 4. -/
theorem restriction_products_doublyRead :
    doublyRead.restrictTranspose doublyWritten.toArray #[0, 0] = .ok #[5, -6] ∧
      doublyRead.ProductsDiffer #v[1, 1] doublyWritten 4 ∧
      ¬ ∀ (v : Vector Int 2) (t : Vector Int doublyRead.numOwned),
        doublyRead.ProductsDiffer v t 0 := by
  obtain ⟨hdiffer, hlevel⟩ := restriction_products doublyRead
  have hpart : (∑ k, if doublyRead.Stays k then 0 else
      (doublyRead.restrictVec #v[1, 1]).get k * doublyWritten.get k) = 4 := by
    decide +kernel
  have hfour := hdiffer #v[1, 1] doublyWritten
  rw [hpart] at hfour
  refine ⟨by decide, hfour, fun h => ?_⟩
  have hsame : (0 : Fin 3) = 1 := hlevel.1 h rfl
  exact absurd hsame (by decide)

end TrueDofs

end Condensation
