/-
  Global prolongation — what all ranks compute with their links is one product.

  1. **Whole vectors** — the owned parts of all ranks, one after another, are one vector over the
     true degrees of freedom (`stacked`), and sums over it are sums over the ranks (`sum_tiling`).

  2. **Marks** — marks travel as the scalars zero and one, so a rank finds a local degree of freedom
     just if a row entry that is not zero meets a mark of any rank (`dependents_marked`).

  3. **The result (`prolongation_together`)** — for any number of ranks and any links that tile the
     true space, `prolong` is `P` on every rank, the parts from `prolongTranspose` make up `Σᵣ Pᵣᵀ`,
     and so the two are adjoint.  A single rank computes the product with its own matrix.
-/
import Condensation.Proofs.Classification
import Condensation.Proofs.CongruenceSum
import Condensation.Proofs.Endings

namespace Condensation

variable {S α : Type} {n : Nat}

/-! ## Whole vectors -/

/-- The parts of all ranks, one after another. -/
def stacked {len : Fin n → Nat} (x : ∀ r, Vector α (len r)) : List α :=
  (List.ofFn fun r => (x r).toList).flatten

/-- The part of a single rank is the whole. -/
theorem stacked_alone {len : Fin 1 → Nat} (x : ∀ r, Vector α (len r)) :
    stacked x = (x 0).toList := by
  simp [stacked]

section Whole

variable {len : Fin n → Nat} {g : Nat} {value other : Nat → S} {x y : ∀ r, Vector S (len r)}

theorem Spread.get_eq (h : Spread len value fun r => (x r).toArray) (r : Fin n) (k : Fin (len r)) :
    (x r).get k = value ((tiling len).start r + k) := by
  have hpart := congrArg (fun list => list[k.val]?) (h r)
  simpa [Vector.get] using hpart

/-- Parts of a whole vector stack up to it. -/
theorem Spread.stacked_eq (h : Spread len value fun r => (x r).toArray)
    (hcover : (tiling len).globalSize = g) :
    stacked x = List.ofFn fun a : Fin g => value a := by
  have hparts : (fun r => (x r).toList) = fun r : Fin n =>
      List.ofFn fun i : Fin (len r) => value ((tiling len).start r + i) := funext h
  rw [stacked, hparts]
  exact Ownership.flatten_stack_eq_ofFn hcover value

/-- A sum over the whole is a sum over the parts of all ranks. -/
theorem sum_tiling [AddCommMonoid S] (hcover : (tiling len).globalSize = g) (f : Nat → S) :
    ∑ r : Fin n, ∑ i : Fin (len r), f ((tiling len).start r + i) = ∑ a : Fin g, f a := by
  have hstack := congrArg List.sum (Ownership.flatten_stack_eq_ofFn hcover f)
  rw [List.sum_flatten, List.map_ofFn, List.sum_ofFn, List.sum_ofFn] at hstack
  simpa only [Function.comp_apply, List.sum_ofFn] using hstack

/-- So is the product of two whole vectors. -/
theorem Spread.sum_mul [NonUnitalNonAssocSemiring S]
    (hx : Spread len value fun r => (x r).toArray) (hy : Spread len other fun r => (y r).toArray)
    (hcover : (tiling len).globalSize = g) :
    ∑ r, ∑ k, (x r).get k * (y r).get k = ∑ a : Fin g, value a * other a := by
  simp only [hx.get_eq, hy.get_eq]
  exact sum_tiling hcover fun a => value a * other a

end Whole

namespace TrueDofs

variable {l : Fin n → Nat} {link : ∀ r, TrueDofs S (l r)}

/-! ## Marks -/

/-- Marks travel: a local degree of freedom is found just if a row entry that is not zero meets a
    mark, whoever has set it. -/
theorem dependents_marked [CommSemiring S] [Nontrivial S] [BEq S] [LawfulBEq S]
    (tiled : Tiled link) (marks : ∀ r, Vector Bool (link r).numOwned) {into : Fin n → Array Bool}
    (hinto : ∀ r, (into r).size = l r) :
    ∃ marked : ∀ r, Vector Bool (l r),
      Together (fun r : Fin n => (link r).dependents ⟨r, n⟩ (marks r).toArray (into r))
        (fun r => (marked r).toArray) ∧
      ∀ r i, (marked r).get i = true ↔ ∃ e ∈ (link r).prolongation.row i,
        e.2 ≠ 0 ∧ (stacked marks)[e.1.val]? = some true := by
  let value : Nat → S := fun t => if (stacked marks).getD t false then 1 else 0
  have hvalue : Spread (fun r => (link r).numOwned) value fun r =>
      ((marks r).toArray.toList.map fun b => if b then (1 : S) else 0).toArray := by
    intro r
    have hpart : (marks r).toList = List.ofFn fun i : Fin (link r).numOwned =>
        (stacked marks).getD ((tiling fun r => (link r).numOwned).start r + i) false :=
      Ownership.eq_ofFn_stack (fun r => (marks r).toList) (fun r => (marks r).length_toList) r false
    show (marks r).toList.map _ = _
    rw [hpart, List.map_ofFn]
    rfl
  refine ⟨_, dependents_together tiled hvalue hinto, fun r i => ?_⟩
  rw [Vector.get_ofFn_eq, dependsOn, List.any_eq_true]
  refine exists_congr fun e => and_congr_right fun _ => ?_
  rw [Bool.and_eq_true, bne_iff_ne, bne_iff_ne]
  refine and_congr_right fun _ => ?_
  show (if (stacked marks).getD e.1 false then (1 : S) else 0) ≠ 0 ↔ _
  rw [List.getD_eq_getElem?_getD]
  cases (stacked marks)[e.1.val]? with
  | none => simp
  | some b => cases b <;> simp

/-! ## Products -/

section Products

variable [CommSemiring S] {g : Nat} {m : Fin n → Nat} (P : ∀ r, Csr S (m r) g)

/-- Both routes add up the same products. -/
theorem sum_prolonged (whole : Fin g → S) (v : ∀ r, Vector S (m r)) :
    ∑ r, ∑ i, (∑ a, (P r).entry i a * whole a) * (v r).get i =
      ∑ a, whole a * ∑ r, ∑ i, (P r).entry i a * (v r).get i := by
  have hterm : ∀ r i a, (P r).entry i a * whole a * (v r).get i =
      whole a * ((P r).entry i a * (v r).get i) := by
    intro r i a
    rw [mul_comm ((P r).entry i a) (whole a), mul_assoc]
  simp only [Finset.sum_mul, Finset.mul_sum, hterm]
  calc ∑ r, ∑ i, ∑ a, whole a * ((P r).entry i a * (v r).get i)
      = ∑ r, ∑ a, ∑ i, whole a * ((P r).entry i a * (v r).get i) :=
        Finset.sum_congr rfl fun r _ => Finset.sum_comm
    _ = ∑ a, ∑ r, ∑ i, whole a * ((P r).entry i a * (v r).get i) := Finset.sum_comm

end Products

section Alone

variable [CommSemiring S] {g : Nat} {len m : Fin 1 → Nat} (P : ∀ r, Csr S (m r) g)

/-- For a single rank, what is gathered is the product with its own matrix. -/
theorem eq_mulVec_alone {t : ∀ r, Vector S (len r)} {whole : Fin g → S}
    (ht : stacked t = List.ofFn whole) {v : Vector S (m 0)}
    (hv : ∀ i, v.get i = ∑ a, (P 0).entry i a * whole a) {x : Vector S g}
    (hx : x.toArray = (t 0).toArray) : v = (P 0).mulVec x := by
  have hwhole : x = Vector.ofFn whole := by
    refine Vector.toList_inj.1 ?_
    rw [Vector.toList_ofFn, ← ht, stacked_alone]
    exact congrArg Array.toList hx
  refine Vector.ext_get fun i => ?_
  rw [hv, Csr.get_mulVec, hwhole]
  simp only [Vector.get_ofFn_eq]

/-- For a single rank, what is added up is the product with its own transpose. -/
theorem eq_mulVecTranspose_alone {y : ∀ r, Vector S (len r)} {v : ∀ r, Vector S (m r)}
    (hy : stacked y = List.ofFn fun a => ∑ r, ∑ i, (P r).entry i a * (v r).get i) :
    (y 0).toArray = ((P 0).mulVecTranspose (v 0)).toArray := by
  have hproduct : (P 0).mulVecTranspose (v 0) =
      Vector.ofFn fun a => ∑ i, (P 0).entry i a * (v 0).get i := by
    refine Vector.ext_get fun a => ?_
    rw [Csr.get_mulVecTranspose, Vector.get_ofFn_eq]
  refine Array.toList_inj.1 ?_
  rw [stacked_alone] at hy
  rw [hproduct]
  show (y 0).toList = (Vector.ofFn _).toList
  rw [Vector.toList_ofFn, hy]
  simp only [Finset.univ_unique, Fin.default_eq_zero, Finset.sum_singleton]

end Alone

/-! ## All ranks -/

/-- **The result**: for any number of ranks, any links that tile the true space and any vectors,
    `prolong`, `prolongTranspose` and `dependents` end on all ranks; the first is `P` on every rank,
    what the second leaves on the ranks makes up `Σᵣ Pᵣᵀ`, the third finds what depends on a mark;
    and the first two are adjoint.  A single rank computes the products with its own matrix. -/
theorem prolongation_together [CommSemiring S] [Nontrivial S] [BEq S] [LawfulBEq S] {g : Nat}
    {m : Fin n → Nat} (P : ∀ r, Csr S (m r) g) (restriction : Fin n → Array GatherEntry)
    (offset : Fin n → Nat) {link : ∀ r, TrueDofs S (m r)}
    (hlink : ∀ r, ofProlongation (P r) (restriction r) (offset r) = .ok (link r))
    (hoffset : ∀ r : Fin n, offset r = (tiling fun s => (restriction s).size).start r)
    (hcover : (tiling fun s => (restriction s).size).globalSize = g)
    (hranks : 2 * n < Size.limit) (t onTrue : ∀ r, Vector S (restriction r).size)
    (v onLocal : ∀ r, Vector S (m r)) (marks : ∀ r, Vector Bool (restriction r).size)
    (onMarks : ∀ r, Vector Bool (m r)) :
    ∃ (x : ∀ r, Vector S (m r)) (y : ∀ r, Vector S (restriction r).size)
      (marked : ∀ r, Vector Bool (m r)),
      Together (fun r : Fin n => (link r).prolong ⟨r, n⟩ (t r).toArray (onLocal r).toArray)
        (fun r => (x r).toArray) ∧
      Together (fun r : Fin n => (link r).prolongTranspose ⟨r, n⟩ (v r).toArray (onTrue r).toArray)
        (fun r => (y r).toArray) ∧
      Together (fun r : Fin n => (link r).dependents ⟨r, n⟩ (marks r).toArray (onMarks r).toArray)
        (fun r => (marked r).toArray) ∧
      (∃ whole : Fin g → S, stacked t = List.ofFn whole ∧
        ∀ r i, (x r).get i = ∑ a, (P r).entry i a * whole a) ∧
      stacked y = List.ofFn (fun a => ∑ r, ∑ i, (P r).entry i a * (v r).get i) ∧
      (∀ r i, (marked r).get i = true ↔
        ∃ e ∈ (P r).row i, e.2 ≠ 0 ∧ (stacked marks)[e.1.val]? = some true) ∧
      ∑ r, ∑ i, (x r).get i * (v r).get i = ∑ r, ∑ k, (t r).get k * (y r).get k ∧
      (n = 1 → ∀ r,
        ((link r).prolong .alone (t r).toArray (onLocal r).toArray).runAlone =
          .ok (x r).toArray ∧
        ((link r).prolongTranspose .alone (v r).toArray (onTrue r).toArray).runAlone =
          .ok (y r).toArray ∧
        ((link r).dependents .alone (marks r).toArray (onMarks r).toArray).runAlone =
          .ok (marked r).toArray ∧
        (∀ w : Vector S g, w.toArray = (t r).toArray → x r = (P r).mulVec w) ∧
        (y r).toArray = ((P r).mulVecTranspose (v r)).toArray) := by
  choose hlimit table fits heq using fun r => ofProlongation_eq (hlink r)
  obtain rfl : link = fun r => ⟨(restriction r).size, g, offset r, P r, table r, fits r⟩ :=
    funext heq
  let link : ∀ r, TrueDofs S (m r) := fun r =>
    ⟨(restriction r).size, g, offset r, P r, table r, fits r⟩
  have hsmall := globalSize_lt_limit hoffset hlimit
  have tiled : Tiled link := ⟨hoffset, fun r => hcover.symm, hsmall, hranks⟩
  obtain ⟨value, hvalue⟩ := exists_spread fun r => (t r).size_toArray
  have hwhole := hvalue.stacked_eq hcover
  let sums : Nat → S := fun a => ∑ s, ∑ i, (P s).valueAt i a * (v s).get i
  let x : ∀ r, Vector S (m r) := fun r => .ofFn fun i => ∑ a : Fin g, (P r).entry i a * value a
  let y : ∀ r, Vector S (restriction r).size := fun r => .ofFn fun k => sums (offset r + k)
  have hx : ∀ r i, (x r).get i = ∑ a : Fin g, (P r).entry i a * value a :=
    fun r i => Vector.get_ofFn_eq _ i
  have hy : Spread (fun s => (restriction s).size) sums fun r => (y r).toArray := by
    intro r
    show (Vector.ofFn _).toList = _
    rw [Vector.toList_ofFn, hoffset]
  have hsums : ∀ a : Fin g, sums a = ∑ r, ∑ i, (P r).entry i a * (v r).get i := by
    intro a
    simp only [sums, Csr.valueAt_eq_entry]
  have hstack : stacked y = List.ofFn fun a => ∑ r, ∑ i, (P r).entry i a * (v r).get i :=
    (hy.stacked_eq hcover).trans (congrArg List.ofFn (funext hsums))
  have hprolong : Together (fun r : Fin n =>
      (link r).prolong ⟨r, n⟩ (t r).toArray (onLocal r).toArray) fun r => (x r).toArray :=
    Together.of_bind_done (prolong_then tiled hvalue (fun r => (onLocal r).size_toArray)
      (Together.done _))
  have htranspose : Together (fun r : Fin n =>
      (link r).prolongTranspose ⟨r, n⟩ (v r).toArray (onTrue r).toArray) fun r => (y r).toArray :=
    Together.of_bind_done (prolongTranspose_then tiled v (fun r => (onTrue r).size_toArray)
      (Together.done _))
  obtain ⟨marked, hmarks, hmarked⟩ :=
    dependents_marked tiled marks fun r => (onMarks r).size_toArray
  have hadjoint : ∑ r, ∑ i, (x r).get i * (v r).get i = ∑ r, ∑ k, (t r).get k * (y r).get k := by
    simp only [hx]
    rw [sum_prolonged, hvalue.sum_mul hy hcover]
    exact Finset.sum_congr rfl fun a _ => by rw [hsums]
  refine ⟨x, y, marked, hprolong, htranspose, hmarks, ⟨_, hwhole, hx⟩, hstack, hmarked, hadjoint,
    ?_⟩
  rintro rfl r
  obtain rfl : r = 0 := Subsingleton.elim _ _
  have hglobal : g < Size.limit := hcover ▸ hsmall
  exact ⟨hprolong.alone (orderly_prolong _ hglobal _ _),
    htranspose.alone (orderly_prolongTranspose _ hglobal _ _),
    hmarks.alone (orderly_dependents _ hglobal _ _),
    fun w hw => eq_mulVec_alone P hwhole (hx 0) hw, eq_mulVecTranspose_alone P hstack⟩

/-! ### Two ranks that share one true degree of freedom -/

/-- The first rank owns the only true value, -/
def sharedTrue : ∀ r, Vector Int (sharedRestriction r).size
  | 0 => #v[7]
  | 1 => #v[]

/-- and marks it. -/
def sharedMarks : ∀ r, Vector Bool (sharedRestriction r).size
  | 0 => #v[true]
  | 1 => #v[]

/-- The local values of both ranks. -/
def sharedValues (r : Fin 2) : Vector Int 1 := Vector.replicate 1 (if r.val = 0 then 3 else 5)

/-- So it is for these two ranks: the second one gets `2·7`, the first one gets `1·3 + 2·5`, and
    both find a mark. -/
theorem prolongation_shared :
    ∃ (x : Fin 2 → Vector Int 1) (y : ∀ r, Vector Int (sharedRestriction r).size)
      (marked : Fin 2 → Vector Bool 1),
      Together (fun r : Fin 2 => (sharedLink r).prolong ⟨r, 2⟩ (sharedTrue r).toArray #[0])
        (fun r => (x r).toArray) ∧
      Together (fun r : Fin 2 => (sharedLink r).prolongTranspose ⟨r, 2⟩ (sharedValues r).toArray
        (sharedTrue r).toArray) (fun r => (y r).toArray) ∧
      Together (fun r : Fin 2 => (sharedLink r).dependents ⟨r, 2⟩ (sharedMarks r).toArray #[false])
        (fun r => (marked r).toArray) ∧
      (∀ r, (x r).get 0 = if r = 0 then 7 else 14) ∧ stacked y = [13] ∧
      ∀ r, (marked r).get 0 = true := by
  obtain ⟨x, y, marked, hprolong, htranspose, hmarks, ⟨whole, hwhole, hx⟩, hstack, hfound, -⟩ :=
    prolongation_together sharedProlongation sharedRestriction (fun r => r.val) sharedLink_made
      (by decide) (by decide) (by decide) sharedTrue sharedTrue sharedValues (fun _ => #v[0])
      sharedMarks fun _ => #v[false]
  have hseven : whole = fun _ => 7 := by
    refine List.ofFn_injective (hwhole.symm.trans ?_)
    decide +kernel
  refine ⟨x, y, marked, hprolong, htranspose, hmarks, fun r => ?_, hstack.trans ?_,
    fun r => (hfound r 0).2 ?_⟩
  · rw [hx, hseven]
    revert r
    decide +kernel
  · decide +kernel
  · revert r
    decide +kernel

end TrueDofs

end Condensation
