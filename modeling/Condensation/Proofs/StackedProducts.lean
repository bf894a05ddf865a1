/-
  Stacked products — the distributed product is the product with the stacked rows.

  1. **Misfits (`gather_misfit`)** — ranges that stay in range follow each other, or there is
     a first one that does not start where those before it end.  All ranks gather the same ranges, so
     where these do not fill the space every rank is refused, and all of them with the same words.

  2. **Output vectors (`Program.outputs`)** — what the vector that a rank was to fill holds after the
     run of all ranks is read off the end to which the rank came.

  3. **The result (`products_together`)** — row blocks of one size, each accepted on its own.  Where
     their rows are all rows of the matrix, in the order of the ranks, the parts that the ranks
     compute are the product of the stacked rows with the whole vector, whatever the output vectors
     held; where they are not, every rank refuses and its output vector is as before.
-/
import Condensation.Proofs.AlikeEndings
import Condensation.Proofs.ArbitraryReplies
import Condensation.Proofs.GlobalProlongation

namespace Condensation

variable {S α : Type} {n : Nat}

/-! ## Misfits -/

/-- Some ranges follow each other and fill a space of the given size. -/
def Fill (len offset : Fin n → Nat) (global : Nat) : Prop :=
  (∀ r : Fin n, offset r = (tiling len).start r) ∧ (tiling len).globalSize = global

/-- Why ranges do not fill a space: one of them is the first that does not start where the ones
    before it end, or they all follow each other and end elsewhere. -/
inductive Misfit (len offset : Fin n → Nat) (global : Nat) : NumberingFault → Prop
  | gap (r : Fin n) (before : ∀ s < r, offset s = (tiling len).start s)
      (here : offset r ≠ (tiling len).start r) :
      Misfit len offset global (.rangeGap r (offset r) (offset r + len r) ((tiling len).start r))
  | cover (follow : ∀ r : Fin n, offset r = (tiling len).start r)
      (stop : (tiling len).globalSize ≠ global) :
      Misfit len offset global (.rangesCover (tiling len).globalSize global)

namespace Ownership

/-- The first range that does not start where it should is named. -/
theorem tiled_gap {len offset : Fin n → Nat} (rank next : Nat)
    (hfit : ∀ r, offset r + len r < Size.limit) {r : Fin n}
    (before : ∀ s < r, offset s = next + (tiling len).start s)
    (here : offset r ≠ next + (tiling len).start r) :
    tiled rank next (List.ofFn fun r => [offset r, len r]).flatten =
      .fault (.badNumbering (.rangeGap (rank + r) (offset r) (offset r + len r)
        (next + (tiling len).start r))) := by
  induction n generalizing rank next with
  | zero => exact r.elim0
  | succ n ih =>
    have hsum : Size.sum (offset 0) (len 0) = .ok (offset 0 + len 0) := if_pos (hfit 0)
    rw [List.ofFn_succ, List.flatten_cons]
    show tiled rank next (offset 0 :: len 0 ::
      (List.ofFn fun r : Fin n => [offset r.succ, len r.succ]).flatten) = _
    rw [tiled, hsum, Outcome.ok_bind]
    cases r using Fin.cases with
    | zero =>
      have hgap : offset 0 ≠ next := by simpa [start_zero] using here
      rw [if_neg hgap, Fin.val_zero, start_zero]
      rfl
    | succ r =>
      have hfirst : offset 0 = next := by simpa [start_zero] using before 0 (Fin.succ_pos r)
      have hstart : ∀ s : Fin n, next + (tiling len).start s.succ =
          offset 0 + len 0 + (tiling fun s : Fin n => len s.succ).start s := by
        intro s
        rw [Fin.val_succ, start_tail, hfirst, Nat.add_assoc]
      have htail := ih (rank + 1) (offset 0 + len 0) (fun s => hfit s.succ) (r := r)
        (fun s hs => (before s.succ (Fin.succ_lt_succ_iff.2 hs)).trans (hstart s))
        (fun heq => here (heq.trans (hstart r).symm))
      rw [if_pos hfirst, htail, Outcome.fault_bind, hstart r, Fin.val_succ, Nat.add_right_comm,
        Nat.add_assoc rank]

/-- Ranges that do not follow each other have a first one that does not. -/
theorem exists_first_gap {len offset : Fin n → Nat}
    (h : ¬ ∀ r : Fin n, offset r = (tiling len).start r) :
    ∃ r : Fin n, (∀ s < r, offset s = (tiling len).start s) ∧ offset r ≠ (tiling len).start r := by
  obtain ⟨r, here, least⟩ := wellFounded_lt.has_min {r : Fin n | offset r ≠ (tiling len).start r}
    (not_forall.1 h)
  exact ⟨r, fun s hs => not_not.1 fun hgap => least s hgap hs, here⟩

/-- Ranges that do not fill the space are refused, by every rank with the same words. -/
theorem agreed_misfit {len offset : Fin n → Nat} {global : Nat}
    (hfit : ∀ r, offset r + len r < Size.limit) (hranks : 2 * n < Size.limit)
    (h : ¬ Fill len offset global) :
    ∃ why, Misfit len offset global why ∧
      agreed n (List.ofFn fun r => [offset r, len r]).flatten global =
        .fault (.badNumbering why) := by
  have hproduct : Size.product [2, n] = .ok (2 * n) :=
    Size.product_eq_ok_iff.2 (by simp [Size.InRange, hranks])
  rw [agreed, hproduct, Outcome.ok_bind, sameLength_pairs, Outcome.ok_bind]
  by_cases follow : ∀ r : Fin n, offset r = (tiling len).start r
  · have stop : (tiling len).globalSize ≠ global := fun stop => h ⟨follow, stop⟩
    have htiled := tiled_eq 0 0 len offset (by simpa using follow)
      (by simpa using TrueDofs.globalSize_lt_limit follow hfit)
    refine ⟨_, .cover follow stop, ?_⟩
    rw [htiled, Nat.zero_add, Outcome.ok_bind]
    show Outcome.require _ _ >>= _ = _
    rw [Outcome.require, if_neg stop, Outcome.fault_bind]
  · obtain ⟨r, before, here⟩ := exists_first_gap follow
    have htiled := tiled_gap 0 0 hfit (r := r) (by simpa using before) (by simpa using here)
    refine ⟨_, .gap r before here, ?_⟩
    rw [htiled, Nat.zero_add, Nat.zero_add, Outcome.fault_bind]

/-- **Misfits**: ranks that gather such ranges are all refused. -/
theorem gather_misfit {len offset : Fin n → Nat} {global : Nat}
    (hfit : ∀ r, offset r + len r < Size.limit) (hranks : 2 * n < Size.limit)
    (h : ¬ Fill len offset global) :
    ∃ why, Misfit len offset global why ∧ ∀ k : Fin n → Ownership → Program S α,
      Program.runTogether (List.ofFn fun r : Fin n =>
        Ownership.gather ⟨r, n⟩ (offset r) (len r) global >>= k r) =
          List.ofFn fun _ : Fin n => some (.fault (.badNumbering why)) := by
  obtain ⟨why, hwhy, hagreed⟩ := agreed_misfit hfit hranks h
  refine ⟨why, hwhy, fun k => ?_⟩
  simp only [gather_eq, Program.gather_bind, Together.runTogether_gather, hagreed,
    Program.done_fault_bind]
  cases n with
  | zero => rfl
  | succ n =>
    exact Program.runTogether_of_ended
      (p := fun _ : Fin (n + 1) => Program.done (.fault (.badNumbering why))) (q := 0) rfl

end Ownership

/-! ## Output vectors -/

namespace Program

/-- What the output vector of rank `r` holds after the run of all ranks, each of which is to fill
    its own. -/
def outputs (p : Fin n → Program S (Array α)) (into : Fin n → Array α) (r : Fin n) :
    Option (Array α) :=
  (runTogether (List.ofFn p))[r.val]?.join.bind (Outcome.leaves (into r))

theorem outputs_eq {p : Fin n → Program S (Array α)} {o : Fin n → Outcome (Array α)}
    (h : runTogether (List.ofFn p) = List.ofFn fun r => some (o r)) (into : Fin n → Array α)
    (r : Fin n) : outputs p into r = (o r).leaves (into r) := by
  simp [outputs, h]

end Program

/-! ## The result -/

/-- The parts of all ranks make up a whole of known length. -/
theorem exists_whole {len : Fin n → Nat} {g : Nat} (x : ∀ r, Vector α (len r))
    (hcover : (tiling len).globalSize = g) : ∃ whole : Fin g → α, stacked x = List.ofFn whole := by
  have hlength : (stacked x).length = g :=
    (Ownership.length_stack (fun r => (x r).toList) fun r => (x r).length_toList).trans hcover
  subst hlength
  exact ⟨fun a => (stacked x)[a], List.ofFn_getElem.symm⟩

theorem stacked_map {β : Type} {len : Fin n → Nat} (x : ∀ r, Vector α (len r)) (f : α → β) :
    stacked (fun r => (x r).map f) = (stacked x).map f := by
  simp only [stacked, List.map_flatten, List.map_ofFn, Vector.toList_map]
  rfl

namespace RowBlock

/-- What a block of rows holds that was accepted. -/
theorem of_ofRows {g offset r : Nat} {M : Csr S r g} {A : RowBlock S}
    (h : ofRows g offset M = .ok A) :
    offset + r < Size.limit ∧ ∃ fits, A = ⟨g, r, offset, M, fits⟩ := by
  obtain ⟨_, -, h⟩ := Outcome.bind_eq_ok_iff.1 h
  obtain ⟨last, hlast, h⟩ := Outcome.bind_eq_ok_iff.1 h
  refine ⟨?_, ?_⟩
  · by_contra hlimit
    rw [Size.sum, if_neg hlimit] at hlast
    exact absurd hlast (by simp)
  · split at h
    · next hfits => exact ⟨hfits.2, (Outcome.ok.inj h).symm⟩
    · simp at h

/-- **The result**: for any number of ranks, any accepted blocks of rows of one size and any
    vectors.  If the rows of the ranks follow each other and are all rows, `mulVec` ends well on
    all ranks and the parts that it computes, which the output vectors hold then, make up the product
    of the stacked rows with the whole vector, whatever they held before.  If not, every rank
    refuses, all with the same words, and after the run of all ranks every output vector holds what
    it held before. -/
theorem products_together [NonUnitalNonAssocSemiring S] {g : Nat} {rows : Fin n → Nat}
    (M : ∀ r, Csr S (rows r) g) (offset : Fin n → Nat) {A : Fin n → RowBlock S}
    (hA : ∀ r, ofRows g (offset r) (M r) = .ok (A r)) (hranks : 2 * n < Size.limit)
    (x : ∀ r, Vector S (rows r)) :
    (Fill rows offset g →
      ∃ (matrix : Fin g → Vector S g) (whole : Fin g → S) (y : ∀ r, Vector S (rows r)),
        stacked (fun r => (M r).toRows) = List.ofFn matrix ∧ stacked x = List.ofFn whole ∧
        stacked y = List.ofFn (fun a => ∑ b, (matrix a).get b * whole b) ∧
        ∀ into : ∀ r, Vector S (rows r),
          Together (fun r : Fin n => (A r).mulVec ⟨r, n⟩ (x r).toArray (into r).toArray)
            (fun r => (y r).toArray) ∧
          ∀ r, Program.outputs
            (fun r : Fin n => (A r).mulVec ⟨r, n⟩ (x r).toArray (into r).toArray)
            (fun r => (into r).toArray) r = some (y r).toArray) ∧
    (¬ Fill rows offset g →
      ∃ why, Misfit rows offset g why ∧ ∀ into : ∀ r, Vector S (rows r),
        Program.runTogether (List.ofFn fun r : Fin n =>
          (A r).mulVec ⟨r, n⟩ (x r).toArray (into r).toArray) =
            List.ofFn (fun _ : Fin n => some (.fault (.badNumbering why))) ∧
        ∀ r, Program.outputs
          (fun r : Fin n => (A r).mulVec ⟨r, n⟩ (x r).toArray (into r).toArray)
          (fun r => (into r).toArray) r = some (into r).toArray) := by
  choose hlimit fits heq using fun r => of_ofRows (hA r)
  obtain rfl : A = fun r => ⟨g, rows r, offset r, M r, fits r⟩ := funext heq
  refine ⟨fun fill => ?_, fun misfit => ?_⟩
  · obtain ⟨follow, hcover⟩ := fill
    have tiles : Tiles rows offset fun _ => g :=
      ⟨follow, fun _ => hcover.symm, TrueDofs.globalSize_lt_limit follow hlimit, hranks⟩
    obtain ⟨matrix, hmatrix⟩ := exists_whole (fun r => (M r).toRows) hcover
    obtain ⟨value, hvalue⟩ := exists_spread fun r => (x r).size_toArray
    let dot : Vector S g → S := fun row => ∑ b : Fin g, row.get b * value b
    have hdot : ∀ r, ((M r).toRows.map dot) =
        Vector.ofFn fun i => ∑ b, (M r).entry i b * value b.val := by
      intro r
      rw [Csr.toRows, Vector.map_ofFn]
      simp only [dot, Function.comp_def, Vector.get_ofFn_eq]
    refine ⟨matrix, fun b => value b, fun r => (M r).toRows.map dot, hmatrix,
      hvalue.stacked_eq hcover, ?_, fun into => ?_⟩
    · rw [stacked_map, hmatrix, List.map_ofFn]
      rfl
    · have htogether : Together
          (fun r : Fin n => (⟨g, rows r, offset r, M r, fits r⟩ : RowBlock S).mulVec ⟨r, n⟩
            (x r).toArray (into r).toArray) fun r => ((M r).toRows.map dot).toArray := by
        simp only [hdot]
        exact Together.of_bind_done (mulVec_then (A := fun r => ⟨g, rows r, offset r, M r, fits r⟩)
          tiles hvalue (fun r => (into r).size_toArray) (Together.done _))
      exact ⟨htogether, Program.outputs_eq htogether _⟩
  · obtain ⟨why, hwhy, hrun⟩ := Ownership.gather_misfit (S := S) (α := Array S) hlimit hranks misfit
    refine ⟨why, hwhy, fun into => ?_⟩
    have hlength : ∀ (what : Quantity) (r : Fin n), Outcome.sameLength what (rows r) (rows r) =
        .ok () := fun what r => Outcome.require_eq_ok_iff.2 rfl
    have hrefused : Program.runTogether (List.ofFn fun r : Fin n =>
        (⟨g, rows r, offset r, M r, fits r⟩ : RowBlock S).mulVec ⟨r, n⟩ (x r).toArray
          (into r).toArray) = List.ofFn fun _ : Fin n => some (.fault (.badNumbering why)) := by
      simp only [mulVec, Vector.size_toArray, hlength, Program.liftM_eq, Program.done_ok_bind]
      exact hrun _
    exact ⟨hrefused, Program.outputs_eq hrefused _⟩

/-! ### Three ranks, one of them without rows -/

/-- How many rows the ranks have. -/
def heights : Fin 3 → Nat
  | 0 => 2
  | 1 => 0
  | 2 => 1

/-- The last of the three columns, -/
def lastColumn : Fin 3 := .last 2

/-- and the first one. -/
def firstColumn : Fin 3 := lastColumn.rev

/-- Some rows without entries, and one row of entries below them. -/
def belowEmptyRows (k : Nat) (entries : List (Fin 3 × Int)) : Csr Int (k + 1) 3 where
  stored := entries.length
  rowPtr := Vector.ofFn fun i => if i.val = k + 1 then entries.length else 0
  columns := ⟨(entries.map (·.1)).toArray, by simp⟩
  values := ⟨(entries.map (·.2)).toArray, by simp⟩
  rowPtr_zero := by rw [Vector.get_ofFn_eq, if_neg (by simp)]
  rowPtr_last := by rw [Vector.get_ofFn_eq, if_pos (Fin.val_last _)]
  rowPtr_mono := fun i => by
    have := i.isLt
    rw [Vector.get_ofFn_eq, if_neg (by simp; omega)]
    exact Nat.zero_le _

/-- No rows at all. -/
def noRows : Csr Int 0 3 :=
  ⟨0, #v[0], .replicate 0 firstColumn, .replicate 0 0, rfl, rfl, by decide⟩

/-- The first rank stores a row without entries and one out of order and in parts; nobody refers to
    the column in the middle. -/
def scatteredRows : ∀ r : Fin 3, Csr Int (heights r) 3
  | 0 => belowEmptyRows 1 [(lastColumn, 1), (firstColumn, 4), (lastColumn, 1)]
  | 1 => noRows
  | 2 => belowEmptyRows 0 [(firstColumn, 5)]

/-- The parts of a vector. -/
def scatteredParts : ∀ r : Fin 3, Vector Int (heights r)
  | 0 => #v[1, 10]
  | 1 => .replicate 0 0
  | 2 => #v[100]

/-- The blocks at some first rows. -/
def scatteredBlocks (offset : Fin 3 → Nat) (fits : ∀ r, offset r + heights r ≤ 3) (r : Fin 3) :
    RowBlock Int :=
  ⟨3, heights r, offset r, scatteredRows r, fits r⟩

theorem scatteredBlocks_made (offset : Fin 3 → Nat) (fits : ∀ r, offset r + heights r ≤ 3)
    (r : Fin 3) :
    ofRows 3 (offset r) (scatteredRows r) = .ok (scatteredBlocks offset fits r) := by
  have hlast : Size.sum (offset r) (heights r) = .ok (offset r + heights r) :=
    if_pos (lt_of_le_of_lt (fits r) (by decide))
  show Size.sum (offset r) (heights r) >>= _ = _
  rw [hlast, Outcome.ok_bind, dif_pos ⟨rfl, fits r⟩]
  rfl

/-- So it is for these ranks: where the rank without rows stands between the other two, the product
    is zero, `4·1 + (1 + 1)·100` and `5·1`; where it is said to start at row one, all three refuse,
    and their output vectors are as before. -/
theorem products_together_scattered :
    (∃ y : ∀ r, Vector Int (heights r), stacked y = [0, 204, 5] ∧
      Together (fun r : Fin 3 =>
        (scatteredBlocks (fun r => if r = 0 then 0 else 2) (by decide) r).mulVec ⟨r, 3⟩
          (scatteredParts r).toArray (scatteredParts r).toArray) fun r => (y r).toArray) ∧
    Program.runTogether (List.ofFn fun r : Fin 3 =>
      (scatteredBlocks (fun r => r.val) (by decide) r).mulVec ⟨r, 3⟩
        (scatteredParts r).toArray (scatteredParts r).toArray) =
        List.ofFn (fun _ : Fin 3 => some (.fault (.badNumbering (.rangeGap 1 1 1 2)))) ∧
    ∀ r, Program.outputs (fun r : Fin 3 =>
      (scatteredBlocks (fun r => r.val) (by decide) r).mulVec ⟨r, 3⟩
        (scatteredParts r).toArray (scatteredParts r).toArray)
      (fun r => (scatteredParts r).toArray) r = some (scatteredParts r).toArray := by
  obtain ⟨hfill, -⟩ := products_together scatteredRows (fun r => if r = 0 then 0 else 2)
    (scatteredBlocks_made _ (by decide)) (by decide) scatteredParts
  obtain ⟨-, hmisfit⟩ := products_together scatteredRows (fun r => r.val)
    (scatteredBlocks_made _ (by decide)) (by decide) scatteredParts
  refine ⟨?_, ?_⟩
  · obtain ⟨matrix, whole, y, hmatrix, hwhole, hy, htogether⟩ :=
      hfill ⟨by decide, by decide⟩
    obtain rfl : matrix = ![#v[0, 0, 0], #v[4, 0, 2], #v[5, 0, 0]] :=
      List.ofFn_injective (hmatrix.symm.trans (by decide +kernel))
    obtain rfl : whole = ![1, 10, 100] :=
      List.ofFn_injective (hwhole.symm.trans (by decide +kernel))
    exact ⟨y, hy.trans (by decide +kernel), (htogether scatteredParts).1⟩
  · obtain ⟨why, hwhy, hrefused⟩ := hmisfit fun ⟨follow, _⟩ => absurd (follow 1) (by decide)
    obtain ⟨hends, houtputs⟩ := hrefused scatteredParts
    refine ⟨hends.trans ?_, houtputs⟩
    cases hwhy with
    | gap r before here =>
      have hfirst : ∀ q : Fin 3, (∀ s < q, s.val = (tiling heights).start s) →
          q.val ≠ (tiling heights).start q → q = 1 := by decide
      obtain rfl := hfirst r before here
      rfl
    | cover follow stop => exact absurd (follow 1) (by decide)

end RowBlock

end Condensation
