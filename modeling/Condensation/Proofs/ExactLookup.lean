/-
  Exact lookup — what the gathered ranges are good for.

  1. **Boundaries (`slice_of_counts`)** — how often each key occurs adds up, key after key, to where
     the next one begins.  So a list in the order of its keys is cut into its classes at the sums of
     these counts, and a key that does not occur gets an empty part.

  2. **The result (`exact_lookup`)** — any number of ranks, each with any range, and one size of the
     space.  Where the ranges follow each other up to that size, every rank gathers them, and owner
     and counts say of each index whose it is; empty ranges, which start where the next range does,
     own nothing.  Where they do not, every rank is refused, so what a rank holds was gathered from
     ranges that do.
-/
import Condensation.Proofs.StackedProducts

namespace Condensation

variable {n : Nat}

/-! ## Boundaries -/

section Boundaries

variable {β : Type} {key : β → Nat} {L : List β}

/-- Before a key comes what has a smaller one. -/
theorem offset_classes (hL : L.Pairwise fun a b => key a ≤ key b) {q : Nat} (hq : q ≤ n) :
    Size.offset ((classes n key L).map List.length) q = L.countP fun b => key b < q := by
  induction q with
  | zero => simp
  | succ q ih =>
    have hlt : q < ((classes n key L).map List.length).length := by simpa [classes] using hq
    have hhere : ((classes n key L).map List.length)[q] = L.countP fun b => key b = q := by
      simp [classes, List.countP_eq_length_filter]
    rw [Size.offset_succ hlt, ih (Nat.le_of_succ_le hq), hhere, countP_lt_succ hL]

/-- **Boundaries**: between two sums of the counts lies what has the key between them. -/
theorem slice_of_counts (hL : L.Pairwise fun a b => key a ≤ key b) {counts : List Nat}
    (hcounts : (classes n key L).map List.length = counts) {q : Nat} (hq : q < n) :
    (L.take (Size.offset counts (q + 1))).drop (Size.offset counts q) =
      L.filter fun b => key b = q := by
  rw [← hcounts, offset_classes hL hq, offset_classes hL (Nat.le_of_lt hq), List.drop_take,
    countP_lt_succ hL, Nat.add_sub_cancel_left, slice_eq hL]

end Boundaries

/-! ## The result -/

namespace Ownership

/-- Some ranks look up in `o` what their ranges say: rank `q` owns what starts at `offset q`, `len q`
    indices of a space of the given size. -/
structure LooksUp (o : Ownership) (len offset : Fin n → Nat) (global : Nat) : Prop where
  /-- Each rank is shown its own range. -/
  rangeAt_eq : ∀ q : Fin n, o.rangeAt q = .ok ⟨offset q, offset q + len q⟩
  /-- The owner of an index is the one rank whose range holds it. -/
  owner_exact : ∀ g < global, ∃ q : Fin n, o.owner g = .ok q ∧
    ∀ q' : Fin n, (offset q' ≤ g ∧ g < offset q' + len q') ↔ q' = q
  /-- Owners ascend with the indices, whatever these are. -/
  owner_mono : ∀ g g', g ≤ g' → ∃ q q', o.owner g = .ok q ∧ o.owner g' = .ok q' ∧ q ≤ q'
  /-- Ascending indices are cut at the sums of the counts into what each rank owns of them. -/
  counts_cut : ∀ L : List Nat, L.Pairwise (· ≤ ·) → (∀ g ∈ L, g < global) →
    ∃ counts, o.countsPerOwner L = .ok counts ∧ counts.length = n ∧ ∀ q : Fin n,
      (L.take (Size.offset counts (q + 1))).drop (Size.offset counts q) =
        L.filter fun g => offset q ≤ g ∧ g < offset q + len q

/-- A rank looks up in the tiling what the ranges say. -/
theorem looksUp_tiling {len offset : Fin n → Nat} {global : Nat} (fill : Fill len offset global)
    (hn : 0 < n) : (tiling len).LooksUp len offset global := by
  obtain ⟨follow, rfl⟩ := fill
  have hranks : 0 < (tiling len).numRanks := by rwa [numRanks_tiling]
  have hrange : ∀ q : Fin n, (tiling len).range q = ⟨offset q, offset q + len q⟩ := by
    intro q
    rw [range, start_succ, follow]
  have hrank : ∀ g < (tiling len).globalSize, ∀ q : Fin n,
      (offset q ≤ g ∧ g < offset q + len q) ↔ (tiling len).rankOf g = q := by
    intro g hg q
    rw [rankOf_eq_iff hg, hrange]
    exact Iff.rfl
  constructor
  case rangeAt_eq =>
    intro q
    rw [rangeAt_tiling, hrange]
  case owner_exact =>
    intro g hg
    refine ⟨⟨_, rankOf_lt hg⟩, owner_eq hranks g, fun q' => ?_⟩
    rw [hrank g hg, Fin.ext_iff, eq_comm]
  case owner_mono =>
    intro g g' hgg
    exact ⟨_, _, owner_eq hranks g, owner_eq hranks g', rankOf_mono _ hgg⟩
  case counts_cut =>
    intro L hL hin
    have hcounts : (tiling len).countsPerOwner L =
        .ok ((classes n (tiling len).rankOf L).map List.length) := by
      simpa only [List.map_id, id_eq] using countsPerOwner_eq hn id L
    refine ⟨_, hcounts, by simp [classes], fun q => ?_⟩
    -- owners ascend with the indices, so the list is in the order of its owners
    rw [slice_of_counts (hL.imp fun h => rankOf_mono _ h) rfl q.isLt]
    refine List.filter_congr fun g hg => ?_
    rw [decide_eq_decide]
    exact (hrank g (hin g hg) q).symm

/-- **The result**: for any ranges whose ends are in range and any number of ranks, as long as the
    two numbers that each of them gives can be counted.  If the ranges follow each other from zero to
    the size of the space, all ranks gather one and the same tiling; if not, all are refused with the
    same words.  And whatever all ranks gather is the same for all and comes from ranges that do
    follow each other, and each rank looks up in it what these say. -/
theorem exact_lookup {S : Type} {len offset : Fin n → Nat} (global : Nat)
    (hfit : ∀ r, offset r + len r < Size.limit) (hranks : 2 * n < Size.limit) :
    (Fill len offset global →
      Together (S := S) (fun r : Fin n => gather ⟨r, n⟩ (offset r) (len r) global)
        fun _ => tiling len) ∧
    (¬ Fill len offset global →
      ∃ why, Misfit len offset global why ∧
        Program.runTogether (S := S)
          (List.ofFn fun r : Fin n => gather ⟨r, n⟩ (offset r) (len r) global) =
            List.ofFn fun _ : Fin n => some (.fault (.badNumbering why))) ∧
    ∀ o : Fin n → Ownership,
      Together (S := S) (fun r : Fin n => gather ⟨r, n⟩ (offset r) (len r) global) o →
      ∀ r : Fin n, (∀ r', o r' = o r) ∧ Fill len offset global ∧
        (o r).LooksUp len offset global := by
  refine ⟨fun ⟨follow, hcover⟩ => ?_, fun misfit => ?_, fun o ho r => ?_⟩
  · have tiles : Tiles len offset fun _ => global :=
      ⟨follow, fun _ => hcover.symm, TrueDofs.globalSize_lt_limit follow hfit, hranks⟩
    exact Together.of_bind_done (gather_then tiles (Together.done _))
  · obtain ⟨why, hwhy, hrun⟩ := gather_misfit (S := S) (α := Ownership) hfit hranks misfit
    refine ⟨why, hwhy, ?_⟩
    simpa only [Program.bind_done] using hrun fun _ o => .done (.ok o)
  · have hgather : Together (S := S) (fun r : Fin n =>
        gather ⟨r, n⟩ (offset r) (len r) global >>= fun o => .done (.ok o)) o := by
      simpa only [Program.bind_done] using ho
    obtain ⟨tiles, hdone⟩ := of_gather hgather
    obtain rfl : o = fun _ => tiling len := Together.unique hdone (Together.done _)
    have fill : Fill len offset global := ⟨tiles.offset_eq, (tiles.global_eq r).symm⟩
    exact ⟨fun _ => rfl, fill, looksUp_tiling fill r.pos⟩

/-! ### Four ranks, two of them without indices -/

/-- How many indices the ranks own, -/
def gappedLengths : Fin 4 → Nat := ![0, 3, 0, 2]

/-- and where their ranges start. -/
def gappedStarts : Fin 4 → Nat := ![0, 0, 3, 3]

/-- So it is for these ranks: the first index is that of rank one and index three that of rank three,
    and four indices go half to the one and half to the other.  Of a space with one more index all
    four ranks are refused. -/
theorem exact_lookup_gapped :
    Together (S := Int) (fun r : Fin 4 => gather ⟨r, 4⟩ (gappedStarts r) (gappedLengths r) 5)
      (fun _ => tiling gappedLengths) ∧
    (tiling gappedLengths).LooksUp gappedLengths gappedStarts 5 ∧
    ((tiling gappedLengths).owner 0 = .ok 1 ∧ (tiling gappedLengths).owner 3 = .ok 3 ∧
      (tiling gappedLengths).countsPerOwner [0, 1, 3, 4] = .ok [0, 2, 0, 2]) ∧
    Program.runTogether (S := Int)
      (List.ofFn fun r : Fin 4 => gather ⟨r, 4⟩ (gappedStarts r) (gappedLengths r) 6) =
        List.ofFn fun _ : Fin 4 => some (.fault (.badNumbering (.rangesCover 5 6))) := by
  have hfit : ∀ r, gappedStarts r + gappedLengths r < Size.limit := by decide
  obtain ⟨hfill, -, hlookup⟩ := exact_lookup (S := Int) 5 hfit (by decide)
  obtain ⟨-, hmisfit, -⟩ := exact_lookup (S := Int) 6 hfit (by decide)
  have hgathered := hfill ⟨by decide, by decide⟩
  refine ⟨hgathered, (hlookup _ hgathered 0).2.2, by decide, ?_⟩
  obtain ⟨why, hwhy, hrefused⟩ := hmisfit fun ⟨_, hcover⟩ => absurd hcover (by decide)
  rw [hrefused]
  cases hwhy with
  | gap r before here => exact absurd ((by decide : ∀ r : Fin 4, gappedStarts r =
      (tiling gappedLengths).start r) r) here
  | cover follow stop => rfl

end Ownership

end Condensation
