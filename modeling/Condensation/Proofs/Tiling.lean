/-
  Tiling — whose index is it.

  1. **Agreement** — ranks whose ranges follow each other all gather the same tiling
     (`gather_then`), and ranks that gather and go on have such ranges (`of_gather`).

  2. **Lookup** — the owner of an index is the rank whose range holds it (`rankOf_eq_iff`), so
     owners ascend with the indices.

  3. **Stacking (`flatten_stack`)** — the parts of all ranks, one after another, are the whole.

  4. **Counting (`countsPerOwner_eq`)** — the counts of the owners are the lengths of what the ranks
     own of the indices.
-/
import Condensation.Ranks.Ownership
import Condensation.Proofs.Collective
import Condensation.Proofs.Cutting
import Condensation.Proofs.Sizes
import Mathlib.Data.List.TakeWhile

namespace Condensation

variable {S α : Type} {n : Nat}

/-- The tiling by ranges of the given lengths. -/
def tiling (len : Fin n → Nat) : Ownership := ⟨List.ofFn len⟩

/-- The ranges of all ranks follow each other and fill a global space. -/
structure Tiles (len offset global : Fin n → Nat) : Prop where
  offset_eq : ∀ r : Fin n, offset r = (tiling len).start r
  global_eq : ∀ r, global r = (tiling len).globalSize
  small : (tiling len).globalSize < Size.limit
  ranks : 2 * n < Size.limit

namespace Ownership

/-! ## Ranges -/

@[simp] theorem numRanks_tiling (len : Fin n → Nat) : (tiling len).numRanks = n := by
  simp [numRanks, tiling]

theorem start_zero (o : Ownership) : o.start 0 = 0 := Size.offset_zero _

theorem start_mono (o : Ownership) : Monotone o.start := Size.offset_mono _

theorem start_succ (len : Fin n → Nat) (r : Fin n) :
    (tiling len).start (r + 1) = (tiling len).start r + len r := by
  show Size.offset (List.ofFn len) (r + 1) = Size.offset (List.ofFn len) r + len r
  rw [Size.offset_succ (by simp), List.getElem_ofFn]

theorem start_last (len : Fin n → Nat) : (tiling len).start n = (tiling len).globalSize := by
  have := Size.offset_length (List.ofFn len)
  rwa [List.length_ofFn] at this

/-- The start of a later range, seen from behind the first one. -/
theorem start_tail (len : Fin (n + 1) → Nat) (r : Nat) :
    (tiling len).start (r + 1) = len 0 + (tiling fun s : Fin n => len s.succ).start r := by
  simp [tiling, start, List.ofFn_succ]

theorem globalSize_tail (len : Fin (n + 1) → Nat) :
    (tiling len).globalSize = len 0 + (tiling fun s : Fin n => len s.succ).globalSize := by
  simp [tiling, globalSize, List.ofFn_succ]

theorem rangeAt_tiling (len : Fin n → Nat) (r : Fin n) :
    (tiling len).rangeAt r = .ok ((tiling len).range r) := by
  rw [rangeAt, numRanks_tiling, if_pos r.isLt]

theorem length_range (len : Fin n → Nat) (r : Fin n) : ((tiling len).range r).length = len r := by
  rw [IndexRange.length, range, start_succ, Nat.add_sub_cancel_left]

/-! ## Agreement -/

theorem tiled_eq (rank next : Nat) (len : Fin n → Nat) (offset : Fin n → Nat)
    (hoffset : ∀ r : Fin n, offset r = next + (tiling len).start r)
    (hlimit : next + (tiling len).globalSize < Size.limit) :
    tiled rank next (List.ofFn fun r => [offset r, len r]).flatten =
      .ok (List.ofFn len, next + (tiling len).globalSize) := by
  induction n generalizing rank next with
  | zero => simp [tiled, tiling, globalSize]
  | succ n ih =>
    have hfirst : offset 0 = next := by
      have := hoffset 0
      rwa [Fin.val_zero, start_zero] at this
    have htotal := globalSize_tail len
    have hrest : ∀ r : Fin n, offset r.succ =
        next + len 0 + (tiling fun r : Fin n => len r.succ).start r := by
      intro r
      rw [hoffset, Fin.val_succ, start_tail, Nat.add_assoc]
    have hsum : Size.sum (offset 0) (len 0) = .ok (next + len 0) := by
      rw [Size.sum, if_pos (by omega), hfirst]
    rw [List.ofFn_succ, List.flatten_cons]
    show tiled rank next (offset 0 :: len 0 ::
      (List.ofFn fun r : Fin n => [offset r.succ, len r.succ]).flatten) = _
    rw [tiled, hsum, Outcome.ok_bind, if_pos hfirst,
      ih (rank + 1) (next + len 0) (fun r => len r.succ) (fun r => offset r.succ) hrest (by omega),
      Outcome.ok_bind, htotal, List.ofFn_succ, Nat.add_assoc]
    rfl

/-- All ranks together give a start and a length for each. -/
theorem sameLength_pairs (len offset : Fin n → Nat) :
    Outcome.sameLength .gatheredRanges (2 * n)
      (List.ofFn fun r => [offset r, len r]).flatten.length = .ok () := by
  refine Outcome.require_eq_ok_iff.2 ?_
  rw [List.length_flatten, List.map_ofFn]
  simp [Function.comp_def, List.ofFn_const, Nat.mul_comm]

/-- **Agreement**: all ranks gather the tiling and go on with it. -/
theorem gather_then {len offset global : Fin n → Nat} (tiles : Tiles len offset global)
    {k : Fin n → Ownership → Program S α} {a : Fin n → α}
    (h : Together (fun r => k r (tiling len)) a) :
    Together (fun r : Fin n => Ownership.gather ⟨r, n⟩ (offset r) (len r) (global r) >>= k r) a := by
  have hproduct : Size.product [2, n] = .ok (2 * n) :=
    Size.product_eq_ok_iff.2 (by simp [Size.InRange, tiles.ranks])
  have hlen := sameLength_pairs len offset
  have htiled := tiled_eq 0 0 len offset (by simpa using tiles.offset_eq)
    (by simpa using tiles.small)
  rw [Nat.zero_add] at htiled
  have hcover : ∀ r, Outcome.require ((tiling len).globalSize = global r)
      (.badNumbering (.rangesCover (tiling len).globalSize (global r))) = .ok () :=
    fun r => Outcome.require_eq_ok_iff.2 (tiles.global_eq r).symm
  simp only [Ownership.gather, Program.allGather, Program.gather_bind, Program.done_ok_bind]
  refine Together.gather_iff.2 ?_
  simp only [Program.liftM_eq, hproduct, Program.done_ok_bind, hlen, htiled, hcover,
    Program.pure_eq]
  exact h

/-- Ranges that were found to follow each other do so. -/
theorem of_tiled {rank next : Nat} {len offset : Fin n → Nat} {lengths : List Nat} {stop : Nat}
    (h : tiled rank next (List.ofFn fun r => [offset r, len r]).flatten = .ok (lengths, stop)) :
    lengths = List.ofFn len ∧ stop = next + (tiling len).globalSize ∧
      (∀ r : Fin n, offset r = next + (tiling len).start r) ∧ (0 < n → stop < Size.limit) := by
  induction n generalizing rank next lengths stop with
  | zero =>
    obtain ⟨rfl, rfl⟩ : [] = lengths ∧ next = stop := by simpa [tiled] using h
    exact ⟨rfl, rfl, fun r => r.elim0, fun hn => absurd hn (lt_irrefl 0)⟩
  | succ n ih =>
    rw [List.ofFn_succ, List.flatten_cons] at h
    change tiled rank next (offset 0 :: len 0 ::
      (List.ofFn fun r : Fin n => [offset r.succ, len r.succ]).flatten) = _ at h
    rw [tiled] at h
    obtain ⟨last, hlast, h⟩ := Outcome.bind_eq_ok_iff.1 h
    obtain ⟨hsum, rfl⟩ : offset 0 + len 0 < Size.limit ∧ offset 0 + len 0 = last := by
      unfold Size.sum at hlast
      split at hlast
      · next hsum => exact ⟨hsum, Outcome.ok.inj hlast⟩
      · simp at hlast
    split at h
    · next hfirst =>
      obtain ⟨⟨lengths', stop'⟩, htail, h⟩ := Outcome.bind_eq_ok_iff.1 h
      obtain ⟨rfl, rfl⟩ : len 0 :: lengths' = lengths ∧ stop' = stop := by simpa using h
      obtain ⟨rfl, rfl, hoffset, hstop⟩ := ih htail
      have htotal := globalSize_tail len
      refine ⟨by rw [List.ofFn_succ], by omega, fun r => ?_, fun _ => ?_⟩
      · cases r using Fin.cases with
        | zero => rw [Fin.val_zero, start_zero]; exact hfirst
        | succ r => rw [hoffset, Fin.val_succ, start_tail, hfirst]; omega
      · cases n with
        | zero =>
          have hnone : (tiling fun s : Fin 0 => len s.succ).globalSize = 0 := rfl
          rw [hnone]
          exact hsum
        | succ n => exact hstop (Nat.succ_pos n)
    · simp at h

/-- What a rank makes of the ranges that all ranks have given. -/
def agreed (ranks : Nat) (pairs : List Nat) (global : Nat) : Outcome Ownership := do
  let expected ← Size.product [2, ranks]
  Outcome.sameLength .gatheredRanges expected pairs.length
  let (lengths, stop) ← tiled 0 0 pairs
  Outcome.require (stop = global) (.badNumbering (.rangesCover stop global))
  return ⟨lengths⟩

theorem gather_eq (place : Place) (offset length global : Nat) :
    (gather place offset length global : Program S Ownership) =
      .gather [offset, length] fun pairs => .done (agreed place.size pairs global) := by
  simp only [agreed, ← Program.done_bind_done]
  rfl

/-- A rank that agrees has found ranges that follow each other up to its own end of the space. -/
theorem of_agreed {len offset : Fin n → Nat} {global : Nat} {o : Ownership}
    (h : agreed n (List.ofFn fun r => [offset r, len r]).flatten global = .ok o) :
    o = tiling len ∧ global = (tiling len).globalSize ∧
      (∀ r : Fin n, offset r = (tiling len).start r) ∧
      (0 < n → (tiling len).globalSize < Size.limit ∧ 2 * n < Size.limit) := by
  obtain ⟨expected, hexpected, h⟩ := Outcome.bind_eq_ok_iff.1 h
  obtain ⟨_, -, h⟩ := Outcome.bind_eq_ok_iff.1 h
  obtain ⟨⟨lengths, stop⟩, htiled, h⟩ := Outcome.bind_eq_ok_iff.1 h
  obtain ⟨_, hcover, h⟩ := Outcome.bind_eq_ok_iff.1 h
  obtain ⟨rfl, hstop, hoffset, hsmall⟩ := of_tiled htiled
  rw [Nat.zero_add] at hstop
  refine ⟨(Outcome.ok.inj h).symm, ?_, fun r => ?_, fun hn => ⟨?_, ?_⟩⟩
  · rw [← hstop]
    exact (Outcome.require_eq_ok_iff.1 hcover).symm
  · rw [hoffset r, Nat.zero_add]
  · rw [← hstop]
    exact hsmall hn
  · exact (Size.product_eq_ok_iff.1 hexpected).1.2.1

/-- All ranks agree on ranges that tile the space. -/
theorem tiles_of_agreed {len offset global : Fin n → Nat} {o : Fin n → Ownership}
    (h : ∀ r, agreed n (List.ofFn fun r => [offset r, len r]).flatten (global r) = .ok (o r)) :
    Tiles len offset global ∧ ∀ r, o r = tiling len := by
  have hall := fun r => of_agreed (h r)
  refine ⟨⟨fun r => (hall r).2.2.1 r, fun r => (hall r).2.1, ?_, ?_⟩, fun r => (hall r).1⟩
  · cases n with
    | zero =>
      have hnone : (tiling len).globalSize = 0 := rfl
      rw [hnone]
      decide
    | succ n => exact ((hall 0).2.2.2 (Nat.succ_pos n)).1
  · cases n with
    | zero => decide
    | succ n => exact ((hall 0).2.2.2 (Nat.succ_pos n)).2

/-- **Agreement**, the other way: ranks that gather and go on have ranges that follow each other. -/
theorem of_gather {len offset global : Fin n → Nat} {k : Fin n → Ownership → Program S α}
    {a : Fin n → α}
    (h : Together (fun r : Fin n => Ownership.gather ⟨r, n⟩ (offset r) (len r) (global r) >>= k r)
      a) :
    Tiles len offset global ∧ Together (fun r => k r (tiling len)) a := by
  simp only [gather_eq, Program.gather_bind, Together.gather_iff] at h
  obtain ⟨o, hagreed, h⟩ := Together.of_lift_bind h
  obtain ⟨tiles, ho⟩ := tiles_of_agreed hagreed
  simp only [ho] at h
  exact ⟨tiles, h⟩

/-! ## Lookup -/

/-- The owner of an index. -/
def rankOf (o : Ownership) (g : Nat) : Nat :=
  min ((o.bounds.takeWhile (· ≤ g)).length - 1) (o.numRanks - 1)

theorem owner_eq {o : Ownership} (h : 0 < o.numRanks) (g : Nat) : o.owner g = .ok (o.rankOf g) := by
  rw [owner, if_neg (Nat.pos_iff_ne_zero.1 h)]
  rfl

/-- **Lookup**: the owner of an index is the rank whose range holds it. -/
theorem rankOf_of_holds {len : Fin n → Nat} {g : Nat} {r : Fin n}
    (h : ((tiling len).range r).Holds g) : (tiling len).rankOf g = r := by
  obtain ⟨hle, hlt⟩ := h
  -- the starts up to that of rank `r` are at or below the index, and the next one is above it
  have hsplit : (tiling len).bounds = (List.range (r + 1)).map (tiling len).start ++
      (List.range' (r + 1) (n - r)).map (tiling len).start := by
    rw [bounds, numRanks_tiling, ← List.map_append]
    congr 1
    rw [List.range_eq_range', List.range_eq_range']
    have := @List.range'_append_1 0 (r + 1) (n - r)
    rw [Nat.zero_add] at this
    rw [this]
    congr 1
    omega
  have hfront : ∀ s ∈ (List.range (r + 1)).map (tiling len).start, decide (s ≤ g) = true := by
    intro s hs
    obtain ⟨q, hq, rfl⟩ := List.mem_map.1 hs
    have := (tiling len).start_mono (Nat.lt_succ_iff.1 (List.mem_range.1 hq))
    simp only [decide_eq_true_eq]
    exact le_trans this hle
  have hrest : ((List.range' (r + 1) (n - r)).map (tiling len).start).takeWhile (· ≤ g) = [] := by
    obtain ⟨j, hj⟩ : ∃ j, n - r = j + 1 := ⟨n - r - 1, by have := r.isLt; omega⟩
    rw [hj, List.range'_succ, List.map_cons, List.takeWhile_cons, if_neg]
    simp only [decide_eq_true_eq]
    simp only [range] at hlt
    omega
  rw [rankOf, hsplit, List.takeWhile_append_of_pos hfront, hrest, numRanks_tiling]
  simp only [List.append_nil, List.length_map, List.length_range]
  have := r.isLt
  omega

theorem holds_start_add (len : Fin n → Nat) (r : Fin n) (i : Fin (len r)) :
    ((tiling len).range r).Holds ((tiling len).start r + i) := by
  refine ⟨Nat.le_add_right _ _, ?_⟩
  show _ < (tiling len).start (r + 1)
  rw [start_succ]
  exact Nat.add_lt_add_left i.isLt _

/-- Every index in range is held by one rank. -/
theorem exists_holds {len : Fin n → Nat} {g : Nat} (h : g < (tiling len).globalSize) :
    ∃ r : Fin n, ((tiling len).range r).Holds g := by
  rw [← start_last] at h
  obtain ⟨r, hr, hle, hlt⟩ := Size.exists_part (tiling len).start_zero h
  exact ⟨⟨r, hr⟩, hle, hlt⟩

theorem rankOf_eq_iff {len : Fin n → Nat} {g : Nat} (h : g < (tiling len).globalSize) (r : Fin n) :
    (tiling len).rankOf g = r ↔ ((tiling len).range r).Holds g := by
  obtain ⟨q, hq⟩ := exists_holds h
  rw [rankOf_of_holds hq]
  constructor
  · intro e
    rwa [← Fin.ext e]
  · intro hr
    exact Size.part_unique (tiling len).start_mono hq hr

theorem rankOf_lt {len : Fin n → Nat} {g : Nat} (h : g < (tiling len).globalSize) :
    (tiling len).rankOf g < n := by
  obtain ⟨q, hq⟩ := exists_holds h
  rw [rankOf_of_holds hq]
  exact q.isLt

/-- Owners ascend with the indices, also behind the end of the space. -/
theorem rankOf_mono (o : Ownership) : Monotone o.rankOf := by
  intro g g' hgg
  -- the ranges that start up to `g` are the first of those that start up to `g'`
  have hfirst : o.bounds.takeWhile (· ≤ g) =
      (o.bounds.takeWhile (· ≤ g')).takeWhile (· ≤ g) := by
    rw [List.takeWhile_takeWhile]
    congr 1
    funext s
    rw [decide_eq_decide, decide_eq_true_eq, decide_eq_true_eq]
    exact ⟨fun h => ⟨h, h.trans hgg⟩, And.left⟩
  have hlength : (o.bounds.takeWhile (· ≤ g)).length ≤ (o.bounds.takeWhile (· ≤ g')).length := by
    rw [hfirst]
    exact (List.takeWhile_sublist _).length_le
  unfold rankOf
  omega

/-! ## Stacking -/

/-- In the stack of the lists of all ranks, the one of rank `r` starts where its range starts. -/
theorem getElem?_stack {β : Type} {len : Fin n → Nat} (lists : Fin n → List β)
    (hlen : ∀ r, (lists r).length = len r) (r : Fin n) {i : Nat} (hi : i < len r) :
    (List.ofFn lists).flatten[(tiling len).start r + i]? = (lists r)[i]? := by
  induction n with
  | zero => exact r.elim0
  | succ n ih =>
    rw [List.ofFn_succ, List.flatten_cons]
    cases r using Fin.cases with
    | zero =>
      rw [Fin.val_zero, start_zero, Nat.zero_add, List.getElem?_append_left (by rw [hlen]; exact hi)]
    | succ r =>
      have hbehind : (lists 0).length ≤ (tiling len).start r.succ + i := by
        rw [hlen, Fin.val_succ, start_tail]
        omega
      rw [List.getElem?_append_right hbehind, hlen, Fin.val_succ, start_tail, Nat.add_assoc,
        Nat.add_sub_cancel_left]
      exact ih (fun s => lists s.succ) (fun s => hlen s.succ) r hi

/-- The stack is as long as the space. -/
theorem length_stack {β : Type} {len : Fin n → Nat} (lists : Fin n → List β)
    (hlen : ∀ r, (lists r).length = len r) :
    (List.ofFn lists).flatten.length = (tiling len).globalSize := by
  induction n with
  | zero => rfl
  | succ n ih =>
    rw [List.ofFn_succ, List.flatten_cons, List.length_append, hlen, globalSize_tail,
      ih (fun s => lists s.succ) fun s => hlen s.succ]

/-- The part of a rank, read from the whole. -/
theorem eq_ofFn_stack {β : Type} {len : Fin n → Nat} (lists : Fin n → List β)
    (hlen : ∀ r, (lists r).length = len r) (r : Fin n) (d : β) :
    lists r = List.ofFn fun i : Fin (len r) =>
      (List.ofFn lists).flatten.getD ((tiling len).start r + i) d := by
  refine List.ext_getElem (by simp [hlen]) fun i h1 h2 => ?_
  have hi : i < len r := hlen r ▸ h1
  rw [List.getElem_ofFn, List.getD_eq_getElem?_getD, getElem?_stack lists hlen r hi,
    List.getElem?_eq_getElem h1]
  rfl

/-- Lists that show one function on their ranges stack up to the function on the whole space. -/
theorem flatten_stack {β : Type} (len : Fin n → Nat) (f : Nat → β) :
    (List.ofFn fun r : Fin n =>
      List.ofFn fun i : Fin (len r) => f ((tiling len).start r + i)).flatten =
      (List.range (tiling len).globalSize).map f := by
  induction n generalizing f with
  | zero => rfl
  | succ n ih =>
    have hfirst : (List.ofFn fun i : Fin (len 0) => f i) = (List.range (len 0)).map f := by
      refine List.ext_getElem (by simp) fun i h1 h2 => ?_
      simp
    rw [List.ofFn_succ, List.flatten_cons, globalSize_tail, List.range_add, List.map_append,
      List.map_map]
    simp only [Fin.val_zero, start_zero, Nat.zero_add, hfirst, Fin.val_succ, start_tail,
      Nat.add_assoc]
    exact congrArg _ (ih (fun r => len r.succ) fun a => f (len 0 + a))

/-- The same, for a space of known size. -/
theorem flatten_stack_eq_ofFn {β : Type} {len : Fin n → Nat} {g : Nat}
    (hcover : (tiling len).globalSize = g) (f : Nat → β) :
    (List.ofFn fun r : Fin n =>
      List.ofFn fun i : Fin (len r) => f ((tiling len).start r + i)).flatten =
      List.ofFn fun a : Fin g => f a := by
  rw [flatten_stack, hcover]
  refine List.ext_getElem (by simp) fun a h1 h2 => ?_
  rw [List.getElem_map, List.getElem_range, List.getElem_ofFn]

/-! ## Counting -/

/-- The counts of the owners are the lengths of the classes. -/
theorem countsPerOwner_eq {β : Type} {len : Fin n → Nat} (hn : 0 < n) (index : β → Nat)
    (L : List β) :
    (tiling len).countsPerOwner (L.map index) =
      .ok ((classes n (fun b => (tiling len).rankOf (index b)) L).map List.length) := by
  have howners : (L.map index).mapM (tiling len).owner =
      .ok ((L.map index).map (tiling len).rankOf) :=
    Outcome.mapM_eq_ok fun g _ => owner_eq (by simpa using hn) g
  rw [countsPerOwner, howners, Outcome.ok_bind, numRanks_tiling, Outcome.pure_eq, classes,
    List.map_map, List.map_map]
  congr 2
  funext r
  rw [Function.comp_apply, List.count_eq_countP, List.countP_map, List.countP_eq_length_filter]
  rfl

end Ownership

end Condensation
