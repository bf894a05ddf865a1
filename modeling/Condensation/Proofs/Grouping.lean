/-
  Grouping — the sorted table lists, for every target, the numbers with that target.

  1. **Bounds** — the lists are laid out one after another: the one of target `r` starts behind
     all numbers with a smaller target (`get_starts`).

  2. **The crux (`LaidDown`)** — after the first `k` numbers, the list of every target holds those
     of them that have this target, in ascending order, and its cursor stands behind them.  The
     place that the next number gets lies in the list of its own target, so it overwrites nothing
     of another one.

  3. **The result (`of_ofTargets`)** — at the end the lists are complete.
-/
import Condensation.Dofs.TraceSpace
import Condensation.Proofs.Operators

namespace Condensation

namespace OwnerTable

variable {K L : Nat}

/-! ## Bounds -/

/-- How many numbers have a target below `r`. -/
def before (targets : Vector (Fin L) K) (r : Nat) : Nat :=
  (List.finRange K).countP fun k => (targets.get k).val < r

/-- How many numbers have target `r`. -/
def size (targets : Vector (Fin L) K) (r : Fin L) : Nat :=
  (List.finRange K).countP fun k => targets.get k = r

theorem before_zero (targets : Vector (Fin L) K) : before targets 0 = 0 := by
  simp [before]

theorem before_le_all (targets : Vector (Fin L) K) (r : Nat) : before targets r ≤ K := by
  have := List.countP_le_length (p := fun k => decide ((targets.get k).val < r))
    (l := List.finRange K)
  rwa [List.length_finRange] at this

theorem before_succ (targets : Vector (Fin L) K) (r : Fin L) :
    before targets (r + 1) = before targets r + size targets r := by
  unfold before size
  induction List.finRange K with
  | nil => rfl
  | cons k rest ih =>
    have split : (targets.get k).val < r + 1 ↔ (targets.get k).val < r ∨ targets.get k = r := by
      rw [Fin.ext_iff]
      omega
    have apart : ¬((targets.get k).val < r ∧ targets.get k = r) := by
      rw [Fin.ext_iff]
      omega
    simp only [List.countP_cons, ih, decide_eq_true_eq, split]
    by_cases h1 : (targets.get k).val < r
    · have h2 : targets.get k ≠ r := fun h => apart ⟨h1, h⟩
      simp only [h1, h2, true_or, if_true, if_false]
      omega
    · simp only [h1, false_or, if_false]
      omega

/-- The lists follow each other. -/
theorem before_le (targets : Vector (Fin L) K) {r q : Nat} (h : r ≤ q) :
    before targets r ≤ before targets q := by
  refine List.countP_mono_left fun k _ hk => ?_
  simp only [decide_eq_true_eq] at hk ⊢
  omega

theorem foldl_countOne (items : List (Fin L)) (o : Vector Nat (L + 1)) (q : Fin (L + 1)) :
    (items.foldl countOne o).get q = o.get q + items.countP fun r => r.succ = q := by
  induction items generalizing o with
  | nil => simp
  | cons r rest ih =>
    rw [List.foldl_cons, ih, List.countP_cons, countOne]
    by_cases h : r.succ = q
    · subst h
      rw [Vector.get_put_self]
      simp only [decide_true, if_true]
      omega
    · rw [Vector.get_put_of_ne _ _ h]
      simp [h]

theorem toList_eq_map {α : Type} {n : Nat} (v : Vector α n) :
    v.toList = (List.finRange n).map v.get := by
  refine List.ext_getElem (by simp) fun j h1 h2 => ?_
  simp [Vector.get]

theorem get_counts_succ (targets : Vector (Fin L) K) (r : Fin L) :
    (counts targets).get r.succ = size targets r := by
  rw [counts, foldl_countOne, Vector.get_replicate_eq, Nat.zero_add, toList_eq_map,
    List.countP_map]
  refine List.countP_congr fun k _ => ?_
  simp [Fin.succ_inj]

theorem get_counts_zero (targets : Vector (Fin L) K) : (counts targets).get 0 = 0 := by
  rw [counts, foldl_countOne, Vector.get_replicate_eq, Nat.zero_add, List.countP_eq_zero]
  intro r _
  simp [Fin.succ_ne_zero]

/-- **Bounds**: the list of target `r` starts behind all numbers with a smaller target. -/
theorem get_starts (targets : Vector (Fin L) K) (q : Fin (L + 1)) :
    (starts (counts targets)).get q = before targets q := by
  -- before step `k` the places up to `k` hold starts, and the others still hold counts
  have all := foldl_finRange_invariant (n := L) addBefore
    (fun k o => (∀ q : Fin (L + 1), q.val ≤ k → o.get q = before targets q) ∧
      ∀ r : Fin L, k ≤ r.val → o.get r.succ = size targets r)
    (a := counts targets) ?_ ?_
  · exact all.1 q (by omega)
  · refine ⟨fun q hq => ?_, fun r _ => get_counts_succ targets r⟩
    have : q = 0 := Fin.ext (by simpa using hq)
    rw [this, get_counts_zero]
    exact (before_zero targets).symm
  · intro k o ⟨hstart, hcount⟩
    refine ⟨fun q hq => ?_, fun r hr => ?_⟩
    · by_cases h : k.succ = q
      · subst h
        rw [addBefore, Vector.get_put_self, hcount k le_rfl, hstart k.castSucc (by simp),
          Fin.val_succ, before_succ, Nat.add_comm]
        rfl
      · rw [addBefore, Vector.get_put_of_ne _ _ h]
        refine hstart q ?_
        rw [Fin.ext_iff, Fin.val_succ] at h
        omega
    · have h : k.succ ≠ r.succ := by
        rw [Ne, Fin.ext_iff, Fin.val_succ, Fin.val_succ]
        omega
      rw [addBefore, Vector.get_put_of_ne _ _ h]
      exact hcount r (by omega)

/-! ## Laying down -/

/-- Those of the first `k` numbers that have target `r`. -/
def group (targets : Vector (Fin L) K) (k : Nat) (r : Fin L) : List (Fin K) :=
  ((List.finRange K).take k).filter fun i => targets.get i = r

theorem take_finRange_succ (k : Fin K) :
    (List.finRange K).take (k + 1) = (List.finRange K).take k ++ [k] := by
  rw [← List.take_concat_get' _ _ (by simp)]
  simp

theorem group_succ (targets : Vector (Fin L) K) (k : Fin K) (r : Fin L) :
    group targets (k + 1) r = group targets k r ++ if targets.get k = r then [k] else [] := by
  rw [group, take_finRange_succ, List.filter_append, List.filter_singleton]
  simp [group]

theorem length_group_le (targets : Vector (Fin L) K) (k : Nat) (r : Fin L) :
    (group targets k r).length ≤ size targets r := by
  rw [size, List.countP_eq_length_filter]
  exact ((List.take_sublist k _).filter _).length_le

/-- What holds after the first `k` numbers: the cursors, and the lists so far. -/
structure LaidDown (targets : Vector (Fin L) K) (k : Nat)
    (state : Vector Nat L × Vector (Fin K) K) : Prop where
  cursor : ∀ r, state.1.get r = before targets r + (group targets k r).length
  listed : ∀ r i, i < (group targets k r).length →
    state.2[before targets r + i]? = (group targets k r)[i]?

/-- There is a place left in the list of the next number. -/
theorem length_group_lt (targets : Vector (Fin L) K) (k : Fin K) :
    (group targets k (targets.get k)).length < size targets (targets.get k) := by
  have hgrow := length_group_le targets (k + 1) (targets.get k)
  rw [group_succ, if_pos rfl, List.length_append, List.length_singleton] at hgrow
  exact hgrow

/-- The next number is laid down inside the table. -/
theorem LaidDown.cursor_lt {targets : Vector (Fin L) K} {k : Fin K}
    {state : Vector Nat L × Vector (Fin K) K} (h : LaidDown targets k state) :
    state.1.get (targets.get k) < K := by
  have hcur := h.cursor (targets.get k)
  have hgrow := length_group_lt targets k
  have hend := before_succ targets (targets.get k)
  have hK := before_le_all targets (targets.get k + 1)
  omega

/-- **The crux**: one more number goes behind its list, and disturbs no other. -/
theorem LaidDown.step {targets : Vector (Fin L) K} {k : Fin K}
    {state : Vector Nat L × Vector (Fin K) K} (h : LaidDown targets k state) :
    LaidDown targets (k + 1) (place targets state k) := by
  have hcur := h.cursor (targets.get k)
  have hinside := h.cursor_lt
  have hgrow := length_group_lt targets k
  have hend := before_succ targets (targets.get k)
  refine ⟨fun r => ?_, fun r i hi => ?_⟩
  · rw [group_succ]
    by_cases hr : targets.get k = r
    · subst hr
      simp only [place, Vector.get_put_self, if_true, List.length_append, List.length_singleton]
      omega
    · simp only [place, if_neg hr, List.append_nil]
      rw [Vector.get_put_of_ne _ _ hr]
      exact h.cursor r
  · rw [group_succ] at hi ⊢
    simp only [place, Vector.getElem?_setIfInBounds]
    by_cases hr : targets.get k = r
    · subst hr
      simp only [if_true, List.length_append, List.length_singleton] at hi ⊢
      by_cases hlast : i = (group targets k (targets.get k)).length
      · subst hlast
        rw [if_pos hcur, if_pos (by omega), List.getElem?_append_right le_rfl]
        simp
      · have hlt : i < (group targets k (targets.get k)).length := by omega
        rw [if_neg (by omega), List.getElem?_append_left hlt]
        exact h.listed _ i hlt
    · simp only [if_neg hr, List.append_nil] at hi ⊢
      -- the two lists do not overlap
      have hle := length_group_le targets k r
      have hr' := before_succ targets r
      have apart : state.1.get (targets.get k) ≠ before targets r + i := by
        rcases lt_or_gt_of_ne (fun e => hr (Fin.ext e) : (targets.get k).val ≠ r.val) with hlt | hgt
        · have := before_le targets (Nat.succ_le_of_lt hlt)
          simp only [Nat.succ_eq_add_one] at this
          omega
        · have := before_le targets (Nat.succ_le_of_lt hgt)
          simp only [Nat.succ_eq_add_one] at this
          omega
      rw [if_neg apart]
      exact h.listed r i hi

/-- The cursors at the starts of the lists, and a table to overwrite. -/
def unplaced (targets : Vector (Fin L) K) : Vector Nat L × Vector (Fin K) K :=
  (Vector.ofFn fun r : Fin L => (starts (counts targets)).get r.castSucc, Vector.ofFn id)

/-- After any number of steps the first numbers are laid down. -/
theorem laidDown_take (targets : Vector (Fin L) K) {k : Nat} (hk : k ≤ K) :
    LaidDown targets k (((List.finRange K).take k).foldl (place targets) (unplaced targets)) := by
  induction k with
  | zero =>
    exact ⟨fun r => by simp [unplaced, group, get_starts], fun r i hi => by simp [group] at hi⟩
  | succ k ih =>
    rw [take_finRange_succ ⟨k, hk⟩, List.foldl_append]
    exact (ih (by omega)).step (k := ⟨k, hk⟩)

/-- The offsets of the finished table. -/
theorem get_offsets (targets : Vector (Fin L) K) (q : Fin (L + 1)) :
    (ofTargets targets).offsets.get q = before targets q :=
  get_starts targets q

/-- The list of a target is a part of the table. -/
theorem slice_inside (targets : Vector (Fin L) K) (r : Fin L) :
    (ofTargets targets).offsets.get r.castSucc ≤ (ofTargets targets).offsets.get r.succ ∧
      (ofTargets targets).offsets.get r.succ ≤ K := by
  rw [get_offsets, get_offsets]
  exact ⟨before_le targets (by simp), before_le_all targets _⟩

/-- **The result**: the table lists the numbers of every target, in ascending order. -/
theorem of_ofTargets (targets : Vector (Fin L) K) (r : Fin L) :
    (ofTargets targets).of r = (List.finRange K).filter fun k => targets.get k = r := by
  have done := laidDown_take targets le_rfl
  rw [List.take_of_length_le (by simp)] at done
  have hfull : group targets K r = (List.finRange K).filter fun k => targets.get k = r := by
    rw [group, List.take_of_length_le (by simp)]
  have hsize : (group targets K r).length = size targets r := by
    rw [hfull, size, List.countP_eq_length_filter]
  have hend := before_succ targets r
  have hK := before_le_all targets (r + 1)
  rw [← hfull, of, get_offsets, get_offsets, Fin.val_succ, Fin.val_castSucc, hend,
    Nat.add_sub_cancel_left]
  refine List.ext_getElem? fun i => ?_
  rcases Nat.lt_or_ge i (size targets r) with hi | hi
  · rw [List.getElem?_take_of_lt hi, List.getElem?_drop, ← done.listed r i (hsize ▸ hi)]
    simp [ofTargets, unplaced]
  · rw [List.getElem?_eq_none (by simp; omega), List.getElem?_eq_none (by omega)]

/-- The list of a target ascends, -/
theorem pairwise_list (targets : Vector (Fin L) K) (r : Fin L) :
    ((ofTargets targets).of r).Pairwise (· < ·) := by
  rw [of_ofTargets]
  exact (List.pairwise_lt_finRange K).filter _

/-- and the numbers on it are those with the target. -/
theorem mem_list {targets : Vector (Fin L) K} {r : Fin L} {k : Fin K} :
    k ∈ (ofTargets targets).of r ↔ targets.get k = r := by
  rw [of_ofTargets]
  simp

end OwnerTable

/-- The face degrees of freedom of an interface degree of freedom are those that gather from it. -/
theorem TraceSpace.ownerTable_of {S : Type} {nf : Nat} (space : TraceSpace S nf)
    (r : Fin space.numLocal) :
    space.ownerTable.of r =
      (List.finRange (nf * space.dofsPerFace)).filter fun k => space.gather.get k = r :=
  OwnerTable.of_ofTargets _ r

end Condensation
