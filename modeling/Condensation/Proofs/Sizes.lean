/-
  Sizes — products that stay in range, and offsets that add up lengths.

  1. **Products (`product_eq_ok_iff`)** — sizes are multiplied from the left.  The product is taken
     exactly where all partial products are in range (`InRange`), and aborts elsewhere.

  2. **Offsets** — parts that lie one after another start where the lengths before them add up to.
     These offsets never decrease, each part ends where the next one starts, and every place in
     range lies in exactly one part.
-/
import Condensation.Outcome
import Mathlib.Algebra.GroupWithZero.Nat
import Mathlib.Order.Monotone.Basic

namespace Condensation

/-! ## Products -/

namespace Size

@[simp] theorem two_lt_limit : 2 < limit := by decide

/-- Multiplied onto a first size one after another, some sizes stay in range. -/
def InRange (acc : Nat) : List Nat → Prop
  | [] => True
  | k :: rest => acc * k < limit ∧ InRange (acc * k) rest

/-- A product aborts if a partial product is not in range, and is taken if all are. -/
theorem product_cases (factors : List Nat) :
    ¬ InRange 1 factors ∧ product factors = .abort ∨
      InRange 1 factors ∧ product factors = .ok (factors.foldl (· * ·) 1) := by
  unfold product
  -- the induction is on the factors, with the product of those before them
  generalize (1 : Nat) = acc
  induction factors generalizing acc with
  | nil => exact .inr ⟨trivial, rfl⟩
  | cons k rest ih =>
    rw [List.foldlM_cons, List.foldl_cons]
    by_cases hk : acc * k < limit
    · rw [if_pos hk, Outcome.ok_bind]
      exact (ih (acc * k)).imp (.imp_left fun h hrange => h hrange.2) (.imp_left fun h => ⟨hk, h⟩)
    · rw [if_neg hk]
      exact .inl ⟨fun hrange => hk hrange.1, rfl⟩

/-- **Products**: what is taken, and when. -/
theorem product_eq_ok_iff {factors : List Nat} {p : Nat} :
    product factors = .ok p ↔ InRange 1 factors ∧ factors.foldl (· * ·) 1 = p := by
  rcases product_cases factors with ⟨hrange, habort⟩ | ⟨hrange, hok⟩
  · simp [habort, hrange]
  · rw [hok, Outcome.ok.injEq, and_iff_right hrange]

/-- What fits into memory is in range. -/
theorem lt_limit {n : Nat} (h : n < tableLimit) : n < limit :=
  Nat.lt_trans h (by decide)

/-! ## Offsets -/

/-- Where part `i` starts. -/
def offset (lengths : List Nat) (i : Nat) : Nat := (lengths.take i).sum

@[simp] theorem offset_zero (lengths : List Nat) : offset lengths 0 = 0 := by
  simp [offset]

/-- The next part starts where part `i` ends. -/
theorem offset_succ {lengths : List Nat} {i : Nat} (h : i < lengths.length) :
    offset lengths (i + 1) = offset lengths i + lengths[i] := by
  rw [offset, ← List.take_append_getElem h, List.sum_append]
  simp [offset]

/-- Behind the last part all lengths are added up. -/
theorem offset_length (lengths : List Nat) : offset lengths lengths.length = lengths.sum := by
  rw [offset, List.take_length]

/-- Later parts do not start earlier, also behind the last one. -/
theorem offset_mono (lengths : List Nat) : Monotone (offset lengths) := by
  refine monotone_nat_of_le_succ fun i => ?_
  rcases Nat.lt_or_ge i lengths.length with h | h
  · rw [offset_succ h]
    omega
  · rw [offset, offset, List.take_of_length_le h, List.take_of_length_le (by omega)]

/-- Every place below the end of some parts lies in one of them. -/
theorem exists_part {start : Nat → Nat} (h0 : start 0 = 0) {n k : Nat} (hk : k < start n) :
    ∃ i, i < n ∧ start i ≤ k ∧ k < start (i + 1) := by
  induction n with
  | zero => omega
  | succ n ih =>
    rcases Nat.lt_or_ge k (start n) with h | h
    · obtain ⟨i, hi, hle, hlt⟩ := ih h
      exact ⟨i, by omega, hle, hlt⟩
    · exact ⟨n, by omega, h, hk⟩

/-- Two parts do not overlap. -/
theorem part_unique {start : Nat → Nat} (mono : Monotone start) {i j k : Nat}
    (hi : start i ≤ k ∧ k < start (i + 1)) (hj : start j ≤ k ∧ k < start (j + 1)) : i = j := by
  rcases Nat.lt_trichotomy i j with h | h | h
  · have := mono (Nat.succ_le_of_lt h)
    simp only [Nat.succ_eq_add_one] at this
    omega
  · exact h
  · have := mono (Nat.succ_le_of_lt h)
    simp only [Nat.succ_eq_add_one] at this
    omega

end Size

end Condensation
