/-
  Elimination — the factors solve the system they were made from.

  1. **The invariant (`Reduced`)** — after `k` columns the permuted matrix is the product of the
     finished columns of the lower and the finished rows of the upper factor, plus what is left of
     the matrix from row and column `k` on.  The exchange of two later rows keeps it, and clearing
     column `k` moves one more product out of the rest.  A pivot of zero does no harm: then the
     whole rest of its column is zero (`entry_eq_zero_of_pivotRow`), and so are the multipliers.

  2. **The product (`ofMatrix_product`)** — hence every matrix, singular or not, is the product of
     its triangular factors up to the order of its rows.

  3. **Substitution** — forward substitution inverts the unit-lower factor, backward substitution
     the upper one if it has no zero on its diagonal.

  4. **The crux (`solution_ofMatrix`)** — for a non-singular matrix the solving program is the
     product with the inverse matrix.
-/
import Condensation.Algebra.Factorization
import Condensation.Proofs.Operators
import Mathlib.Algebra.Order.Field.Basic
import Mathlib.LinearAlgebra.Matrix.Block
import Mathlib.LinearAlgebra.Matrix.NonsingularInverse

namespace Condensation

namespace Factors

variable {S : Type} {n : Nat}

/-! ## Row exchanges -/

theorem exchange_exchange (p q i : Fin n) : exchange p q (exchange p q i) = i := by
  unfold exchange
  split_ifs <;> simp_all

theorem exchange_injective (p q : Fin n) : Function.Injective (exchange p q) :=
  Function.LeftInverse.injective (exchange_exchange p q)

/-- Exchanging row `k` with a later one moves no earlier row. -/
theorem exchange_of_lt {k q i : Fin n} (hkq : k ≤ q) (hi : i < k) : exchange k q i = i := by
  have h1 : i ≠ k := ne_of_lt hi
  have h2 : i ≠ q := ne_of_lt (lt_of_lt_of_le hi hkq)
  simp [exchange, h1, h2]

/-- Exchanging row `k` with a later one moves no row across `k`. -/
theorem le_exchange_iff {k q i : Fin n} (hkq : k ≤ q) : k ≤ exchange k q i ↔ k ≤ i := by
  unfold exchange
  split_ifs with h1 h2
  · exact ⟨fun _ => h1 ▸ le_refl _, fun _ => hkq⟩
  · exact ⟨fun _ => h2 ▸ hkq, fun _ => le_refl _⟩
  · rfl

/-! ## Pivots -/

section Pivots

variable [Field S] [LinearOrder S]

/-- The scan for the best row keeps the largest magnitude, and where it was found. -/
theorem foldl_betterPivot (a : Dense S n n) (k : Fin n) (rows : List (Fin n)) (best : Fin n × S) :
    let found := rows.foldl (betterPivot a k) best
    best.2 ≤ found.2 ∧ (∀ i ∈ rows, magnitude (a.entry i k) ≤ found.2) ∧
      (found = best ∨ found.1 ∈ rows ∧ found.2 = magnitude (a.entry found.1 k)) := by
  induction rows generalizing best with
  | nil => simp
  | cons i rest ih =>
    obtain ⟨hle, hall, hwhere⟩ := ih (betterPivot a k best i)
    simp only [List.foldl_cons]
    by_cases hbetter : best.2 < magnitude (a.entry i k)
    · have hstep : betterPivot a k best i = (i, magnitude (a.entry i k)) := by
        simp [betterPivot, hbetter]
      rw [hstep] at hle hall hwhere ⊢
      refine ⟨hbetter.le.trans hle, ?_, Or.inr ?_⟩
      · simpa using ⟨hle, hall⟩
      · rcases hwhere with h | ⟨hmem, hval⟩
        · rw [h]; simp
        · exact ⟨List.mem_cons_of_mem _ hmem, hval⟩
    · have hstep : betterPivot a k best i = best := by
        simp [betterPivot, hbetter]
      rw [hstep] at hle hall hwhere ⊢
      refine ⟨hle, ?_, ?_⟩
      · simpa using ⟨(not_lt.1 hbetter).trans hle, hall⟩
      · rcases hwhere with h | ⟨hmem, hval⟩
        · exact Or.inl h
        · exact Or.inr ⟨List.mem_cons_of_mem _ hmem, hval⟩

theorem le_pivotRow (a : Dense S n n) (k : Fin n) : k ≤ pivotRow a k := by
  obtain ⟨-, -, hwhere⟩ := foldl_betterPivot a k ((List.finRange n).filter (k ≤ ·)) (k, 0)
  unfold pivotRow
  rcases hwhere with h | ⟨hmem, -⟩
  · rw [h]
  · simpa using hmem

variable [IsStrictOrderedRing S]

theorem magnitude_eq_abs (a : S) : magnitude a = |a| := by
  unfold magnitude
  split_ifs with h
  · exact (abs_of_neg h).symm
  · exact (abs_of_nonneg (not_lt.1 h)).symm

/-- A pivot of zero is chosen only where the whole rest of the column is zero. -/
theorem entry_eq_zero_of_pivotRow {a : Dense S n n} {k : Fin n}
    (hpivot : a.entry (pivotRow a k) k = 0) {i : Fin n} (hi : k ≤ i) : a.entry i k = 0 := by
  obtain ⟨-, hall, hwhere⟩ := foldl_betterPivot a k ((List.finRange n).filter (k ≤ ·)) (k, 0)
  have hsmall := hall i (by simpa using hi)
  have hbest : (((List.finRange n).filter (k ≤ ·)).foldl (betterPivot a k) (k, 0)).2 = 0 := by
    rcases hwhere with h | ⟨-, hval⟩
    · rw [h]
    · have hq : a.entry (((List.finRange n).filter (k ≤ ·)).foldl (betterPivot a k) (k, 0)).1 k = 0 :=
        hpivot
      rw [hval, hq, magnitude_eq_abs, abs_zero]
  rw [hbest, magnitude_eq_abs] at hsmall
  exact abs_eq_zero.1 (le_antisymm hsmall (abs_nonneg _))

end Pivots

/-! ## The triangular factors -/

section Triangles

variable [Zero S]

/-- The upper factor. -/
def upper (a : Dense S n n) : Matrix (Fin n) (Fin n) S :=
  .of fun t j => if t ≤ j then a.entry t j else 0

theorem upper_of_le {a : Dense S n n} {t j : Fin n} (h : t ≤ j) : upper a t j = a.entry t j := by
  simp [upper, h]

theorem upper_of_gt {a : Dense S n n} {t j : Fin n} (h : j < t) : upper a t j = 0 := by
  simp [upper, h]

variable [One S]

/-- The unit-lower factor. -/
def lower (a : Dense S n n) : Matrix (Fin n) (Fin n) S :=
  .of fun i t => if t < i then a.entry i t else if t = i then 1 else 0

theorem lower_of_lt {a : Dense S n n} {i t : Fin n} (h : t < i) : lower a i t = a.entry i t := by
  simp [lower, h]

@[simp] theorem lower_self (a : Dense S n n) (i : Fin n) : lower a i i = 1 := by
  simp [lower]

theorem lower_of_gt {a : Dense S n n} {i t : Fin n} (h : i < t) : lower a i t = 0 := by
  simp [lower, h.ne', h.not_gt]

end Triangles

/-- The part of a sum over all indices that comes from those below `k`. -/
theorem sum_below_succ [AddCommMonoid S] (k : Fin n) (f : Fin n → S) :
    ∑ t, (if t.val < k.val + 1 then f t else 0) =
      ∑ t, (if t.val < k.val then f t else 0) + f k := by
  have split : ∀ t, (if t.val < k.val + 1 then f t else 0) =
      (if t.val < k.val then f t else 0) + (if t = k then f k else 0) := by
    intro t
    rcases lt_trichotomy t k with h | rfl | h
    · have : t.val < k.val := h
      simp [this, Nat.lt_succ_of_lt this, h.ne]
    · simp
    · have h1 : ¬ t.val < k.val := not_lt.2 (le_of_lt h)
      have h2 : ¬ t.val < k.val + 1 := by have : k.val < t.val := h; omega
      simp [h1, h2, h.ne']
  rw [Finset.sum_congr rfl fun t _ => split t, Finset.sum_add_distrib, Finset.sum_ite_eq']
  simp

/-! ## The invariant of elimination -/

section Invariant

variable [Field S]

/-- **The invariant**: `k` columns are finished. -/
def Reduced (a₀ : Dense S n n) (k : Nat) (state : Dense S n n × Vector (Fin n) n) : Prop :=
  ∀ i j, a₀.entry (state.2.get i) j =
    ∑ t, (if t.val < k then lower state.1 i t * upper state.1 t j else 0) +
      (if k ≤ i.val ∧ k ≤ j.val then state.1.entry i j else 0)

theorem reduced_start (a : Dense S n n) : Reduced a 0 (a, Vector.ofFn id) := by
  intro i j
  simp

/-- Exchanging row `k` with a later one keeps the invariant. -/
theorem Reduced.swap {a₀ a : Dense S n n} {p : Vector (Fin n) n} {k q : Fin n} (hkq : k ≤ q)
    (h : Reduced a₀ k (a, p)) :
    Reduced a₀ k (swapRows a k q, Vector.ofFn fun i => p.get (exchange k q i)) := by
  intro i j
  have entry : ∀ i j, (swapRows a k q).entry i j = a.entry (exchange k q i) j := by
    simp [swapRows]
  have hlow : ∀ t : Fin n, t.val < k.val →
      lower (swapRows a k q) i t = lower a (exchange k q i) t := by
    intro t ht
    rcases lt_or_ge i k with hi | hi
    · rw [exchange_of_lt hkq hi]
      simp only [lower, Matrix.of_apply, entry, exchange_of_lt hkq hi]
    · have hte : t < exchange k q i :=
        lt_of_lt_of_le (show t < k from ht) ((le_exchange_iff hkq).2 hi)
      rw [lower_of_lt hte, lower_of_lt (lt_of_lt_of_le (show t < k from ht) hi), entry]
  have hup : ∀ t : Fin n, t.val < k.val → upper (swapRows a k q) t j = upper a t j := by
    intro t ht
    simp only [upper, Matrix.of_apply, entry, exchange_of_lt hkq (show t < k from ht)]
  have hrest : (k.val ≤ (exchange k q i).val ∧ k.val ≤ j.val) ↔ (k.val ≤ i.val ∧ k.val ≤ j.val) :=
    and_congr_left fun _ => le_exchange_iff hkq
  have old := h (exchange k q i) j
  simp only [hrest] at old
  simp only [Vector.get_ofFn_eq, entry]
  rw [old]
  congr 1
  refine Finset.sum_congr rfl fun t _ => ?_
  split_ifs with ht
  · rw [hlow t ht, hup t ht]
  · rfl

/-! ### Clearing a column -/

theorem entry_eliminate (a : Dense S n n) (k i j : Fin n) : (eliminate a k).entry i j =
    if k < i then
      if j = k then a.entry i k / a.entry k k
      else if k < j then a.entry i j - a.entry i k / a.entry k k * a.entry k j
      else a.entry i j
    else a.entry i j := by
  simp [eliminate]

/-- Columns that were finished before stay as they are, -/
theorem lower_eliminate (a : Dense S n n) {k t : Fin n} (ht : t < k) (i : Fin n) :
    lower (eliminate a k) i t = lower a i t := by
  simp only [lower, Matrix.of_apply, entry_eliminate]
  simp [ht.ne, ht.not_gt]

/-- and so do rows. -/
theorem upper_eliminate (a : Dense S n n) {k t : Fin n} (ht : t ≤ k) (j : Fin n) :
    upper (eliminate a k) t j = upper a t j := by
  simp only [upper, Matrix.of_apply, entry_eliminate]
  simp [ht.not_gt]

/-- Clearing column `k` finishes it, unless its pivot is zero and something below is not. -/
theorem Reduced.eliminate {a₀ a : Dense S n n} {p : Vector (Fin n) n} {k : Fin n}
    (hpivot : a.entry k k = 0 → ∀ i, k ≤ i → a.entry i k = 0) (h : Reduced a₀ k (a, p)) :
    Reduced a₀ (k + 1) (eliminate a k, p) := by
  intro i j
  have hsum : ∑ t : Fin n, (if t.val < k.val then
        lower (Factors.eliminate a k) i t * upper (Factors.eliminate a k) t j else 0) =
      ∑ t : Fin n, (if t.val < k.val then lower a i t * upper a t j else 0) := by
    refine Finset.sum_congr rfl fun t _ => ?_
    split_ifs with ht
    · rw [lower_eliminate a ht, upper_eliminate a (le_of_lt ht)]
    · rfl
  have old := h i j
  simp only at old ⊢
  rw [old, sum_below_succ k, hsum, add_assoc]
  congr 1
  rw [upper_eliminate a le_rfl]
  rcases lt_trichotomy i k with hi | rfl | hi
  · have h1 : ¬ k.val ≤ i.val := not_le.2 hi
    have h2 : ¬ k.val + 1 ≤ i.val := fun h => h1 (by omega)
    simp [lower_of_gt hi, h1, h2]
  · have h2 : ¬ i.val + 1 ≤ i.val := by omega
    simp only [lower_self, one_mul, le_refl, true_and, h2, false_and, if_false, add_zero]
    rfl
  · have h1 : k.val ≤ i.val := le_of_lt hi
    have h2 : k.val + 1 ≤ i.val := hi
    have hmult : lower (Factors.eliminate a k) i k = a.entry i k / a.entry k k := by
      rw [lower_of_lt hi, entry_eliminate, if_pos hi, if_pos rfl]
    rw [hmult]
    simp only [h1, h2, true_and]
    rcases lt_trichotomy j k with hj | rfl | hj
    · have h3 : ¬ k.val ≤ j.val := not_le.2 hj
      have h4 : ¬ k.val + 1 ≤ j.val := fun h => h3 (by omega)
      simp [upper_of_gt hj, h3, h4]
    · have h4 : ¬ j.val + 1 ≤ j.val := by omega
      rw [upper_of_le le_rfl]
      simp only [le_refl, h4, if_true, if_false, add_zero]
      by_cases hz : a.entry j j = 0
      · rw [hpivot hz i (le_of_lt hi), hz]
        simp
      · rw [div_mul_cancel₀ _ hz]
    · have h3 : k.val ≤ j.val := le_of_lt hj
      have h4 : k.val + 1 ≤ j.val := hj
      rw [upper_of_le (le_of_lt hj), entry_eliminate]
      simp only [h3, h4, hi, hj, hj.ne', if_true, if_false]
      ring

end Invariant

/-! ## The product of the factors -/

section Exchanges

variable [Zero S] [Neg S] [LT S] [DecidableLT S] [Sub S] [Mul S] [Div S]

theorem perm_injective (a : Dense S n n) : Function.Injective (ofMatrix a).perm.get := by
  refine foldl_finRange_invariant step (fun _ state => Function.Injective state.2.get) ?_ ?_
  · intro i j h
    simpa using h
  · intro k state h i j hij
    simp only [step, Vector.get_ofFn_eq] at hij
    exact exchange_injective _ _ (h hij)

/-- The inverse permutation is found by search, and it is one. -/
theorem consistent_ofMatrix (a : Dense S n n) : (ofMatrix a).Consistent := by
  intro i
  have hinv : ∀ j, (ofMatrix a).inverse.get j = ((ofMatrix a).perm.finIdxOf? j).getD j := by
    intro j
    simp [ofMatrix]
  rw [hinv]
  have found : (ofMatrix a).perm.finIdxOf? ((ofMatrix a).perm.get i) = some i := by
    have hi : i.val < (ofMatrix a).perm.toArray.size := by simp
    have first : (ofMatrix a).perm.toArray.finIdxOf? ((ofMatrix a).perm.get i) =
        some ⟨i.val, hi⟩ := by
      rw [Array.finIdxOf?_eq_some_iff]
      refine ⟨rfl, fun j hj e => ?_⟩
      have hjn : j.val < n := lt_trans (show j.val < i.val from hj) i.isLt
      have hji := perm_injective a (show (ofMatrix a).perm.get ⟨j.val, hjn⟩ = _ from e)
      have : j.val = i.val := congrArg Fin.val hji
      exact absurd (show j.val < i.val from hj) (by omega)
    rw [Vector.finIdxOf?, first]
    rfl
  rw [found]
  rfl

end Exchanges

section Product

variable [Field S] [LinearOrder S] [IsStrictOrderedRing S]

theorem Reduced.step {a₀ : Dense S n n} {k : Fin n} {state : Dense S n n × Vector (Fin n) n}
    (h : Reduced a₀ k state) : Reduced a₀ (k + 1) (step state k) := by
  obtain ⟨a, p⟩ := state
  have hkq := le_pivotRow a k
  refine (h.swap hkq).eliminate ?_
  have entry : ∀ i, (swapRows a k (pivotRow a k)).entry i k =
      a.entry (exchange k (pivotRow a k) i) k := by
    simp [swapRows]
  intro hzero i hi
  rw [entry] at hzero ⊢
  have hpivot : a.entry (pivotRow a k) k = 0 := by
    simpa [exchange] using hzero
  exact entry_eq_zero_of_pivotRow hpivot ((le_exchange_iff hkq).2 hi)

theorem reduced_ofMatrix (a : Dense S n n) : Reduced a n ((ofMatrix a).lu, (ofMatrix a).perm) :=
  foldl_finRange_invariant step (Reduced a) (reduced_start a) fun _ _ h => h.step

/-- **The product**: row `perm i` of the matrix is row `i` of the product of the factors. -/
theorem ofMatrix_product (a : Dense S n n) (i j : Fin n) :
    a.entry ((ofMatrix a).perm.get i) j =
      (lower (ofMatrix a).lu * upper (ofMatrix a).lu) i j := by
  have h := reduced_ofMatrix a i j
  have hi : ¬ n ≤ i.val := not_le.2 i.isLt
  simpa [Matrix.mul_apply, hi] using h

end Product

/-! ## Substitution -/

section Substitution

variable [Field S]

theorem linear_forwardStep (lu : Dense S n n) (j : Fin n) : Linear fun y => forwardStep lu y j := by
  intro a b x y
  refine Vector.ext_get fun i => ?_
  simp only [forwardStep, combine, Vector.get_ofFn_eq]
  split_ifs
  · ring
  · rfl

theorem linear_backwardStep (lu : Dense S n n) (j : Fin n) :
    Linear fun y => backwardStep lu y j := by
  intro a b x y
  refine Vector.ext_get fun i => ?_
  simp only [backwardStep, combine, Vector.get_ofFn_eq]
  split_ifs
  · ring
  · ring
  · rfl

theorem linear_substitute (lu : Dense S n n) : Linear (substitute lu) :=
  (Linear.foldl (linear_backwardStep lu) _).comp (Linear.foldl (linear_forwardStep lu) _)

/-- The vector in the order of the factors. -/
def reorder (f : Factors S n) (x : Vector S n) : Vector S n :=
  .ofFn fun i => x.get (f.perm.get i)

theorem linear_reorder (f : Factors S n) : Linear f.reorder := by
  intro a b x y
  refine Vector.ext_get fun i => ?_
  simp [reorder, combine]

/-- The solving program as a matrix. -/
def solution (f : Factors S n) : Matrix (Fin n) (Fin n) S :=
  .of fun i j => (substitute f.lu (f.reorder (unitVec j))).get i

open Matrix in
/-- Solving is the product with a matrix, whatever the factors are. -/
theorem solve_eq (f : Factors S n) (h : f.Consistent) (x : Vector S n) :
    f.solve x = .ok (.ofFn (f.solution *ᵥ x.get)) := by
  have hcheck : Outcome.check f.Consistent = .ok () := Outcome.check_eq_ok_iff.2 h
  have hlin := (linear_substitute f.lu).comp f.linear_reorder
  show (Outcome.check f.Consistent >>= fun _ => Outcome.ok (substitute f.lu (f.reorder x))) = _
  rw [hcheck, Outcome.ok_bind]
  congr 1
  refine Vector.ext_get fun i => ?_
  rw [Vector.get_ofFn_eq]
  exact hlin.get_eq_sum x i

/-- Forward substitution solves with the unit-lower factor. -/
theorem forward_solves (lu : Dense S n n) (y : Vector S n) (i : Fin n) :
    ∑ t, lower lu i t * ((List.finRange n).foldl (forwardStep lu) y).get t = y.get i := by
  -- what was taken off equation `i` so far are the terms of the unknowns below `k`
  let P (k : Nat) (cur : Vector S n) : Prop := ∀ i : Fin n, y.get i = cur.get i +
    ∑ t : Fin n, (if t.val < k then (if t < i then lu.entry i t * cur.get t else 0) else 0)
  have start : P 0 y := by
    intro i
    simp
  have step : ∀ (k : Fin n) (cur : Vector S n), P k cur → P (k + 1) (forwardStep lu cur k) := by
    intro k cur h i
    have hget : ∀ i, (forwardStep lu cur k).get i =
        if k < i then cur.get i - lu.entry i k * cur.get k else cur.get i := by
      simp [forwardStep]
    have hkeep : ∀ t, t ≤ k → (forwardStep lu cur k).get t = cur.get t := by
      intro t ht
      rw [hget, if_neg ht.not_gt]
    have hsum : ∑ t : Fin n, (if t.val < k.val then
          (if t < i then lu.entry i t * (forwardStep lu cur k).get t else 0) else 0) =
        ∑ t : Fin n,
          (if t.val < k.val then (if t < i then lu.entry i t * cur.get t else 0) else 0) := by
      refine Finset.sum_congr rfl fun t _ => ?_
      split_ifs with h1 h2
      · rw [hkeep t (le_of_lt (show t < k from h1))]
      · rfl
      · rfl
    rw [h i, sum_below_succ k, hsum, hkeep k le_rfl, hget]
    split_ifs
    · ring
    · ring
  have final := foldl_finRange_invariant (forwardStep lu) P start step i
  generalize (List.finRange n).foldl (forwardStep lu) y = cur at final ⊢
  have split : ∀ t, lower lu i t * cur.get t =
      (if t < i then lu.entry i t * cur.get t else 0) + (if t = i then cur.get i else 0) := by
    intro t
    rcases lt_trichotomy t i with h | rfl | h
    · simp [lower_of_lt h, h, h.ne]
    · simp
    · simp [lower_of_gt h, h.not_gt, h.ne']
  simp only [Fin.is_lt, if_true] at final
  rw [final, Finset.sum_congr rfl fun t _ => split t, Finset.sum_add_distrib, add_comm]
  simp

/-- The part of a sum over all indices that comes from those from `k` on. -/
theorem sum_from_succ (k : Fin n) (f : Fin n → S) :
    ∑ t, (if k.val ≤ t.val then f t else 0) =
      f k + ∑ t, (if k.val + 1 ≤ t.val then f t else 0) := by
  have split : ∀ t, (if k.val ≤ t.val then f t else 0) =
      (if t = k then f k else 0) + (if k.val + 1 ≤ t.val then f t else 0) := by
    intro t
    rcases lt_trichotomy t k with h | rfl | h
    · have h1 : ¬ k.val ≤ t.val := not_le.2 h
      have h2 : ¬ k.val + 1 ≤ t.val := fun h' => h1 (by omega)
      simp [h1, h2, h.ne]
    · have h2 : ¬ t.val + 1 ≤ t.val := by omega
      simp [h2]
    · have h1 : k.val ≤ t.val := le_of_lt h
      have h2 : k.val + 1 ≤ t.val := h
      simp [h1, h2, h.ne']
  rw [Finset.sum_congr rfl fun t _ => split t, Finset.sum_add_distrib]
  simp

/-- Backward substitution solves with an upper factor without zeros on its diagonal. -/
theorem backward_solves (lu : Dense S n n) (hdiag : ∀ i, lu.entry i i ≠ 0) (z : Vector S n)
    (i : Fin n) :
    ∑ t, upper lu i t * ((List.finRange n).reverse.foldl (backwardStep lu) z).get t = z.get i := by
  -- the equations from `k` on are solved, and the others lack the terms from `k` on
  let P (k : Nat) (cur : Vector S n) : Prop := ∀ i : Fin n, z.get i =
    (if i.val < k then cur.get i else 0) +
      ∑ t : Fin n, (if k ≤ t.val then upper lu i t * cur.get t else 0)
  have start : P n z := by
    intro i
    have : ∀ t : Fin n, ¬ n ≤ t.val := fun t => not_le.2 t.isLt
    simp [this]
  have step : ∀ (k : Fin n) (cur : Vector S n), P (k + 1) cur → P k (backwardStep lu cur k) := by
    intro k cur h i
    have hget : ∀ i, (backwardStep lu cur k).get i =
        if i = k then cur.get k / lu.entry k k
        else if i < k then cur.get i - lu.entry i k * (cur.get k / lu.entry k k)
        else cur.get i := by
      simp [backwardStep]
    have hsum : ∑ t : Fin n, (if k.val + 1 ≤ t.val then
          upper lu i t * (backwardStep lu cur k).get t else 0) =
        ∑ t : Fin n, (if k.val + 1 ≤ t.val then upper lu i t * cur.get t else 0) := by
      refine Finset.sum_congr rfl fun t _ => ?_
      split_ifs with h1
      · have hkt : k < t := h1
        rw [hget, if_neg hkt.ne', if_neg hkt.not_gt]
      · rfl
    rw [h i, sum_from_succ k, hsum, ← add_assoc]
    congr 1
    rw [hget k, if_pos rfl, hget i]
    rcases lt_trichotomy i k with hi | rfl | hi
    · have h1 : i.val < k.val := hi
      have h2 : i.val < k.val + 1 := by omega
      rw [upper_of_le (le_of_lt hi)]
      simp only [h1, h2, hi, hi.ne, if_true, if_false]
      ring
    · have h1 : i.val < i.val + 1 := by omega
      rw [upper_of_le le_rfl]
      simp only [h1, lt_irrefl, if_true, if_false, zero_add]
      rw [mul_div_cancel₀ _ (hdiag i)]
    · have h1 : ¬ i.val < k.val := not_lt.2 (le_of_lt hi)
      have h2 : ¬ i.val < k.val + 1 := by have : k.val < i.val := hi; omega
      simp [upper_of_gt hi, h1, h2]
  have final := foldl_reverse_finRange_invariant (backwardStep lu) P start step i
  rw [final]
  simp

end Substitution

/-! ## Solving -/

section Solving

variable [Field S] [LinearOrder S] [IsStrictOrderedRing S]

/-- The order of the rows as a permutation. -/
noncomputable def rowOrder (a : Dense S n n) : Equiv.Perm (Fin n) :=
  Equiv.ofBijective (ofMatrix a).perm.get (Finite.injective_iff_bijective.1 (perm_injective a))

theorem submatrix_eq_product (a : Dense S n n) :
    a.toMatrix.submatrix (rowOrder a) id = lower (ofMatrix a).lu * upper (ofMatrix a).lu := by
  funext i j
  exact ofMatrix_product a i j

/-- The upper factor of a non-singular matrix has no zero on its diagonal. -/
theorem diagonal_ne_zero {a : Dense S n n} (h : a.toMatrix.det ≠ 0) (i : Fin n) :
    (ofMatrix a).lu.entry i i ≠ 0 := by
  have hdet := congrArg Matrix.det (submatrix_eq_product a)
  rw [Matrix.det_permute, Matrix.det_mul] at hdet
  have hupper : (upper (ofMatrix a).lu).det ≠ 0 := by
    intro hz
    rw [hz, mul_zero] at hdet
    rcases mul_eq_zero.1 hdet with hs | hs
    · rcases Int.units_eq_one_or (Equiv.Perm.sign (rowOrder a)) with e | e <;> simp [e] at hs
    · exact h hs
  have htri : (upper (ofMatrix a).lu).IsUpperTriangular := fun i j hij => upper_of_gt hij
  rw [Matrix.det_of_isUpperTriangular htri] at hupper
  have := Finset.prod_ne_zero_iff.1 hupper i (Finset.mem_univ i)
  rwa [upper_of_le le_rfl] at this

/-- **The crux**: for a non-singular matrix the solving program is the product with its inverse. -/
theorem solution_ofMatrix {a : Dense S n n} (h : a.toMatrix.det ≠ 0) :
    (ofMatrix a).solution = a.toMatrix⁻¹ := by
  refine (Matrix.inv_eq_right_inv ?_).symm
  funext i j
  obtain ⟨p, rfl⟩ := (rowOrder a).surjective i
  let y := (ofMatrix a).reorder (unitVec j)
  let z := (List.finRange n).foldl (forwardStep (ofMatrix a).lu) y
  have hz : ∀ t, ∑ q, upper (ofMatrix a).lu t q * (substitute (ofMatrix a).lu y).get q = z.get t :=
    backward_solves _ (diagonal_ne_zero h) z
  calc (a.toMatrix * (ofMatrix a).solution) (rowOrder a p) j
      = ∑ q, (lower (ofMatrix a).lu * upper (ofMatrix a).lu) p q *
          (substitute (ofMatrix a).lu y).get q := by
        rw [Matrix.mul_apply, ← submatrix_eq_product]
        rfl
    _ = ∑ t, lower (ofMatrix a).lu p t * z.get t := by
        simp only [Matrix.mul_apply, Finset.sum_mul, mul_assoc]
        rw [Finset.sum_comm]
        refine Finset.sum_congr rfl fun t _ => ?_
        rw [← hz t, Finset.mul_sum]
    _ = y.get p := forward_solves _ y p
    _ = (1 : Matrix (Fin n) (Fin n) S) (rowOrder a p) j := by
        simp only [y, reorder, unitVec, Vector.get_ofFn_eq, Matrix.one_apply]
        rfl

end Solving

end Factors

end Condensation
