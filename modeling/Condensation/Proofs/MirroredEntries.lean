/-
  Mirrored entries — a square matrix is compared with its mirror image at its stored positions only.

  1. **The search (`asymmetry?_eq`)** — the first stored position, row by row and in the order of
     storage, whose summed entry differs from the mirrored one by more than is allowed.  A position
     that is stored several times is visited several times, with the same two sums.

  2. **The crux (`mirrors_of_unstored`)** — the allowance depends on the entry that is looked at, so
     it is not the same from the other side.  Where nothing is stored it is the tolerance.  The
     mirrored entry, if it is stored, was compared with zero under its own allowance; with a
     tolerance below one it has to be less than one then, and so it is within the tolerance.

  3. **The result (`first_asymmetry`)** — nothing is found just if all pairs of entries are alike,
     stored or not; what is found is the first position of its kind.
-/
import Condensation.Algebra.Sparse.Symmetry
import Condensation.Proofs.Elimination
import Condensation.Proofs.SparseEntries

namespace Condensation

variable {S : Type} {n : Nat}

namespace Csr

/-! ## The search -/

section Search

variable {c : Nat}

/-- The positions of the stored entries, row by row. -/
def storedPositions (A : Csr S n c) : List (Fin n × Fin c) :=
  (List.finRange n).flatMap fun i => (A.row i).map fun e => (i, e.1)

theorem mem_storedPositions {A : Csr S n c} {i : Fin n} {j : Fin c} :
    (i, j) ∈ A.storedPositions ↔ ∃ v, (j, v) ∈ A.row i := by
  simp [storedPositions, eq_comm]

/-- In a list of all numbers below `n`, those in front of one are the smaller ones. -/
theorem mem_front_of_lt {i i' : Fin n} {front back : List (Fin n)}
    (h : List.finRange n = front ++ i :: back) (hlt : i' < i) : i' ∈ front := by
  have hall : i' ∈ front ++ i :: back := h ▸ List.mem_finRange i'
  have hpairs := (h ▸ List.pairwise_lt_finRange n : (front ++ i :: back).Pairwise (· < ·))
  obtain ⟨hback, -⟩ := List.pairwise_cons.1 (List.pairwise_append.1 hpairs).2.1
  rcases List.mem_append.1 hall with hfront | hrest
  · exact hfront
  · rcases List.mem_cons.1 hrest with rfl | hmem
    · exact absurd hlt (lt_irrefl i')
    · exact absurd hlt (lt_asymm (hback i' hmem))

/-- The first stored position of some kind: no row before has one, nor has this row before it. -/
theorem find?_storedPositions {A : Csr S n c} {p : Fin n × Fin c → Bool} {i : Fin n} {j : Fin c}
    (h : A.storedPositions.find? p = some (i, j)) :
    p (i, j) = true ∧ (∀ i' < i, ∀ e ∈ A.row i', p (i', e.1) = false) ∧
      ∃ before v after, A.row i = before ++ (j, v) :: after ∧
        ∀ e ∈ before, p (i, e.1) = false := by
  rw [storedPositions, List.find?_flatMap, List.findSome?_eq_some_iff] at h
  obtain ⟨front, i₀, back, hrows, hfound, hfront⟩ := h
  rw [List.find?_map, Option.map_eq_some_iff] at hfound
  obtain ⟨e, he, hpos⟩ := hfound
  obtain ⟨rfl, rfl⟩ : i₀ = i ∧ e.1 = j := Prod.mk.inj hpos
  obtain ⟨hp, before, after, hrow, hbefore⟩ := List.find?_eq_some_iff_append.1 he
  refine ⟨hp, fun i' hlt e' he' => ?_, before, e.2, after, hrow, fun e' he' => ?_⟩
  · have hnone := hfront i' (mem_front_of_lt hrows hlt)
    rw [List.find?_eq_none] at hnone
    exact Bool.eq_false_iff.2 (hnone (i', e'.1) (List.mem_map_of_mem he'))
  · simpa using hbefore e' he'

variable [Zero S] [One S] [Add S] [Sub S] [Mul S] [Neg S] [LT S] [DecidableLT S]

/-- What is told about a position. -/
def reportAt (A : Csr S n n) (p : Fin n × Fin n) : Asymmetry S :=
  ⟨p.1, p.2, A.entry p.1 p.2, A.entry p.2 p.1⟩

theorem asymmetryAmong_eq (A : Csr S n n) (tol : S) (positions : List (Fin n × Fin n)) :
    A.asymmetryAmong tol positions =
      .ok ((positions.find? fun p => Differ tol (A.entry p.1 p.2) (A.entry p.2 p.1)).map
        A.reportAt) := by
  induction positions with
  | nil => rfl
  | cons p rest ih =>
    rw [asymmetryAmong, asymmetryAt, entryAt_eq, Outcome.ok_bind, Outcome.pure_eq, Outcome.ok_bind,
      ih, List.find?_cons]
    by_cases h : Differ tol (A.entry p.1 p.2) (A.entry p.2 p.1)
    · rw [if_pos h, decide_eq_true h]
      rfl
    · rw [if_neg h, decide_eq_false h]

/-- **The search** reports the first stored position at which the two entries differ. -/
theorem asymmetry?_eq (A : Csr S n n) (tol : S) :
    A.asymmetry? tol =
      .ok ((A.storedPositions.find? fun p => Differ tol (A.entry p.1 p.2) (A.entry p.2 p.1)).map
        A.reportAt) :=
  A.asymmetryAmong_eq tol _

end Search

/-! ## Unstored entries -/

/-- Where nothing is stored, the entry is zero. -/
theorem entry_eq_zero_of_unstored [AddCommMonoid S] {A : Csr S n n} {i j : Fin n}
    (h : (i, j) ∉ A.storedPositions) : A.entry i j = 0 := by
  refine sumAt_eq_zero fun e he hj => h (mem_storedPositions.2 ⟨e.2, ?_⟩)
  rw [← hj]
  exact he

variable [Field S] [LinearOrder S]

/-- The entry at a position differs from the mirrored one by no more than is allowed: the tolerance,
    relative to the entry where this is larger than one. -/
def Mirrors (A : Csr S n n) (tol : S) (i j : Fin n) : Prop :=
  |A.entry i j - A.entry j i| ≤ tol * max 1 |A.entry i j|

instance (A : Csr S n n) (tol : S) (i j : Fin n) : Decidable (A.Mirrors tol i j) :=
  inferInstanceAs (Decidable (_ ≤ _))

variable [IsStrictOrderedRing S]

theorem differ_iff {A : Csr S n n} {tol : S} {i j : Fin n} :
    Differ tol (A.entry i j) (A.entry j i) ↔ ¬ A.Mirrors tol i j := by
  have hlarger : larger |A.entry i j| 1 = max 1 |A.entry i j| := by
    unfold larger
    split_ifs with h
    · exact (max_eq_left h.le).symm
    · exact (max_eq_right (not_lt.1 h)).symm
  rw [Differ, Factors.magnitude_eq_abs, Factors.magnitude_eq_abs, hlarger, Mirrors, not_le]

/-- A size that is within the allowance relative to itself is within the tolerance. -/
theorem le_of_le_mul_max {a tol : S} (h1 : tol < 1) (h : a ≤ tol * max 1 a) : a ≤ tol := by
  rcases le_or_gt a 1 with hle | hlt
  · rwa [max_eq_left hle, mul_one] at h
  · rw [max_eq_right hlt.le] at h
    have hless : tol * a < 1 * a := mul_lt_mul_of_pos_right h1 (lt_trans one_pos hlt)
    rw [one_mul] at hless
    exact absurd h (not_le.2 hless)

/-- **The crux**: if the entries are alike at the stored positions, they are so at all others. -/
theorem mirrors_of_unstored {A : Csr S n n} {tol : S} (h0 : 0 ≤ tol) (h1 : tol < 1)
    (hstored : ∀ p ∈ A.storedPositions, A.Mirrors tol p.1 p.2) {i j : Fin n}
    (hij : (i, j) ∉ A.storedPositions) : A.Mirrors tol i j := by
  have hzero := entry_eq_zero_of_unstored hij
  have hsmall : |A.entry j i| ≤ tol := by
    by_cases hji : (j, i) ∈ A.storedPositions
    · have hmirrored := hstored (j, i) hji
      rw [Mirrors, hzero, sub_zero] at hmirrored
      exact le_of_le_mul_max h1 hmirrored
    · rw [entry_eq_zero_of_unstored hji, abs_zero]
      exact h0
  rw [Mirrors, hzero, zero_sub, abs_neg, abs_zero, max_eq_left zero_le_one, mul_one]
  exact hsmall

/-! ## The result -/

/-- **The result**: for every square matrix, however it is stored, and every tolerance below one, the
    search ends well.  It finds nothing just if all entries, stored or not, differ from the mirrored
    ones by no more than is allowed.  What it finds are two mirrored entries that differ by
    more, at the first stored position of this kind. -/
theorem first_asymmetry (A : Csr S n n) {tol : S} (h0 : 0 ≤ tol) (h1 : tol < 1) :
    ∃ found, A.asymmetry? tol = .ok found ∧
      (found = none ↔ ∀ i j, |A.entry i j - A.entry j i| ≤ tol * max 1 |A.entry i j|) ∧
      ∀ report, found = some report → ∃ i j : Fin n,
        report = ⟨i, j, A.entry i j, A.entry j i⟩ ∧
        tol * max 1 |A.entry i j| < |A.entry i j - A.entry j i| ∧
        (∀ i' < i, ∀ e ∈ A.row i', A.Mirrors tol i' e.1) ∧
        ∃ before v after, A.row i = before ++ (j, v) :: after ∧
          ∀ e ∈ before, A.Mirrors tol i e.1 := by
  refine ⟨_, A.asymmetry?_eq tol, ?_, fun report hreport => ?_⟩
  · simp only [Option.map_eq_none_iff, List.find?_eq_none, decide_eq_true_eq, differ_iff, not_not]
    constructor
    · intro hstored i j
      by_cases hij : (i, j) ∈ A.storedPositions
      · exact hstored (i, j) hij
      · exact mirrors_of_unstored h0 h1 hstored hij
    · intro hall p _
      exact hall p.1 p.2
  · obtain ⟨⟨i, j⟩, hfind, rfl⟩ := Option.map_eq_some_iff.1 hreport
    have hmirrors : ∀ {i j : Fin n}, decide (Differ tol (A.entry i j) (A.entry j i)) = false →
        A.Mirrors tol i j := by
      intro i j hfalse
      exact not_not.1 (mt differ_iff.2 (of_decide_eq_false hfalse))
    obtain ⟨hdiffer, hrows, before, v, after, hrow, hbefore⟩ := find?_storedPositions hfind
    refine ⟨i, j, rfl, not_le.1 (differ_iff.1 (of_decide_eq_true hdiffer)),
      fun i' hlt e he => hmirrors (hrows i' hlt e he), before, v, after, hrow,
      fun e he => hmirrors (hbefore e he)⟩

/-! ### Three rows, only one of them with entries -/

/-- Some entries in the row in the middle, and none above and below it. -/
def middleRowOnly (entries : List (Fin 3 × ℚ)) : Csr ℚ 3 3 where
  stored := entries.length
  rowPtr := #v[0, 0, entries.length, entries.length]
  columns := ⟨(entries.map (·.1)).toArray, by simp⟩
  values := ⟨(entries.map (·.2)).toArray, by simp⟩
  rowPtr_zero := rfl
  rowPtr_last := rfl
  rowPtr_mono := Fin.forall_fin_succ.2
    ⟨le_refl 0, Fin.forall_fin_two.2 ⟨Nat.zero_le _, le_refl entries.length⟩⟩

/-- So it is for them: entries that cancel out are not missed on the other side, and an entry that
    is stored on one side only is found, behind the one on the diagonal. -/
theorem first_asymmetry_oneSided :
    (∀ i j, (middleRowOnly [(0, 3), (1, 4), (0, -3)]).Mirrors (1 / 2) i j) ∧
    asymmetry? (middleRowOnly [(1, 4), (0, 3)]) (1 / 2) = .ok (some ⟨1, 0, 3, 0⟩) := by
  have h0 : (0 : ℚ) ≤ 1 / 2 := by norm_num
  have h1 : (1 / 2 : ℚ) < 1 := by norm_num
  constructor
  · obtain ⟨found, -, hnone, hreport⟩ :=
      first_asymmetry (middleRowOnly [(0, 3), (1, 4), (0, -3)]) h0 h1
    have hstored : ∀ i, ∀ e ∈ (middleRowOnly [(0, 3), (1, 4), (0, -3)]).row i,
        (middleRowOnly [(0, 3), (1, 4), (0, -3)]).Mirrors (1 / 2) i e.1 := by decide +kernel
    refine hnone.1 (Option.eq_none_iff_forall_ne_some.2 fun report h => ?_)
    obtain ⟨i, j, -, hdiffer, -, before, v, after, hrow, -⟩ := hreport report h
    have hmirrors := hstored i (j, v) (by simp [hrow])
    exact absurd hmirrors (not_le.2 hdiffer)
  · obtain ⟨found, hfound, hnone, hreport⟩ :=
      first_asymmetry (middleRowOnly [(1, 4), (0, 3)]) h0 h1
    have hfirst : ∀ i, ∀ e ∈ (middleRowOnly [(1, 4), (0, 3)]).row i,
        ¬ (middleRowOnly [(1, 4), (0, 3)]).Mirrors (1 / 2) i e.1 → i = 1 ∧ e.1 = 0 := by
      decide +kernel
    have hone : ¬ (middleRowOnly [(1, 4), (0, 3)]).Mirrors (1 / 2) 1 0 := by decide +kernel
    obtain ⟨report, rfl⟩ := Option.ne_none_iff_exists'.1 fun h => hone (hnone.1 h 1 0)
    obtain ⟨i, j, hfields, hdiffer, -, before, v, after, hrow, -⟩ := hreport report rfl
    obtain ⟨rfl, rfl⟩ := hfirst i (j, v) (by simp [hrow]) (not_le.2 hdiffer)
    have hhere : (middleRowOnly [(1, 4), (0, 3)]).entry 1 0 = 3 := by decide +kernel
    have hmirrored : (middleRowOnly [(1, 4), (0, 3)]).entry 0 1 = 0 := by decide +kernel
    rw [hfound, hfields, hhere, hmirrored]
    rfl

end Csr

end Condensation
