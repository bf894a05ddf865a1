/-
  Single solves — solving in one element, against solving in all of them.

  1. **Reached stores** — starting without matrices, a store takes them one by one or all at once,
     with markers that may change.  Every slot is blank or holds the factors of a matrix
     (`Reached.slot`), and which of the two it is shows in its mark.

  2. **Blank factors** — their two permutations send everything to the first place, so with two
     degrees of freedom or more they do not undo each other, and solving aborts; with one it
     divides by zero (`Factors.solve_blank`).

  3. **The result (`solve_eq_part`)** — solving in one element gives its part of solving in all
     of them if it has a matrix.  An element without one takes no part in solving in all: there
     its part is zero, while solving in it alone goes by the blank factors.
-/
import Condensation.Proofs.ElementSolves

namespace Condensation

variable {S : Type} {ne m : Nat}

/-! ## Blank factors -/

namespace Factors

section Check

variable [Sub S] [Mul S] [Div S] {f : Factors S m}

theorem solve_of_consistent (h : f.Consistent) (x : Vector S m) :
    f.solve x = .ok (substitute f.lu (.ofFn fun i => x.get (f.perm.get i))) := by
  have hcheck : Outcome.check f.Consistent = .ok () := if_pos h
  rw [solve, hcheck]
  rfl

theorem solve_of_not_consistent (h : ¬ f.Consistent) (x : Vector S m) : f.solve x = .abort := by
  have hcheck : Outcome.check f.Consistent = .abort := if_neg h
  rw [solve, hcheck]
  rfl

end Check

/-- Both permutations of blank factors are constant. -/
theorem consistent_blank [Zero S] : (blank : Factors S m).Consistent ↔ m ≤ 1 := by
  have hzero : ∀ i : Fin m,
      (blank : Factors S m).inverse.get ((blank : Factors S m).perm.get i) = ⟨0, i.pos⟩ := by
    intro i
    simp only [blank, Vector.get_ofFn_eq]
  constructor
  · intro h
    by_contra hm
    have hone := (hzero ⟨1, by omega⟩).symm.trans (h ⟨1, by omega⟩)
    simp at hone
  · intro hm i
    rw [hzero]
    apply Fin.ext
    show 0 = i.val
    omega

/-- Solving with blank factors. -/
theorem solve_blank [Zero S] [Sub S] [Mul S] [Div S] (x : Vector S m) :
    (blank : Factors S m).solve x =
      if m ≤ 1 then .ok (.ofFn fun i => x.get i / 0) else .abort := by
  by_cases hm : m ≤ 1
  · rw [solve_of_consistent (consistent_blank.2 hm), if_pos hm]
    congr 1
    obtain rfl | rfl : m = 0 ∨ m = 1 := by omega
    · exact Vector.ext_get fun i => i.elim0
    · -- a single unknown: nothing is substituted, and the pivot is zero
      apply Vector.ext_get
      intro i
      obtain rfl : i = 0 := Subsingleton.elim _ _
      simp [substitute, forwardStep, backwardStep, blank, Dense.zero, List.finRange_succ]
  · rw [solve_of_not_consistent (mt consistent_blank.1 hm), if_neg hm]

end Factors

/-! ## Reached stores -/

namespace ElementStore

variable [Zero S] [One S] [Neg S] [LT S] [DecidableLT S] [Sub S] [Mul S] [Div S]

/-- The stores that come about from one without matrices. -/
inductive Reached : ElementStore S ne m → Prop
  | empty {store} (made : empty? ne m = .ok store) : Reached store
  | assemble {store next e matrix essential} (before : Reached store)
      (taken : store.assemble e matrix essential = .ok next) : Reached next
  | assembleAll {store next s batch essential} (before : Reached store)
      (taken : store.assembleAll s batch essential = .ok next) : Reached next

/-- Every slot is blank, or holds the factors of a matrix. -/
theorem Reached.slot {store : ElementStore S ne m} (h : store.Reached) (e : Fin ne) :
    store.slots.get e = ⟨.blank, false⟩ ∨
      ∃ a essential, store.slots.get e = slotOf a essential := by
  induction h with
  | empty made => exact .inl (slot_of_empty made e)
  | assemble _ taken ih =>
    obtain ⟨f, a, marked, -, -, -, rfl⟩ := of_assemble taken
    by_cases hfe : f = e
    · subst hfe
      exact .inr ⟨_, _, Vector.get_put_self _ _ _⟩
    · rw [Vector.get_put_of_ne _ _ hfe]
      exact ih
  | assembleAll _ taken _ =>
    obtain ⟨batch, marked, -, -, rfl⟩ := of_assembleAll taken
    exact .inr ⟨_, _, Vector.get_ofFn_eq _ e⟩

/-- Solving in a slot that holds a matrix, or none, ends in a value. -/
theorem Reached.solveSlot_returns {store : ElementStore S ne m} (h : store.Reached) (e : Fin ne)
    (x : Vector S m) : ∃ y, solveSlot (store.slots.get e) x = .ok y := by
  rcases h.slot e with hblank | ⟨a, essential, hslot⟩
  · rw [hblank]
    exact ⟨_, rfl⟩
  · rw [hslot, solveSlot, slotOf, if_pos rfl]
    exact ⟨_, Factors.solve_of_consistent (Factors.consistent_ofMatrix _) x⟩

/-! ## The result -/

/-- **The result**: in a reached store, solving in all elements ends in a vector, the same for
    every schedule.  Solving in one element with a matrix gives its part of this vector.  The part
    of an element without a matrix is zero, and solving in that element alone does not give it:
    it aborts, or with a single degree of freedom divides by zero. -/
theorem solve_eq_part {store : ElementStore S ne m} (h : store.Reached) (x : Vector S (ne * m)) :
    ∃ y : Vector S (ne * m), (∀ s, store.solveAll s x.toArray = .ok y.toArray) ∧
      ∀ e : Fin ne,
        ((store.slots.get e).assembled = true →
          store.solve e (Pairing.part x e).toArray = .ok (Pairing.part y e).toArray) ∧
        ((store.slots.get e).assembled = false →
          Pairing.part y e = Vector.replicate m 0 ∧
          store.solve e (Pairing.part x e).toArray =
            if m ≤ 1 then .ok (Vector.ofFn fun i => (Pairing.part x e).get i / 0).toArray
            else .abort) := by
  choose parts hparts using fun e => h.solveSlot_returns e (Pairing.part x e)
  have hpart : ∀ e, Pairing.part (Pairing.ofParts (.ofFn parts)) e = parts e := by simp
  refine ⟨Pairing.ofParts (.ofFn parts), ?_, fun e => ⟨?_, ?_⟩⟩
  · intro s
    rw [solveAll, Outcome.sized_toArray, Outcome.ok_bind, solveVec_eq_parts hparts]
    rfl
  · intro he
    have hslot := hparts e
    rw [solveSlot, if_pos he] at hslot
    rw [solve_eq, hslot, hpart]
    rfl
  · intro he
    have hslot := hparts e
    rw [solveSlot, if_neg (by simp [he])] at hslot
    refine ⟨(hpart e).trans (Outcome.ok.inj hslot).symm, ?_⟩
    rcases h.slot e with hblank | ⟨a, essential, hfactors⟩
    · rw [solve_eq, hblank, Factors.solve_blank]
      split_ifs <;> rfl
    · rw [hfactors] at he
      cases he

/-- So it is for two elements with two degrees of freedom each, of which the first one has a
    matrix: the second one is solved to zero with the others, and solving in it alone aborts. -/
theorem solve_eq_part_absent :
    ∃ store : ElementStore ℚ 2 2,
      (⟨Vector.replicate 2 ⟨.blank, false⟩⟩ : ElementStore ℚ 2 2).assemble 0 #[2, 0, 0, 4]
        #[false, false, false, false] = .ok store ∧
      store.solveAll .backwards #[2, 4, 1, 1] = .ok #[1, 1, 0, 0] ∧
      store.solve 0 #[2, 4] = .ok #[1, 1] ∧ store.solve 1 #[1, 1] = .abort := by
  let fresh : ElementStore ℚ 2 2 := ⟨Vector.replicate 2 ⟨.blank, false⟩⟩
  let store : ElementStore ℚ 2 2 :=
    ⟨fresh.slots.put 0 (slotOf ⟨#v[2, 0, 0, 4]⟩ #v[false, false])⟩
  have hempty : empty? 2 2 = .ok fresh := rfl
  have htaken : fresh.assemble 0 #[2, 0, 0, 4] #[false, false, false, false] = .ok store := rfl
  have hreached : store.Reached := .assemble (.empty hempty) htaken
  obtain ⟨y, hall, hy⟩ := solve_eq_part hreached #v[2, 4, 1, 1]
  have hvalue : y.toArray = #[1, 1, 0, 0] := by
    apply Outcome.ok.inj
    rw [← hall .inOrder]
    decide +kernel
  obtain rfl : y = #v[1, 1, 0, 0] := Vector.toArray_inj.1 hvalue
  exact ⟨store, htaken, hall .backwards, (hy 0).1 rfl, ((hy 1).2 rfl).2⟩

end ElementStore

end Condensation
