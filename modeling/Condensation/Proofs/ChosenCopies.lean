/-
  Chosen copies — what the two tables of the first copies say.

  The tables fill up while the broken degrees of freedom are taken up, lowest number first.

  1. **The invariant (`FirstBelow`)** — after those below `j`, the tables are inverse to each other, a
     chosen copy has no lower one beside it, and what has no chosen copy has no copy below `j`.  A
     copy is only chosen where there is none yet, so the inverse never breaks (`takeUp`).

  2. **The tables (`choosesFirst_among`)** — in the end a local degree of freedom has the lowest of
     all its copies, or it has no copy.
-/
import Condensation.Dofs.FirstCopies
import Condensation.Proofs.Operators

namespace Condensation

/-- What a table holds after one entry was filled in. -/
theorem get_put_some_iff {α : Type} {n : Nat} {v : Vector (Option α) n} {i j : Fin n} {a b : α} :
    (v.put i (some a)).get j = some b ↔ (i = j ∧ a = b) ∨ (i ≠ j ∧ v.get j = some b) := by
  by_cases h : i = j
  · subst h
    simp
  · rw [Vector.get_put_of_ne _ _ h]
    simp [h]

namespace FirstCopies

variable {K L : Nat} {gather : Vector (Signed (Fin L)) K}

/-! ## The invariant -/

/-- The tables after the broken degrees of freedom below `j` were taken up. -/
structure FirstBelow (gather : Vector (Signed (Fin L)) K) (j : Nat) (c : FirstCopies K L) :
    Prop where
  paired : ∀ k l o, c.toLocal.get k = some ⟨l, o⟩ ↔ c.toBroken.get l = some ⟨k, o⟩
  below : ∀ l k o, c.toBroken.get l = some ⟨k, o⟩ → k.val < j
  copy : ∀ l k o, c.toBroken.get l = some ⟨k, o⟩ → gather.get k = ⟨l, o⟩
  lowest : ∀ l k o, c.toBroken.get l = some ⟨k, o⟩ → ∀ k', (gather.get k').index = l → k ≤ k'
  missing : ∀ l, c.toBroken.get l = none → ∀ k : Fin K, k.val < j → (gather.get k).index ≠ l

theorem firstBelow_start : FirstBelow gather 0 start where
  paired := by simp [start]
  below := by simp [start]
  copy := by simp [start]
  lowest := by simp [start]
  missing _ _ _ hk := absurd hk (Nat.not_lt_zero _)

/-- A copy of a target that has one already changes nothing. -/
theorem FirstBelow.skip {c : FirstCopies K L} {k : Fin K} (h : FirstBelow gather k c)
    (hold : c.toBroken.get (gather.get k).index ≠ none) : FirstBelow gather (k + 1) c where
  paired := h.paired
  below l k' o hl := Nat.lt_succ_of_lt (h.below l k' o hl)
  copy := h.copy
  lowest := h.lowest
  missing l hl k' hk' := by
    rcases Nat.lt_succ_iff_lt_or_eq.1 hk' with hlt | heq
    · exact h.missing l hl k' hlt
    · obtain rfl : k' = k := Fin.ext heq
      rintro rfl
      exact hold hl

/-- The first copy of a target is chosen for it. -/
theorem FirstBelow.choose {c : FirstCopies K L} {k : Fin K} (h : FirstBelow gather k c)
    (hnew : c.toBroken.get (gather.get k).index = none) :
    FirstBelow gather (k + 1)
      { toLocal := c.toLocal.put k (some (gather.get k))
        toBroken := c.toBroken.put (gather.get k).index (some ⟨k, (gather.get k).orientation⟩) } where
  paired k' l o := by
    -- what was chosen before is chosen still, since `k` and its target were in neither table
    have hother : c.toBroken.get l = some ⟨k', o⟩ → k ≠ k' ∧ (gather.get k).index ≠ l := by
      intro hold
      constructor
      · rintro rfl
        exact Nat.lt_irrefl _ (h.below l k o hold)
      · rintro rfl
        rw [hnew] at hold
        cases hold
    rw [get_put_some_iff, get_put_some_iff, h.paired]
    constructor
    · rintro (⟨rfl, hcopy⟩ | ⟨-, hold⟩)
      · rw [hcopy]
        exact .inl ⟨rfl, rfl⟩
      · exact .inr ⟨(hother hold).2, hold⟩
    · rintro (⟨rfl, hpair⟩ | ⟨-, hold⟩)
      · cases hpair
        exact .inl ⟨rfl, rfl⟩
      · exact .inr ⟨(hother hold).1, hold⟩
  below l k' o hl := by
    rcases get_put_some_iff.1 hl with ⟨-, hpair⟩ | ⟨-, hold⟩
    · cases hpair
      exact Nat.lt_succ_self _
    · exact Nat.lt_succ_of_lt (h.below l k' o hold)
  copy l k' o hl := by
    rcases get_put_some_iff.1 hl with ⟨rfl, hpair⟩ | ⟨-, hold⟩
    · cases hpair
      rfl
    · exact h.copy l k' o hold
  lowest l k' o hl k'' hk'' := by
    rcases get_put_some_iff.1 hl with ⟨rfl, hpair⟩ | ⟨-, hold⟩
    · cases hpair
      exact Nat.le_of_not_lt fun hlt => h.missing _ hnew k'' hlt hk''
    · exact h.lowest l k' o hold k'' hk''
  missing l hl k' hk' := by
    have hne : (gather.get k).index ≠ l := by
      rintro rfl
      simp at hl
    rw [Vector.get_put_of_ne _ _ hne] at hl
    rcases Nat.lt_succ_iff_lt_or_eq.1 hk' with hlt | heq
    · exact h.missing l hl k' hlt
    · obtain rfl : k' = k := Fin.ext heq
      exact hne

/-- One more broken degree of freedom keeps the invariant. -/
theorem FirstBelow.takeUp {c : FirstCopies K L} {k : Fin K} (h : FirstBelow gather k c) :
    FirstBelow gather (k + 1) (takeUp gather c k) := by
  unfold FirstCopies.takeUp
  by_cases hnew : c.toBroken.get (gather.get k).index = none
  · rw [if_pos (Option.isNone_iff_eq_none.2 hnew)]
    exact h.choose hnew
  · rw [if_neg (mt Option.isNone_iff_eq_none.1 hnew)]
    exact h.skip hnew

/-! ## The tables -/

/-- The two tables pair every local degree of freedom that has a broken copy with the lowest-numbered
    one: they are inverse to each other, with equal orientations. -/
structure ChoosesFirst (gather : Vector (Signed (Fin L)) K) (c : FirstCopies K L) : Prop where
  paired : ∀ k l o, c.toLocal.get k = some ⟨l, o⟩ ↔ c.toBroken.get l = some ⟨k, o⟩
  first_iff : ∀ l k o, c.toBroken.get l = some ⟨k, o⟩ ↔
    gather.get k = ⟨l, o⟩ ∧ ∀ k', (gather.get k').index = l → k ≤ k'
  none_iff : ∀ l, c.toBroken.get l = none ↔ ∀ k, (gather.get k).index ≠ l

/-- **The tables**: the program chooses the first copies. -/
theorem choosesFirst_among (gather : Vector (Signed (Fin L)) K) :
    ChoosesFirst gather (among gather) := by
  have hall : FirstBelow gather K (among gather) :=
    foldl_finRange_invariant _ (FirstBelow gather) firstBelow_start fun k c h => h.takeUp
  refine ⟨hall.paired, fun l k o => ⟨fun h => ⟨hall.copy l k o h, hall.lowest l k o h⟩, ?_⟩,
    fun l => ⟨fun h k => hall.missing l h k k.isLt, ?_⟩⟩
  · rintro ⟨hcopy, hlowest⟩
    cases hchosen : (among gather).toBroken.get l with
    | none =>
      exact absurd (congrArg Signed.index hcopy) (hall.missing l hchosen k k.isLt)
    | some g =>
      obtain ⟨k', o'⟩ := g
      -- both are the lowest copy
      have hcopy' := hall.copy l k' o' hchosen
      obtain rfl : k' = k := le_antisymm
        (hall.lowest l k' o' hchosen k (congrArg Signed.index hcopy))
        (hlowest k' (congrArg Signed.index hcopy'))
      obtain rfl : o' = o := congrArg Signed.orientation (hcopy'.symm.trans hcopy)
      rfl
  · intro h
    cases hchosen : (among gather).toBroken.get l with
    | none => rfl
    | some g => exact absurd (congrArg Signed.index (hall.copy l _ _ hchosen)) (h g.index)

end FirstCopies

end Condensation
