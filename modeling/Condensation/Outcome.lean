/-
  Outcomes — how a computation of this library ends.

  1. **Three endings** — a value, a `Fault` (the request was refused and nothing changed), or an
     abort (a size left the 64-bit range, an index left its table, or an internal check failed).
     A fault is an answer; an abort is a defect of the caller or of the library, and has no text.

  2. **Sequencing** — `Outcome` is a monad in which the first ending other than a value wins.
     For every building block a lemma `…_eq_ok_iff` says when it succeeds, and with what.
     `tabulate` runs a family of computations in index order, so the fault of the lowest index
     is the one reported; it succeeds exactly when all members do.

  3. **Sizes** — lengths and indices are 64-bit.  `Size.sum` and `Size.product` abort where the
     exact result leaves that range, and `Size.table` where a table would not fit into memory.
-/
import Condensation.Indexing
import Condensation.Fault

namespace Condensation

/-- How a computation ends: with a value, with a refusal, or by aborting. -/
inductive Outcome (α : Type) where
  | ok (a : α)
  | fault (why : Fault)
  | abort
  deriving DecidableEq, Repr

namespace Outcome

variable {α β : Type}

/-- Go on with the value, if there is one. -/
protected def bind : Outcome α → (α → Outcome β) → Outcome β
  | ok a, f => f a
  | fault e, _ => fault e
  | abort, _ => abort

instance : Monad Outcome where
  pure := ok
  bind := Outcome.bind

@[simp] theorem pure_eq (a : α) : (pure a : Outcome α) = ok a := rfl

@[simp] theorem ok_bind (a : α) (f : α → Outcome β) : ok a >>= f = f a := rfl

@[simp] theorem fault_bind (e : Fault) (f : α → Outcome β) :
    (fault e : Outcome α) >>= f = fault e := rfl

@[simp] theorem abort_bind (f : α → Outcome β) : (abort : Outcome α) >>= f = abort := rfl

instance : LawfulMonad Outcome := LawfulMonad.mk' Outcome
  (by intro α x; cases x <;> rfl)
  (by intros; rfl)
  (by intro α β γ x f g; cases x <;> rfl)

/-- A step succeeds exactly when both of its parts do. -/
theorem bind_eq_ok_iff {x : Outcome α} {f : α → Outcome β} {b : β} :
    x >>= f = ok b ↔ ∃ a, x = ok a ∧ f a = ok b := by
  cases x <;> simp

/-- It is refused when its first part is, or when its second one is after the first. -/
theorem bind_eq_fault_iff {x : Outcome α} {f : α → Outcome β} {why : Fault} :
    x >>= f = fault why ↔ x = fault why ∨ ∃ a, x = ok a ∧ f a = fault why := by
  cases x <;> simp

/-- A list of computations succeeds when all of its members do, with their values. -/
theorem mapM_eq_ok {f : α → Outcome β} {g : α → β} {l : List α} (h : ∀ a ∈ l, f a = ok (g a)) :
    l.mapM f = ok (l.map g) := by
  induction l with
  | nil => rfl
  | cons a rest ih =>
    rw [List.mapM_cons, h a (by simp), ok_bind, ih fun b hb => h b (by simp [hb])]
    rfl

/-- The value of a lookup; a lookup outside its table aborts. -/
def ofOption : Option α → Outcome α
  | some a => ok a
  | none => abort

/-- The value of a search; a search that fails is refused with the given cause. -/
def orFault (why : Fault) : Option α → Outcome α
  | some a => ok a
  | none => fault why

/-- Refuse with `why` unless the condition holds. -/
def require (p : Prop) [Decidable p] (why : Fault) : Outcome Unit :=
  if p then ok () else fault why

/-- Abort unless the condition holds. -/
def check (p : Prop) [Decidable p] : Outcome Unit :=
  if p then ok () else abort

/-- Refuse a length other than the expected one. -/
def sameLength (what : Quantity) (expected found : Nat) : Outcome Unit :=
  require (expected = found) (.wrongLength what expected found)

/-- The array as a vector of the expected length, or a refusal that names the quantity. -/
def sized (what : Quantity) (n : Nat) (a : Array α) : Outcome (Vector α n) :=
  if h : a.size = n then ok ⟨a, h⟩ else fault (.wrongLength what n a.size)

/-- The list as a vector of a length that it is known to have; aborts if it has another one. -/
def exactly (n : Nat) (l : List α) : Outcome (Vector α n) :=
  if h : l.length = n then ok ⟨l.toArray, h⟩ else abort

theorem ofOption_eq_ok_iff {x : Option α} {a : α} : ofOption x = ok a ↔ x = some a := by
  cases x <;> simp [ofOption]

theorem orFault_eq_ok_iff {why : Fault} {x : Option α} {a : α} :
    orFault why x = ok a ↔ x = some a := by
  cases x <;> simp [orFault]

theorem orFault_eq_fault_iff {why why' : Fault} {x : Option α} :
    orFault why x = fault why' ↔ x = none ∧ why = why' := by
  cases x <;> simp [orFault]

theorem require_eq_ok_iff {p : Prop} [Decidable p] {why : Fault} {u : Unit} :
    require p why = ok u ↔ p := by
  by_cases h : p <;> simp [require, h]

theorem check_eq_ok_iff {p : Prop} [Decidable p] {u : Unit} : check p = ok u ↔ p := by
  by_cases h : p <;> simp [check, h]

theorem sized_eq_ok_iff {what : Quantity} {n : Nat} {a : Array α} {v : Vector α n} :
    sized what n a = ok v ↔ v.toArray = a := by
  unfold sized
  split
  · next h =>
    simp only [ok.injEq]
    exact ⟨fun e => by rw [← e], fun e => Vector.toArray_inj.1 e.symm⟩
  · next h =>
    refine ⟨fun e => by injection e, fun e => ?_⟩
    exact absurd (e ▸ v.size_toArray) h

theorem sized_toArray (what : Quantity) {n : Nat} (v : Vector α n) :
    sized what n v.toArray = ok v :=
  sized_eq_ok_iff.2 rfl

/-- Run a family of computations in index order and collect the values. -/
def tabulate : {n : Nat} → (Fin n → Outcome α) → Outcome (Vector α n)
  | 0, _ => ok #v[]
  | n + 1, f => do
    let front ← tabulate fun i : Fin n => f i.castSucc
    let last ← f (Fin.last n)
    return front.push last

/-- **Tabulation** succeeds exactly when every member does, with the members' values. -/
theorem tabulate_eq_ok_iff {n : Nat} {f : Fin n → Outcome α} {v : Vector α n} :
    tabulate f = ok v ↔ ∀ i : Fin n, f i = ok (v.get i) := by
  induction n with
  | zero =>
    refine ⟨fun _ i => i.elim0, fun _ => ?_⟩
    simp only [tabulate]
    congr 1
    exact Vector.ext_get fun i => i.elim0
  | succ n ih =>
    simp only [tabulate, bind_eq_ok_iff, pure_eq]
    constructor
    · rintro ⟨w, hw, a, ha, hv⟩ i
      injection hv with hv
      subst hv
      have hw := ih.1 hw
      refine Fin.lastCases ?_ (fun j => ?_) i
      · rw [Vector.get_push_of_eq _ _ (by simp), ha]
      · rw [Vector.get_push_of_lt _ _ (by simp), hw j]
        rfl
    · intro h
      refine ⟨Vector.ofFn fun i => v.get i.castSucc, ih.2 fun i => ?_, v.get (Fin.last n),
        h (Fin.last n), ?_⟩
      · rw [h i.castSucc, Vector.get_ofFn_eq]
      · congr 1
        refine Vector.ext_get fun i => Fin.lastCases ?_ (fun j => ?_) i
        · rw [Vector.get_push_of_eq _ _ (by simp)]
        · rw [Vector.get_push_of_lt _ _ (by simp), Vector.get_ofFn_eq]
          rfl

/-- **The first fault** is the one reported: all members before the refused one succeed. -/
theorem tabulate_eq_fault_iff {n : Nat} {f : Fin n → Outcome α} {why : Fault} :
    tabulate f = fault why ↔ ∃ i, f i = fault why ∧ ∀ j < i, ∃ a, f j = ok a := by
  induction n with
  | zero =>
    refine ⟨fun h => ?_, fun ⟨i, _⟩ => i.elim0⟩
    cases h
  | succ n ih =>
    have before : ∀ i : Fin n, (∀ j < i.castSucc, ∃ a, f j = ok a) ↔
        ∀ j < i, ∃ a, f j.castSucc = ok a := by
      intro i
      refine ⟨fun h j hj => h j.castSucc hj, fun h j hj => ?_⟩
      exact h ⟨j.val, Nat.lt_trans hj i.isLt⟩ hj
    have hfront : (tabulate fun i : Fin n => f i.castSucc) = fault why ↔
        ∃ i : Fin n, f i.castSucc = fault why ∧ ∀ j < i.castSucc, ∃ a, f j = ok a := by
      rw [ih]
      exact exists_congr fun i => and_congr_right fun _ => (before i).symm
    simp only [tabulate, bind_eq_fault_iff, pure_eq, reduceCtorEq, and_false, exists_false, or_false]
    constructor
    · rintro (h | ⟨front, hok, hlast⟩)
      · obtain ⟨i, hi⟩ := hfront.1 h
        exact ⟨i.castSucc, hi⟩
      · exact ⟨Fin.last n, hlast, fun j hj =>
          ⟨_, tabulate_eq_ok_iff.1 hok ⟨j.val, hj⟩⟩⟩
    · rintro ⟨i, hi, hbefore⟩
      cases i using Fin.lastCases with
      | cast i => exact .inl (hfront.2 ⟨i, hi, hbefore⟩)
      | last =>
        have hall : ∀ j : Fin n, ∃ a, f j.castSucc = ok a := fun j => hbefore _ j.isLt
        refine .inr ⟨Vector.ofFn fun j => (hall j).choose, tabulate_eq_ok_iff.2 fun j => ?_, hi⟩
        rw [Vector.get_ofFn_eq]
        exact (hall j).choose_spec

end Outcome

/-! ## Sizes -/

namespace Size

/-- Sizes and indices lie below this bound, `2 ^ 64`. -/
def limit : Nat := 18446744073709551616

/-- A table of this many entries, `2 ^ 44`, or more does not fit into memory. -/
def tableLimit : Nat := 17592186044416

/-- The sum of two sizes. -/
def sum (a b : Nat) : Outcome Nat :=
  if a + b < limit then .ok (a + b) else .abort

/-- The product of some sizes, multiplied from the left. -/
def product (factors : List Nat) : Outcome Nat :=
  factors.foldlM (fun acc k => if acc * k < limit then .ok (acc * k) else .abort) 1

/-- Room for a table of `n` entries. -/
def table (n : Nat) : Outcome Unit :=
  Outcome.check (n < tableLimit)

end Size

end Condensation
