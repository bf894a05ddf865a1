/-
  Cutting — lists in the order of their keys.

  1. **Classes (`flatten_classes`)** — a list in ascending order of its keys is the list of what has
     key zero, then of what has key one, and so on.

  2. **Slices (`slice_eq`)** — so what has one key is the slice of the list behind all smaller
     keys.
-/
import Mathlib.Data.List.Range
import Mathlib.Data.List.OfFn

namespace Condensation

variable {β : Type} {key : β → Nat} {L : List β}

/-- What is below a key, and then the rest. -/
theorem filter_lt_append (hL : L.Pairwise fun a b => key a ≤ key b) (m : Nat) :
    (L.filter fun b => key b < m) ++ (L.filter fun b => m ≤ key b) = L := by
  induction L with
  | nil => rfl
  | cons b rest ih =>
    obtain ⟨hb, hrest⟩ := List.pairwise_cons.1 hL
    rcases Nat.lt_or_ge (key b) m with hlt | hge
    · have h : ¬ m ≤ key b := by omega
      simp [hlt, h, ih hrest]
    · have hnone : ((b :: rest).filter fun b => key b < m) = [] := by
        refine List.filter_eq_nil_iff.2 fun c hc => ?_
        have : key b ≤ key c := by
          rcases List.mem_cons.1 hc with rfl | hc
          · exact le_rfl
          · exact hb c hc
        simp only [decide_eq_true_eq]
        omega
      have hall : ((b :: rest).filter fun b => m ≤ key b) = b :: rest := by
        refine List.filter_eq_self.2 fun c hc => ?_
        rcases List.mem_cons.1 hc with rfl | hc
        · simpa using hge
        · have := hb c hc
          simp only [decide_eq_true_eq]
          omega
      rw [hnone, hall, List.nil_append]

/-- What is below the next key is what is below this one, and then what has this one. -/
theorem filter_lt_succ (hL : L.Pairwise fun a b => key a ≤ key b) (m : Nat) :
    (L.filter fun b => key b < m + 1) =
      (L.filter fun b => key b < m) ++ L.filter fun b => key b = m := by
  rw [← filter_lt_append (hL.filter _) m, List.filter_filter, List.filter_filter]
  congr 1
  · refine List.filter_congr fun b _ => ?_
    by_cases h : key b < m
    · simp [h, Nat.lt_succ_of_lt h]
    · simp [h]
  · refine List.filter_congr fun b _ => ?_
    rw [Bool.eq_iff_iff]
    simp only [Bool.and_eq_true, decide_eq_true_eq]
    omega

/-! ## Classes -/

/-- What has key `r`, for every key below `n`. -/
def classes (n : Nat) (key : β → Nat) (L : List β) : List (List β) :=
  (List.range n).map fun r => L.filter fun b => key b = r

theorem classes_eq_ofFn (n : Nat) (key : β → Nat) (L : List β) :
    classes n key L = List.ofFn fun r : Fin n => L.filter fun b => key b = r := by
  refine List.ext_getElem (by simp [classes]) fun r h1 h2 => ?_
  simp [classes]

/-- **Classes**: a list in the order of its keys is its classes, one after another. -/
theorem flatten_classes {n : Nat} (hL : L.Pairwise fun a b => key a ≤ key b)
    (hlt : ∀ b ∈ L, key b < n) : (classes n key L).flatten = L := by
  have below : ∀ m, (classes m key L).flatten = L.filter fun b => key b < m := by
    intro m
    induction m with
    | zero => simp [classes]
    | succ m ih =>
      rw [filter_lt_succ hL, ← ih, classes, List.range_succ, List.map_append, List.flatten_append]
      simp [classes]
  rw [below]
  exact List.filter_eq_self.2 fun b hb => by simpa using hlt b hb

/-! ## Slices -/

/-- **Slices**: what has one key follows directly behind all smaller keys. -/
theorem slice_eq (hL : L.Pairwise fun a b => key a ≤ key b) (m : Nat) :
    (L.drop (L.countP fun b => key b < m)).take (L.countP fun b => key b = m) =
      L.filter fun b => key b = m := by
  have hslice : ∀ A B C : List β, A ++ (B ++ C) = L → (L.drop A.length).take B.length = B := by
    rintro A B C rfl
    rw [List.drop_left, List.take_left]
  have hsplit : (L.filter fun b => key b < m) ++ ((L.filter fun b => key b = m) ++
      L.filter fun b => m + 1 ≤ key b) = L := by
    rw [← List.append_assoc, ← filter_lt_succ hL, filter_lt_append hL]
  rw [List.countP_eq_length_filter, List.countP_eq_length_filter]
  exact hslice _ _ _ hsplit

theorem countP_lt_succ (hL : L.Pairwise fun a b => key a ≤ key b) (m : Nat) :
    (L.countP fun b => key b < m + 1) =
      (L.countP fun b => key b < m) + L.countP fun b => key b = m := by
  rw [List.countP_eq_length_filter, filter_lt_succ hL, List.length_append,
    ← List.countP_eq_length_filter, ← List.countP_eq_length_filter]

end Condensation
