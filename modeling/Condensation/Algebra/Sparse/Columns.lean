/-
  Referenced columns — a sparse matrix on the columns it mentions.

  A product with a matrix that mentions few columns needs few entries of the vector.  `referenced`
  is the ascending list of the columns of any stored entry, each once, and `compressed` is the
  same matrix with column `k` standing for column `referenced[k]`; `position` finds the place of a
  column by counting the smaller ones.
-/
import Condensation.Algebra.Sparse

namespace Condensation

/-- A sorted list without its repetitions. -/
def distinct {c : Nat} : List (Fin c) → List (Fin c)
  | a :: b :: rest => if a = b then distinct (b :: rest) else a :: distinct (b :: rest)
  | short => short

theorem mem_distinct {c : Nat} {j : Fin c} {l : List (Fin c)} : j ∈ distinct l ↔ j ∈ l := by
  fun_induction distinct l with
  | case1 a rest ih => simp [ih]
  | case2 a b rest h ih => simp [ih]
  | case3 => rfl

/-- How many entries of an ascending list come before `j`. -/
def rankIn {c : Nat} (j : Fin c) (l : List (Fin c)) : Nat :=
  (l.takeWhile (· < j)).length

theorem rankIn_lt {c : Nat} {j : Fin c} {l : List (Fin c)} (h : j ∈ l) :
    rankIn j l < l.length := by
  induction l with
  | nil => simp at h
  | cons a l ih =>
    simp only [rankIn, List.takeWhile_cons, List.length_cons]
    split
    · next hlt =>
      have : j ≠ a := by
        intro e; subst e; simp at hlt
      have := ih (by simpa [this] using h)
      simp only [rankIn] at this
      simp only [List.length_cons]
      omega
    · simp

namespace Csr

variable {S : Type} {r c : Nat}

/-- The columns of the stored entries, ascending, each once. -/
def referenced (A : Csr S r c) : List (Fin c) :=
  distinct (A.columns.toList.mergeSort fun a b => decide (a ≤ b))

theorem mem_referenced {A : Csr S r c} {j : Fin c} :
    j ∈ A.referenced ↔ j ∈ A.columns.toList := by
  simp [referenced, mem_distinct, List.mem_mergeSort]

/-- The place of the column of stored entry `k` among the referenced columns. -/
def position (A : Csr S r c) (k : Fin A.stored) : Fin A.referenced.length :=
  ⟨rankIn (A.columns.get k) A.referenced, rankIn_lt (mem_referenced.2 (Vector.get_mem_toList _ k))⟩

/-- The matrix on its referenced columns. -/
def compressed (A : Csr S r c) : Csr S r A.referenced.length :=
  { A with columns := Vector.ofFn A.position }

end Csr

end Condensation
