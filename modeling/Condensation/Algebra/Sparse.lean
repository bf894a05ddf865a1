/-
  Sparse matrices — compressed rows.

  1. **Data** — `Csr S r c` keeps the stored entries of all rows one after another, in whatever
     order and however often a position occurs; `rowPtr` says where each row starts.  The type
     carries that the row pointer starts at zero, never decreases and ends at the number of
     stored entries, and that every column exists.

  2. **Meaning** — the entry at a position is the sum of what is stored there (`entry`).  The
     products, the dense copy and the lookups all add repeated entries.

  3. **Construction** — `ofArrays?` is the only way in: it checks the three arrays, and the
     arrays that the library builds itself go through it as well (`ofParts`, which aborts where
     the check fails).  `ofArrays` refuses with the cause.
-/
import Condensation.Indexing
import Condensation.Outcome
import Condensation.Algebra.Scalar

namespace Condensation

/-- An `r × c` matrix in compressed row form. -/
structure Csr (S : Type) (r c : Nat) where
  stored : Nat
  rowPtr : Vector Nat (r + 1)
  columns : Vector (Fin c) stored
  values : Vector S stored
  rowPtr_zero : rowPtr.get ⟨0, Nat.succ_pos r⟩ = 0
  rowPtr_last : rowPtr.get (Fin.last r) = stored
  rowPtr_mono : ∀ i : Fin r, rowPtr.get i.castSucc ≤ rowPtr.get i.succ

namespace Csr

variable {S : Type} {r c : Nat}

/-! ## Construction -/

/-- Three arrays that describe a matrix in compressed row form. -/
structure Describes (r c : Nat) (rowPtr colIdx : Array Nat) (values : Array S) : Prop where
  rows : rowPtr.size = r + 1
  paired : values.size = colIdx.size
  first : rowPtr.getD 0 0 = 0
  last : rowPtr.getD r 0 = colIdx.size
  mono : ∀ i : Fin r, rowPtr.getD i 0 ≤ rowPtr.getD (i + 1) 0
  inside : ∀ k : Fin colIdx.size, colIdx[k] < c

instance (r c : Nat) (rowPtr colIdx : Array Nat) (values : Array S) :
    Decidable (Describes r c rowPtr colIdx values) :=
  if h : rowPtr.size = r + 1 ∧ values.size = colIdx.size ∧ rowPtr.getD 0 0 = 0 ∧
      rowPtr.getD r 0 = colIdx.size ∧ (∀ i : Fin r, rowPtr.getD i 0 ≤ rowPtr.getD (i + 1) 0) ∧
      (∀ k : Fin colIdx.size, colIdx[k] < c) then
    .isTrue ⟨h.1, h.2.1, h.2.2.1, h.2.2.2.1, h.2.2.2.2.1, h.2.2.2.2.2⟩
  else .isFalse fun d => h ⟨d.rows, d.paired, d.first, d.last, d.mono, d.inside⟩

/-- The matrix that three arrays describe, if they describe one. -/
def ofArrays? (r c : Nat) (rowPtr colIdx : Array Nat) (values : Array S) : Option (Csr S r c) :=
  if h : Describes r c rowPtr colIdx values then
    some
      { stored := colIdx.size
        rowPtr := ⟨rowPtr, h.rows⟩
        columns := Vector.ofFn fun k => ⟨colIdx[k], h.inside k⟩
        values := ⟨values, h.paired⟩
        rowPtr_zero := by rw [Vector.get_mk_eq_getD _ _ _ 0]; exact h.first
        rowPtr_last := by rw [Vector.get_mk_eq_getD _ _ _ 0]; exact h.last
        rowPtr_mono := fun i => by
          rw [Vector.get_mk_eq_getD _ _ _ 0, Vector.get_mk_eq_getD _ _ _ 0]
          exact h.mono i }
  else none

/-- A matrix from arrays that are known to describe one; aborts where they do not. -/
def ofParts (r c : Nat) (rowPtr colIdx : Array Nat) (values : Array S) : Outcome (Csr S r c) :=
  .ofOption (ofArrays? r c rowPtr colIdx values)

/-- A matrix from arrays that come from outside; refused with the first cause found. -/
def ofArrays (r c : Nat) (rowPtr colIdx : Array Nat) (values : Array S) :
    Outcome (Csr S r c) := do
  let pointers ← Size.sum r 1
  Outcome.sameLength .rowPointer pointers rowPtr.size
  Outcome.sameLength .rowValues colIdx.size values.size
  let first ← Outcome.ofOption rowPtr[0]?
  let last ← Outcome.ofOption rowPtr[r]?
  Outcome.require (first = 0 ∧ last = colIdx.size)
    (.badNumbering (.rowPointerSpan first last colIdx.size))
  Outcome.require (∀ i : Fin r, rowPtr.getD i 0 ≤ rowPtr.getD (i + 1) 0)
    (.badNumbering .rowPointerNotMonotone)
  match colIdx.find? (c ≤ ·) with
  | some j => .fault (.badNumbering (.columnOutOfRange j c))
  | none => ofParts r c rowPtr colIdx values

/-! ## Meaning -/

/-- The stored entries of all rows, in storage order. -/
def entries (A : Csr S r c) : List (Fin c × S) :=
  A.columns.toList.zip A.values.toList

/-- The stored entries of row `i`. -/
def row (A : Csr S r c) (i : Fin r) : List (Fin c × S) :=
  (A.entries.drop (A.rowPtr.get i.castSucc)).take
    (A.rowPtr.get i.succ - A.rowPtr.get i.castSucc)

/-- The entry at `(i, j)`: the sum of what is stored there. -/
def entry [Zero S] [Add S] (A : Csr S r c) (i : Fin r) (j : Fin c) : S :=
  (((A.row i).filter fun e => e.1 = j).map (·.2)).sum

/-- The stored entries of a row given by number; a row that does not exist aborts. -/
def rowAt (A : Csr S r c) (i : Nat) : Outcome (List (Fin c × S)) :=
  if h : i < r then .ok (A.row ⟨i, h⟩) else .abort

/-- The entry at a position given by numbers.  A row that does not exist aborts; a column that
    does not exist holds nothing. -/
def entryAt [Zero S] [Add S] (A : Csr S r c) (i j : Nat) : Outcome S := do
  let es ← A.rowAt i
  return ((es.filter fun e => e.1.val = j).map (·.2)).sum

/-- The matrix written out. -/
def toRows [Zero S] [Add S] (A : Csr S r c) : Vector (Vector S c) r :=
  Vector.ofFn fun i => Vector.ofFn fun j => A.entry i j

/-! ## Products -/

section Products

variable [Zero S] [Add S] [Mul S]

/-- `A x`. -/
def mulVec (A : Csr S r c) (x : Vector S c) : Vector S r :=
  Vector.ofFn fun i => ((A.row i).map fun e => e.2 * x.get e.1).sum

/-- Add the part of one stored entry to `Aᵀ x`. -/
def scatter (factor : S) (y : Vector S c) (e : Fin c × S) : Vector S c :=
  y.put e.1 (y.get e.1 + e.2 * factor)

/-- `Aᵀ x`, row by row of `A`. -/
def mulVecTranspose (A : Csr S r c) (x : Vector S r) : Vector S c :=
  (List.finRange r).foldl (fun y i => (A.row i).foldl (scatter (x.get i)) y) (Vector.replicate c 0)

end Products

/-- The identity. -/
def identity [Zero S] [One S] (n : Nat) : Csr S n n where
  stored := n
  rowPtr := Vector.ofFn fun i => i.val
  columns := Vector.ofFn id
  values := Vector.replicate n 1
  rowPtr_zero := by simp
  rowPtr_last := by simp
  rowPtr_mono := by simp

/-- The identity, if there is room for it. -/
def identity? [Zero S] [One S] (n : Nat) : Outcome (Csr S n n) := do
  Size.table (n + 1)
  return identity n

/-- The two matrices store the same arrays. -/
def sameStored [BEq S] {r' c' : Nat} (A : Csr S r c) (B : Csr S r' c') : Bool :=
  r == r' && c == c' && A.rowPtr.toArray == B.rowPtr.toArray &&
    A.columns.toArray.map Fin.val == B.columns.toArray.map Fin.val &&
    A.values.toArray == B.values.toArray

end Csr

end Condensation
