/-
  Numbering of pairs — the two halves of a flat index.

  Flat buffers number the pairs (outer, inner) row by row: the pair `(i, j)` of `Fin a × Fin b`
  has the number `i * b + j`.  Broken degrees of freedom are numbered so by element and local
  number, face degrees of freedom by face and local number, and the entries of a column-major
  matrix by column and row.  `split_join` and `join_split` say that the two directions undo each
  other.
-/
import Condensation.Indexing

namespace Condensation

namespace Pairing

variable {a b : Nat}

/-- The number of the pair `(i, j)`. -/
def join (i : Fin a) (j : Fin b) : Fin (a * b) :=
  ⟨i * b + j, by
    have hi : i.val + 1 ≤ a := i.isLt
    calc i.val * b + j.val < i.val * b + b := by omega
      _ = (i.val + 1) * b := by rw [Nat.add_mul, Nat.one_mul]
      _ ≤ a * b := Nat.mul_le_mul_right b hi⟩

/-- The outer half of a flat number. -/
def outer (k : Fin (a * b)) : Fin a :=
  ⟨k / b, Nat.div_lt_of_lt_mul (Nat.mul_comm a b ▸ k.isLt)⟩

/-- The inner half of a flat number. -/
def inner (k : Fin (a * b)) : Fin b :=
  ⟨k % b, Nat.mod_lt _ (Nat.pos_of_ne_zero fun h => by
    have := k.isLt; simp [h] at this)⟩

/-- A pair is read back from its number, -/
@[simp] theorem outer_join (i : Fin a) (j : Fin b) : outer (join i j) = i := by
  apply Fin.ext
  simp only [outer, join]
  rw [Nat.mul_comm, Nat.mul_add_div (by have := j.isLt; omega), Nat.div_eq_of_lt j.isLt]
  simp

@[simp] theorem inner_join (i : Fin a) (j : Fin b) : inner (join i j) = j := by
  apply Fin.ext
  simp only [inner, join]
  rw [Nat.mul_comm, Nat.mul_add_mod, Nat.mod_eq_of_lt j.isLt]

/-- and a number is that of its two halves. -/
@[simp] theorem join_split (k : Fin (a * b)) : join (outer k) (inner k) = k := by
  apply Fin.ext
  simp only [outer, inner, join]
  rw [Nat.mul_comm]
  exact Nat.div_add_mod k.val b

/-- So different pairs have different numbers. -/
theorem join_inj {i i' : Fin a} {j j' : Fin b} : join i j = join i' j' ↔ i = i' ∧ j = j' := by
  constructor
  · intro h
    have h1 := congrArg outer h
    have h2 := congrArg inner h
    simp at h1 h2
    exact ⟨h1, h2⟩
  · rintro ⟨rfl, rfl⟩; rfl

/-- The part of a flat vector that belongs to the outer number `i`. -/
def part {α : Type} (v : Vector α (a * b)) (i : Fin a) : Vector α b :=
  Vector.ofFn fun j => v.get (join i j)

/-- The flat vector made of one part for every outer number. -/
def ofParts {α : Type} (parts : Vector (Vector α b) a) : Vector α (a * b) :=
  Vector.ofFn fun k => (parts.get (outer k)).get (inner k)

@[simp] theorem get_part {α : Type} (v : Vector α (a * b)) (i : Fin a) (j : Fin b) :
    (part v i).get j = v.get (join i j) := by
  simp [part]

@[simp] theorem get_ofParts {α : Type} (parts : Vector (Vector α b) a) (k : Fin (a * b)) :
    (ofParts parts).get k = (parts.get (outer k)).get (inner k) := by
  simp [ofParts]

/-- Parts that were laid one after another are read back. -/
@[simp] theorem part_ofParts {α : Type} (parts : Vector (Vector α b) a) (i : Fin a) :
    part (ofParts parts) i = parts.get i := by
  apply Vector.ext_get
  intro j
  simp

end Pairing

end Condensation
