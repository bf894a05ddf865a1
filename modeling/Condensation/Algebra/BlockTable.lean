/-
  Block tables — numbered matrices of one shape in one flat buffer.

  `BlockTable S m n count` holds `count` blocks of shape `m × n`.  Inside the library blocks are
  addressed by a number below `count`; `read`, `write` and `entryAt` take any number and abort
  outside the table.  A block without entries occupies no room, so it can be read at every
  number.
-/
import Condensation.Outcome
import Condensation.Algebra.Dense

namespace Condensation

/-- A table of `count` blocks of shape `m × n`. -/
structure BlockTable (S : Type) (m n count : Nat) where
  blocks : Vector (Dense S m n) count

namespace BlockTable

variable {S : Type} {m n count : Nat}

/-- The table of zero blocks. -/
def zeros [Zero S] (m n count : Nat) : BlockTable S m n count :=
  ⟨Vector.replicate count .zero⟩

/-- A table of zero blocks of a requested shape, if there is room for it. -/
def zeros? [Zero S] (m n count : Nat) : Outcome (BlockTable S m n count) := do
  let size ← Size.product [m, n, count]
  Size.table size
  return zeros m n count

/-- Scalars in a block. -/
def blockLength (_ : BlockTable S m n count) : Nat := m * n

/-- All scalars, block after block. -/
def toArray (t : BlockTable S m n count) : Array S :=
  t.blocks.toArray.flatMap fun b => b.data.toArray

/-- The scalars of block `k`. -/
def read (t : BlockTable S m n count) (k : Nat) : Outcome (Array S) :=
  if h : k < count then .ok (t.blocks.get ⟨k, h⟩).data.toArray
  else if m * n = 0 ∧ k + 1 < Size.limit then .ok #[]
  else .abort

/-- The table with scalar `p` of block `k` replaced. -/
def write (t : BlockTable S m n count) (k p : Nat) (v : S) : Outcome (BlockTable S m n count) :=
  if h : k < count ∧ p < n * m then
    let k : Fin count := ⟨k, h.1⟩
    .ok ⟨t.blocks.put k ⟨(t.blocks.get k).data.put ⟨p, h.2⟩ v⟩⟩
  else .abort

/-- The entry `(i, j)` of block `k`. -/
def entryAt (t : BlockTable S m n count) (k i j : Nat) : Outcome S :=
  if h : k < count ∧ i < m ∧ j < n then
    .ok ((t.blocks.get ⟨k, h.1⟩).entry ⟨i, h.2.1⟩ ⟨j, h.2.2⟩)
  else .abort

end BlockTable

end Condensation
