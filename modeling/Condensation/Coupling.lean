/-
  Coupling — what every face does to the elements beside it.

  For an element and one of its local faces, the coupling block takes the unknowns of that face to
  the broken degrees of freedom of the element.  A slot without an interior face has the zero
  block.

  1. **Input** — `FaceBlocks` holds two blocks for every face, one for each side, with rows in
     lexicographic order, and the map from that order to the native order of the element.  Only
     the index of a map entry counts, not its orientation.

  2. **The program** — `Coupling.ofFaceBlocks` checks both and gives every slot the block of its
     side, rows permuted; the block of a side on another rank goes nowhere.
     `Coupling.clearEssential` clears the rows of essential degrees of freedom.
-/
import Condensation.Discretization
import Condensation.Algebra.BlockTable
import Condensation.Schedule

namespace Condensation

/-- Blocks of all faces: two for every face, the first side first, column by column, in an order
    of the rows that `dofMap` describes. -/
structure FaceBlocks (S : Type) where
  data : Array S
  dofMap : Array GatherEntry

namespace FaceBlocks

variable {S : Type}

/-- Blocks whose rows are in native order already. -/
def inNativeOrder (data : Array S) (m : Nat) : Outcome (FaceBlocks S) := do
  Size.table m
  return ⟨data, (Array.range m).map fun i => some (.plus i)⟩

end FaceBlocks

/-! ## Row order -/

/-- Row `i` goes where an earlier row goes. -/
def Repeats {m : Nat} (rows : Vector (Fin m) m) (i : Fin m) : Prop :=
  ∃ i' : Fin m, i' < i ∧ rows.get i' = rows.get i

instance {m : Nat} (rows : Vector (Fin m) m) (i : Fin m) : Decidable (Repeats rows i) :=
  inferInstanceAs (Decidable (∃ _, _))

/-- The native row of every lexicographic one.  Refuses a map that is no permutation. -/
def nativeRows (m : Nat) (dofMap : Array GatherEntry) : Outcome (Vector (Fin m) m) := do
  let entries ← Outcome.sized .lexicographicMap m dofMap
  let rows ← Outcome.tabulate fun i : Fin m =>
    Outcome.orFault (.badNumbering (.lexicographicDof i (entries.get i) m))
      (((entries.get i).within m).map (·.index))
  match (List.finRange m).find? fun i => Repeats rows i with
  | some i => .fault (.badNumbering (.lexicographicTwice i (rows.get i)))
  | none => return rows

namespace Dense

variable {S : Type} {m n : Nat}

/-- The matrix whose row `rows.get i` is row `i` of `a`. -/
def scatterRows [Zero S] (rows : Vector (Fin m) m) (a : Dense S m n) : Dense S m n :=
  (List.finRange m).foldl (fun b i => b.setRow (rows.get i) (a.entry i)) .zero

/-- The matrix with the marked rows cleared. -/
def clearRows [Zero S] (marked : Vector Bool m) (a : Dense S m n) : Dense S m n :=
  .ofFn fun i j => if marked.get i then 0 else a.entry i j

end Dense

/-! ## Coupling blocks -/

/-- The coupling blocks of a discretization, one for every slot. -/
abbrev Coupling {S : Type} (disc : Discretization S) : Type :=
  BlockTable S disc.m disc.n (disc.ne * disc.fpe)

namespace Face

variable {ne fpe : Nat}

/-- Which side of the face a slot is. -/
def sideOf (face : Face ne fpe) (slot : Slot ne fpe) : Option (Fin 2) :=
  if face.first = slot then some 0
  else if face.second = .inside slot then some 1
  else none

end Face

namespace Coupling

variable {S : Type} {disc : Discretization S}

/-- Block of side `side` of face `f`. -/
def sideBlock {nf m n : Nat} (data : Vector S (nf * 2 * (n * m))) (f : Fin nf) (side : Fin 2) :
    Dense S m n :=
  ⟨Pairing.part data (Pairing.join f side)⟩

/-- The block that slot number `k` gets. -/
def slotBlock [Zero S] (disc : Discretization S) (rows : Vector (Fin disc.m) disc.m)
    (data : Vector S (disc.nf * 2 * (disc.n * disc.m))) (k : Fin (disc.ne * disc.fpe)) :
    Dense S disc.m disc.n :=
  match disc.adjacency.slots.get k with
  | none => .zero
  | some f =>
    match (disc.adjacency.faces.get f).sideOf ⟨Pairing.outer k, Pairing.inner k⟩ with
    | none => .zero
    | some side => (sideBlock data f side).scatterRows rows

/-- **The program**: give every slot the block of its side. -/
def ofFaceBlocks [Zero S] (disc : Discretization S) (s : Schedule) (faces : FaceBlocks S) :
    Outcome (Coupling disc) := do
  let _ ← Size.product [disc.m, disc.n, 2, disc.nf]
  let data ← Outcome.sized .faceBlocks (disc.nf * 2 * (disc.n * disc.m)) faces.data
  let rows ← nativeRows disc.m faces.dofMap
  let blank ← BlockTable.zeros? disc.m disc.n (disc.ne * disc.fpe)
  let _ ← Size.product [disc.m, disc.n, disc.fpe]
  let blocks ← s.each blank.blocks fun k _ => return slotBlock disc rows data k
  return ⟨blocks⟩

/-- Clear the rows of the marked broken degrees of freedom in every block. -/
def clearEssential [Zero S] (c : Coupling disc) (s : Schedule) (essential : Array Bool) :
    Outcome (Coupling disc) := do
  let marked ← Outcome.sized .essentialMarker disc.numBroken essential
  let blocks ← s.each c.blocks fun k b =>
    return b.clearRows (Pairing.part marked (Pairing.outer k))
  return ⟨blocks⟩

/-- The block of a slot. -/
def block (c : Coupling disc) (slot : Slot disc.ne disc.fpe) : Dense S disc.m disc.n :=
  c.blocks.get slot.number

end Coupling

end Condensation
