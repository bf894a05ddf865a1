/-
  Element stores — the factored matrices of all elements.

  1. **Data** — every element has a slot with the triangular factors of its matrix and a mark that
     says whether a matrix was ever given.  A slot that was not given one holds blank factors.

  2. **Assembly** — `assemble` takes the matrix of one element, replaces the rows and columns of
     its essential degrees of freedom by those of the identity (`patch`), and factors what comes
     out; `assembleAll` does the same for all elements.

  3. **Solving** — `solve` uses the factors of one slot, whatever they are; `solveAll` solves in
     every slot and gives zero in those without a matrix.
-/
import Condensation.Algebra.Factorization
import Condensation.Schedule

namespace Condensation

/-- The factors of one element, and whether they came from a matrix. -/
structure ElementSlot (S : Type) (m : Nat) where
  factors : Factors S m
  assembled : Bool

/-- The factors of `ne` elements with `m` degrees of freedom each. -/
structure ElementStore (S : Type) (ne m : Nat) where
  slots : Vector (ElementSlot S m) ne

/-- The matrix with the rows and columns of essential degrees of freedom replaced by those of the
    identity. -/
def Dense.patch {S : Type} {m : Nat} [Zero S] [One S] (a : Dense S m m)
    (essential : Vector Bool m) : Dense S m m :=
  .ofFn fun i j =>
    if essential.get i || essential.get j then (if i = j then 1 else 0) else a.entry i j

namespace ElementStore

variable {S : Type} {ne m : Nat}

/-- A store without any matrix, if there is room for it. -/
def empty? [Zero S] (ne m : Nat) : Outcome (ElementStore S ne m) := do
  let scalars ← Size.product [m, m, ne]
  Size.table scalars
  let rows ← Size.product [2, m, ne]
  Size.table rows
  Size.table ne
  return ⟨Vector.replicate ne ⟨.blank, false⟩⟩

/-- The element of a given number. -/
def element (_ : ElementStore S ne m) (e : Nat) : Outcome (Fin ne) :=
  if h : e < ne then .ok ⟨e, h⟩ else .fault (.noSuchElement e ne)

/-! ## Assembly -/

section Assembly

variable [Zero S] [One S] [Neg S] [LT S] [DecidableLT S] [Sub S] [Mul S] [Div S]

/-- The slot of an element with matrix `a`. -/
def slotOf (a : Dense S m m) (essential : Vector Bool m) : ElementSlot S m :=
  ⟨.ofMatrix (a.patch essential), true⟩

/-- Take the matrix of element `e`, given column by column; `essential` marks broken degrees of
    freedom. -/
def assemble (store : ElementStore S ne m) (e : Nat) (matrix : Array S) (essential : Array Bool) :
    Outcome (ElementStore S ne m) := do
  let e ← store.element e
  let matrix ← Outcome.sized .elementMatrix (m * m) matrix
  let marked ← Outcome.sized .essentialMarker (ne * m) essential
  return ⟨store.slots.put e (slotOf ⟨matrix⟩ (Pairing.part marked e))⟩

/-- Take the matrices of all elements, back to back. -/
def assembleAll (store : ElementStore S ne m) (s : Schedule) (batch : Array S)
    (essential : Array Bool) : Outcome (ElementStore S ne m) := do
  let batch ← Outcome.sized .elementBatch (ne * (m * m)) batch
  let marked ← Outcome.sized .essentialMarker (ne * m) essential
  let slots ← s.each store.slots fun e _ =>
    return slotOf ⟨Pairing.part batch e⟩ (Pairing.part marked e)
  return ⟨slots⟩

end Assembly

/-! ## Solving -/

section Solving

variable [Zero S] [Sub S] [Mul S] [Div S]

/-- Solve with the factors of element `e`. -/
def solve (store : ElementStore S ne m) (e : Nat) (x : Array S) : Outcome (Array S) := do
  let e ← store.element e
  let x ← Outcome.sized .elementVector m x
  let y ← (store.slots.get e).factors.solve x
  return y.toArray

/-- Solve with a slot; a slot without a matrix gives zero. -/
def solveSlot (slot : ElementSlot S m) (x : Vector S m) : Outcome (Vector S m) :=
  if slot.assembled then slot.factors.solve x else .ok (Vector.replicate m 0)

/-- Solve in every element. -/
def solveVec (store : ElementStore S ne m) (s : Schedule) (x : Vector S (ne * m)) :
    Outcome (Vector S (ne * m)) := do
  let parts ← s.each (Vector.ofFn (Pairing.part x)) fun e xe => solveSlot (store.slots.get e) xe
  return Pairing.ofParts parts

/-- Solve in every element, for a vector of any length. -/
def solveAll (store : ElementStore S ne m) (s : Schedule) (x : Array S) : Outcome (Array S) := do
  let x ← Outcome.sized .brokenVector (ne * m) x
  let y ← store.solveVec s x
  return y.toArray

end Solving

/-! ## Inspection -/

/-- The first element without a matrix. -/
def missing (store : ElementStore S ne m) : Option (Fin ne) :=
  (List.finRange ne).find? fun e => !(store.slots.get e).assembled

/-- The factors and the row exchanges of an element given by number.  Empty matrices occupy no
    room, so they can be read at every number. -/
def factorsAt (store : ElementStore S ne m) (e : Nat) : Outcome (Array S × Array Nat) :=
  if h : e < ne then
    let f := (store.slots.get ⟨e, h⟩).factors
    .ok (f.lu.data.toArray, f.perm.toArray.map Fin.val)
  else if m = 0 ∧ 2 * e + 1 < Size.limit then .ok (#[], #[])
  else .abort

end ElementStore

end Condensation
