/-
  Flux spaces — the broken space and the space it was broken from.

  Every element has its own copy of each of its degrees of freedom.  The copies together form the
  broken space; broken degree of freedom `i` of element `e` has the number of that pair.  The
  gather table says which local degree of freedom each copy stands for, and with which
  orientation; the local ones may in turn be copies of true ones.
-/
import Condensation.Dofs.TrueDofs

namespace Condensation

/-- The broken flux space over `elements` elements. -/
structure FluxSpace (S : Type) (elements : Nat) where
  dofsPerElement : Nat
  numLocal : Nat
  gather : Vector (Signed (Fin numLocal)) (elements * dofsPerElement)
  trueDofs : Option (TrueDofs S numLocal)

namespace FluxSpace

variable {S : Type} {ne : Nat}

/-- The space with a given gather table. -/
def ofGather (ne m numLocal : Nat) (gather : Array GatherEntry)
    (link : Option ((l : Nat) × TrueDofs S l)) : Outcome (FluxSpace S ne) := do
  let _ ← Size.product [ne, m]
  let entries ← Outcome.sized .fluxGather (ne * m) gather
  let table ← Outcome.tabulate fun k : Fin (ne * m) =>
    Outcome.orFault (.badNumbering (.brokenDof k (entries.get k) numLocal))
      ((entries.get k).within numLocal)
  let link ← TrueDofs.forSpace .fluxProlongationRows numLocal link
  return ⟨m, numLocal, table, link⟩

/-- The fully discontinuous space: every broken degree of freedom is its own local one. -/
def discontinuous (ne m : Nat) : Outcome (FluxSpace S ne) := do
  let size ← Size.product [ne, m]
  Size.table size
  return ⟨m, ne * m, Vector.ofFn .plus, none⟩

/-- Number of broken degrees of freedom. -/
def numBroken (space : FluxSpace S ne) : Nat := ne * space.dofsPerElement

/-- Number of true degrees of freedom that this rank owns. -/
def numTrue (space : FluxSpace S ne) : Nat :=
  match space.trueDofs with
  | some link => link.numOwned
  | none => space.numLocal

end FluxSpace

end Condensation
