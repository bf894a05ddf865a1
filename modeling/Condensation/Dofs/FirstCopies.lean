/-
  First copies — one broken copy to stand for each local degree of freedom.

  Of all broken copies of a local degree of freedom, the one with the lowest number carries its
  value when a vector is broken up, and is read when a broken vector is put together again.
  `FirstCopies` holds both directions; they are inverse to each other, with equal orientations.
-/
import Condensation.Dofs.FluxSpace

namespace Condensation

/-- The chosen pairs of a broken and a local degree of freedom, looked up from either side. -/
structure FirstCopies (numBroken numLocal : Nat) where
  toLocal : Vector (Option (Signed (Fin numLocal))) numBroken
  toBroken : Vector (Option (Signed (Fin numBroken))) numLocal

namespace FirstCopies

variable {K L : Nat}

/-- No copy chosen yet. -/
def start : FirstCopies K L :=
  ⟨Vector.replicate K none, Vector.replicate L none⟩

/-- Take up broken degree of freedom `k`: it is chosen if it is the first copy of its target. -/
def takeUp (gather : Vector (Signed (Fin L)) K) (c : FirstCopies K L) (k : Fin K) :
    FirstCopies K L :=
  let g := gather.get k
  if (c.toBroken.get g.index).isNone then
    { toLocal := c.toLocal.put k (some g)
      toBroken := c.toBroken.put g.index (some ⟨k, g.orientation⟩) }
  else c

/-- The first copies in a gather table. -/
def among (gather : Vector (Signed (Fin L)) K) : FirstCopies K L :=
  (List.finRange K).foldl (takeUp gather) start

end FirstCopies

/-- The first copies in a flux space, if there is room for the table. -/
def FluxSpace.firstCopies {S : Type} {ne : Nat} (space : FluxSpace S ne) :
    Outcome (FirstCopies (ne * space.dofsPerElement) space.numLocal) := do
  Size.table space.numLocal
  return .among space.gather

end Condensation
