/-
  Essential degrees of freedom — which broken copies carry prescribed values.

  1. **The program** — `FluxSpace.essentialCopies` takes the essential true degrees of freedom
     that this rank owns.  A local degree of freedom is free when any true one it depends on is
     free, wherever that one is owned; a broken degree of freedom is essential when the local one
     it copies is not free.

  2. Freedom, and not constraint, travels over the ranks: a local degree of freedom that depends
     on no true one at all is not free.
-/
import Condensation.Dofs.FluxSpace
import Condensation.Schedule

namespace Condensation

namespace FluxSpace

variable {S : Type} {ne : Nat}

/-- Which of `n` true degrees of freedom are free, given the list of the others. -/
def freeMarker (n : Nat) (essential : List Nat) : Outcome (Vector Bool n) :=
  essential.foldlM
    (fun free t =>
      if h : t < n then .ok (free.put ⟨t, h⟩ false)
      else .fault (.badNumbering (.essentialOutOfRange t n)))
    (Vector.replicate n true)

/-- The broken copies of the local degrees of freedom that are not free. -/
def copiesOfUnfree (space : FluxSpace S ne) (s : Schedule) (free : Vector Bool space.numLocal) :
    Outcome (Vector Bool (ne * space.dofsPerElement)) :=
  s.each (Vector.replicate _ false) fun k _ => return !free.get (space.gather.get k).index

/-- **The program**: mark the essential broken degrees of freedom.  Collective. -/
def essentialCopies [Zero S] [One S] [BEq S] (space : FluxSpace S ne) (s : Schedule) (place : Place)
    (essential : List Nat) : Program S (Vector Bool (ne * space.dofsPerElement)) :=
  match space.trueDofs with
  | some link => do
    let free ← freeMarker link.numOwned essential
    let marked ← link.dependents place free.toArray (Array.replicate space.numLocal false)
    let free ← Outcome.sized .localMarker space.numLocal marked
    space.copiesOfUnfree s free
  | none => do
    Size.table space.numLocal
    let free ← freeMarker space.numLocal essential
    space.copiesOfUnfree s free

end FluxSpace

end Condensation
