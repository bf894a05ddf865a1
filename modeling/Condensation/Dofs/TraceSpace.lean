/-
  Trace spaces — the interface unknowns on the interior faces.

  Every face has the same number of degrees of freedom; the pair (face, local number) is a face
  degree of freedom.  The gather table says which interface degree of freedom each of them is, so
  several may be the same.  `ownerTable` is the way back.
-/
import Condensation.Pairing
import Condensation.Dofs.OwnerTable
import Condensation.Dofs.TrueDofs

namespace Condensation

/-- The interface space over `faces` faces. -/
structure TraceSpace (S : Type) (faces : Nat) where
  dofsPerFace : Nat
  numLocal : Nat
  gather : Vector (Fin numLocal) (faces * dofsPerFace)
  trueDofs : Option (TrueDofs S numLocal)
  dofsPerFace_pos : 0 < dofsPerFace

namespace TraceSpace

variable {S : Type} {nf : Nat}

/-- The space with a given gather table; the table says how many faces there are. -/
def ofGather (n numLocal : Nat) (gather : Array Nat)
    (link : Option ((l : Nat) × TrueDofs S l)) : Outcome ((nf : Nat) × TraceSpace S nf) :=
  if h : 0 < n ∧ gather.size % n = 0 then do
    let targets ← Outcome.tabulate fun k : Fin (gather.size / n * n) =>
      have inside : k.val < gather.size :=
        Nat.lt_of_lt_of_le k.isLt (Nat.div_mul_le_self gather.size n)
      let r := gather[k.val]
      Outcome.orFault (.badNumbering (.faceDof k r numLocal))
        (if hr : r < numLocal then some ⟨r, hr⟩ else none)
    let link ← TrueDofs.forSpace .traceProlongationRows numLocal link
    let rows ← Size.sum numLocal 1
    Size.table rows
    return ⟨gather.size / n, n, numLocal, targets, link, h.1⟩
  else
    .fault (.badNumbering (.unevenFaces gather.size n))

/-- The space with independent degrees of freedom on each face. -/
def discontinuous (faces n : Nat) : Outcome ((nf : Nat) × TraceSpace S nf) := do
  let size ← Size.product [faces, n]
  Size.table size
  ofGather n size (Array.range size) none

/-- Number of true interface degrees of freedom that this rank owns. -/
def numTrue (space : TraceSpace S nf) : Nat :=
  match space.trueDofs with
  | some link => link.numOwned
  | none => space.numLocal

/-- The interface degree of freedom that is number `i` on face `f`. -/
def faceDof (space : TraceSpace S nf) (f : Fin nf) (i : Fin space.dofsPerFace) :
    Fin space.numLocal :=
  space.gather.get (Pairing.join f i)

/-- The face degrees of freedom of every interface degree of freedom. -/
def ownerTable (space : TraceSpace S nf) : OwnerTable (nf * space.dofsPerFace) space.numLocal :=
  .ofTargets space.gather

end TraceSpace

end Condensation
