/-
  Reductions — the operators between the true, the broken and the interface space.

  1. **Data** — a `Reduction` is what a discretization is prepared with: the essential broken
     degrees of freedom, the first copies, the coupling blocks and the element matrices.

  2. **Operators** — `breakUp` is `Rᵀ`: it gives the first broken copy of each local degree of
     freedom its value and all other copies zero.  `putTogether` is `R`, but leaves essential
     values alone.  `jump` is `C` and `jumpTranspose` is `Cᵀ`: what the faces see of a broken
     vector, and what a face vector does to the elements.

  3. **The program** — with `A` the block matrix of the elements, `reduce` computes
     `C A⁻¹ Rᵀ b` and `recover` computes `R A⁻¹ (Rᵀ b - Cᵀ λ)`.  They are collective where the
     interface unknowns are shared between ranks.

  The operators named with `Vec` work on vectors of known length.  The others take arrays of any
  length, and with `into` the vector that gets the result.
-/
import Condensation.Dofs.FirstCopies
import Condensation.Interface.FaceGraph

namespace Condensation

/-! ## True and local values of a flux -/

namespace FluxSpace

variable {S : Type} {ne : Nat}

/-- The local values of some owned true values. -/
def localValues [Zero S] [One S] [Neg S] [Mul S] (space : FluxSpace S ne) (t : Array S) :
    Outcome (Vector S space.numLocal) :=
  match space.trueDofs with
  | some link => do
    let t ← Outcome.sized .trueFluxVector link.numOwned t
    return link.restrictTransposeVec t
  | none => Outcome.sized .trueFluxVector space.numLocal t

/-- The owned true values of some local values. -/
def trueValues [One S] [Neg S] [Mul S] (space : FluxSpace S ne) (v : Vector S space.numLocal) :
    Array S :=
  match space.trueDofs with
  | some link => (link.restrictVec v).toArray
  | none => v.toArray

end FluxSpace

/-! ## Operators -/

/-- What a discretization is prepared with before it is condensed. -/
structure Reduction {S : Type} (disc : Discretization S) where
  essential : Vector Bool disc.numBroken
  copies : FirstCopies disc.numBroken disc.flux.numLocal
  coupling : Coupling disc
  store : ElementStore S disc.ne disc.m

namespace Reduction

variable {S : Type} {disc : Discretization S}

section Broken

variable [Zero S] [One S] [Neg S] [Mul S]

/-- `Rᵀ v` for local values `v`. -/
def breakUpVec (red : Reduction disc) (s : Schedule) (v : Vector S disc.flux.numLocal) :
    Outcome (Vector S disc.numBroken) :=
  s.each (Vector.replicate _ 0) fun k _ =>
    return match red.copies.toLocal.get k with
      | some g => g.read v.get
      | none => 0

/-- `Rᵀ b` for owned true values `b`. -/
def breakUp (red : Reduction disc) (s : Schedule) (b into : Array S) : Outcome (Array S) := do
  let v ← disc.flux.localValues b
  Outcome.sameLength .brokenVector disc.numBroken into.size
  let broken ← red.breakUpVec s v
  return broken.toArray

/-- `R x` as local values; essential values, and those without a broken copy, stay as they come
    in. -/
def putTogetherVec (red : Reduction disc) (s : Schedule) (x : Vector S disc.numBroken)
    (incoming : Vector S disc.flux.numLocal) : Outcome (Vector S disc.flux.numLocal) :=
  s.each incoming fun l v =>
    return match red.copies.toBroken.get l with
      | some g => if red.essential.get g.index then v else g.read x.get
      | none => v

/-- `R x` as owned true values; `into` holds the incoming ones. -/
def putTogether (red : Reduction disc) (s : Schedule) (x into : Array S) : Outcome (Array S) := do
  let x ← Outcome.sized .brokenVector disc.numBroken x
  let incoming ← disc.flux.localValues into
  let v ← red.putTogetherVec s x incoming
  return disc.flux.trueValues v

end Broken

section Interface

variable [Zero S] [Add S] [Mul S]

/-- What face `f` sees of the broken vector `x`. -/
def faceJump (red : Reduction disc) (x : Vector S disc.numBroken) (f : Fin disc.nf) :
    Vector S disc.n :=
  (disc.adjacency.faces.get f).localSides.foldl
    (fun y side => (red.coupling.block side).addTransposeMul (Pairing.part x side.element) y)
    (Vector.replicate _ 0)

/-- `C x`, each interface unknown summed over its face degrees of freedom. -/
def jumpVec (red : Reduction disc) (s : Schedule) (x : Vector S disc.numBroken) :
    Outcome (Vector S disc.trace.numLocal) := do
  let onFaces ← s.each (Vector.replicate disc.nf (Vector.replicate disc.n 0)) fun f _ =>
    return red.faceJump x f
  s.each (Vector.replicate _ 0) fun r _ =>
    return ((disc.trace.ownerTable.of r).map fun k =>
      (onFaces.get (Pairing.outer k)).get (Pairing.inner k)).sum

/-- `C x`. -/
def jump (red : Reduction disc) (s : Schedule) (x into : Array S) : Outcome (Array S) := do
  let x ← Outcome.sized .brokenVector disc.numBroken x
  Outcome.sameLength .traceVector disc.trace.numLocal into.size
  let y ← red.jumpVec s x
  return y.toArray

/-- What the interface vector `v` does to element `e`. -/
def elementLoad (red : Reduction disc) (v : Vector S disc.trace.numLocal) (e : Fin disc.ne) :
    Vector S disc.m :=
  (Coupling.facesOf disc e).foldl
    (fun y side => (red.coupling.block side.1).addMul
      (Vector.ofFn fun j => v.get (disc.trace.faceDof side.2 j)) y)
    (Vector.replicate _ 0)

/-- `Cᵀ v`. -/
def jumpTransposeVec (red : Reduction disc) (s : Schedule) (v : Vector S disc.trace.numLocal) :
    Outcome (Vector S disc.numBroken) := do
  let parts ← s.each (Vector.replicate disc.ne (Vector.replicate disc.m 0)) fun e _ =>
    return red.elementLoad v e
  return Pairing.ofParts parts

/-- `Cᵀ v` for an interface vector of any length. -/
def jumpTranspose (red : Reduction disc) (s : Schedule) (v into : Array S) :
    Outcome (Array S) := do
  let v ← Outcome.sized .traceVector disc.trace.numLocal v
  Outcome.sameLength .brokenVector disc.numBroken into.size
  let y ← red.jumpTransposeVec s v
  return y.toArray

end Interface

/-! ## Reduction and recovery -/

variable [Zero S] [One S] [Add S] [Sub S] [Mul S] [Div S] [Neg S]

/-- `A⁻¹ x`. -/
def solveElements (red : Reduction disc) (s : Schedule) (x : Array S) : Outcome (Array S) :=
  red.store.solveAll s x

/-- **The program**: `C A⁻¹ Rᵀ b` on the owned interface unknowns. -/
def reduce (red : Reduction disc) (s : Schedule) (place : Place) (b into : Array S) :
    Program S (Array S) := do
  Outcome.sameLength .reducedRhs disc.trace.numTrue into.size
  let v ← disc.flux.localValues b
  let broken ← red.breakUpVec s v
  let solved ← red.store.solveVec s broken
  let y ← red.jumpVec s solved
  match disc.trace.trueDofs with
  | some link => link.prolongTranspose place y.toArray into
  | none => return y.toArray

/-- The interface solution on all local interface unknowns.  Collective where they are shared. -/
def localTrace (disc : Discretization S) (place : Place) (solution : Array S) :
    Program S (Vector S disc.trace.numLocal) :=
  match disc.trace.trueDofs with
  | some link => do
    let v ← link.prolong place solution (Array.replicate disc.trace.numLocal 0)
    Outcome.sized .traceVector disc.trace.numLocal v
  | none => Outcome.sized .traceVector disc.trace.numLocal solution

/-- `Rᵀ b - Cᵀ λ` with zeros in essential places. -/
def residual (red : Reduction disc) (s : Schedule) (load correction : Vector S disc.numBroken) :
    Outcome (Vector S disc.numBroken) :=
  s.each load fun k v => return if red.essential.get k then 0 else v - correction.get k

/-- **The program**: `R A⁻¹ (Rᵀ b - Cᵀ λ)` on the owned true values; the essential ones in `into`
    stay. -/
def recover (red : Reduction disc) (s : Schedule) (place : Place) (b solution into : Array S) :
    Program S (Array S) := do
  Outcome.sameLength .traceSolution disc.trace.numTrue solution.size
  let v ← disc.flux.localValues b
  let load ← red.breakUpVec s v
  -- what the interface solution contributes is taken off before the elements are solved
  let trace ← localTrace disc place solution
  let correction ← red.jumpTransposeVec s trace
  let rest ← red.residual s load correction
  let solved ← red.store.solveVec s rest
  red.putTogether s solved.toArray into

end Reduction

end Condensation
