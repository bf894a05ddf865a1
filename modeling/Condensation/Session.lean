/-
  Sessions — condensing one discretization, step by step.

  A session is prepared once (`prepare`), takes element matrices, and is finalized: then it holds
  the interface matrix.  Right-hand sides are reduced and solutions recovered at any time after
  preparation.  `reset` goes back to the start, and `update` does so with another discretization.

  1. **State** — `Session` holds the discretization, the options, the essential list for the next
     preparation, what was prepared, and the interface matrix.  The interface matrix belongs to
     the present element matrices: whatever changes these drops it.

  2. **Operations** — an operation that needs other ranks is a `Step`: a program for the new
     session and the answer, together with the session that stays if the program does not come
     to its end.  That session differs from the old one in one place only: the list given to
     `prepare` is kept even when the preparation does not succeed.
-/
import Condensation.Dofs.Essential
import Condensation.Interface.Assembly
import Condensation.Interface.Congruence
import Condensation.Algebra.Sparse.Symmetry
import Condensation.Reduction

namespace Condensation

/-- How strict the condensation is. -/
structure Options (S : Type) where
  /-- Refuse to finalize while an element has no matrix. -/
  requireAllElements : Bool := true
  /-- The tolerance of the symmetry check; there is none without it. -/
  symmetryTolerance : Option S := none
  /-- Decouple essential degrees of freedom from the interface. -/
  eliminateEssentialCoupling : Bool := true

/-- The finished interface matrix. -/
inductive InterfaceMatrix (S : Type) where
  /-- On the unknowns of this rank. -/
  | onRank (size : Nat) (matrix : Csr S size size)
  /-- On the true unknowns of all ranks. -/
  | distributed (matrix : RowBlock S)

namespace InterfaceMatrix

variable {S : Type}

/-- Entries stored on this rank. -/
def stored : InterfaceMatrix S → Nat
  | onRank _ A => A.stored
  | distributed A => A.block.stored

end InterfaceMatrix

/-- What stands out in a finished assembly without being refused. -/
inductive Remark (S : Type) where
  /-- Rows without coupling became rows of the identity. -/
  | emptyRows (count first : Nat)
  /-- The interface matrix is not symmetric. -/
  | asymmetric (found : Asymmetry S)

/-- The summary of an assembly. -/
structure Summary (S : Type) where
  interfaceRows : Nat
  stored : Nat
  emptyRows : Nat
  faceConnections : Nat
  distributed : Bool
  remarks : List (Remark S)

/-- The state of a condensation. -/
structure Session (S : Type) where
  disc : Discretization S
  options : Options S
  essential : List Nat
  reduction : Option (Reduction disc)
  matrix : Option (InterfaceMatrix S)

/-- An operation under way: the session that stays if it is not completed, and the rest of it. -/
structure Step (S α : Type) where
  pending : Session S
  rest : Program S (Session S × α)

namespace Session

variable {S : Type}

/-- A new session. -/
def start (disc : Discretization S) (options : Options S) : Outcome (Session S) := do
  disc.mesh.validate
  return ⟨disc, options, [], none, none⟩

/-- What the session was prepared with. -/
def prepared (session : Session S) : Outcome (Reduction session.disc) :=
  Outcome.orFault .unprepared session.reduction

/-- The interface matrix. -/
def current (session : Session S) : Outcome (InterfaceMatrix S) :=
  Outcome.orFault .noMatrix session.matrix

/-- The session with another reduction, and without an interface matrix. -/
def holding (session : Session S) (reduction : Reduction session.disc) : Session S :=
  { session with reduction := some reduction, matrix := none }

/-! ## Preparation -/

section Preparation

variable [Zero S] [One S] [BEq S]

/-- What a discretization is prepared with, for a given essential list.  Collective. -/
def newReduction (disc : Discretization S) (options : Options S) (essential : List Nat)
    (s : Schedule) (place : Place) (faces : FaceBlocks S) : Program S (Reduction disc) := do
  disc.mesh.validate
  let marked ← disc.flux.essentialCopies s place essential
  let copies ← disc.flux.firstCopies
  let built ← Coupling.ofFaceBlocks disc s faces
  let coupling ←
    if options.eliminateEssentialCoupling then built.clearEssential s marked.toArray
    else (pure built : Outcome (Coupling disc))
  let store ← ElementStore.empty? disc.ne disc.m
  return ⟨marked, copies, coupling, store⟩

/-- Prepare the session with the essential list that it holds. -/
def prepareWithKept (session : Session S) (s : Schedule) (place : Place) (faces : FaceBlocks S) :
    Program S (Session S × Unit) := do
  let reduction ← newReduction session.disc session.options session.essential s place faces
  return (session.holding reduction, ())

/-- Prepare the session with an essential list. -/
def prepare (session : Session S) (s : Schedule) (place : Place) (faces : FaceBlocks S)
    (essential : List Nat) : Step S Unit :=
  if session.reduction.isSome then ⟨session, Outcome.fault .preparedAlready⟩
  else
    let session := { session with essential := essential }
    ⟨session, session.prepareWithKept s place faces⟩

/-- Prepare the session with the essential list given last. -/
def prepareAgain (session : Session S) (s : Schedule) (place : Place) (faces : FaceBlocks S) :
    Step S Unit :=
  if session.reduction.isSome then ⟨session, Outcome.fault .preparedAlready⟩
  else ⟨session, session.prepareWithKept s place faces⟩

end Preparation

/-! ## Assembly -/

section Elements

variable [Zero S] [One S] [Neg S] [LT S] [DecidableLT S] [Sub S] [Mul S] [Div S]

/-- Take the matrix of element `e`. -/
def assemble (session : Session S) (e : Nat) (matrix : Array S) : Outcome (Session S) := do
  let reduction ← session.prepared
  let store ← reduction.store.assemble e matrix reduction.essential.toArray
  return session.holding { reduction with store := store }

/-- Take the matrices of all elements, back to back. -/
def assembleAll (session : Session S) (s : Schedule) (batch : Array S) : Outcome (Session S) := do
  let reduction ← session.prepared
  let store ← reduction.store.assembleAll s batch reduction.essential.toArray
  return session.holding { reduction with store := store }

end Elements

/-! ## Finalization -/

/-- The remark on rows without coupling, if there are any. -/
def remarkOnRows {L : Nat} : List (Fin L) → List (Remark S)
  | [] => []
  | r :: rest => [.emptyRows (rest.length + 1) r]

/-- Refuse if every element has to have a matrix and one has none. -/
def checkComplete {disc : Discretization S} (options : Options S) (reduction : Reduction disc) :
    Outcome Unit :=
  match reduction.store.missing with
  | some e => Outcome.require (options.requireAllElements = false) (.elementWithoutMatrix e)
  | none => return ()

section Finalization

variable [Zero S] [One S] [Add S] [Sub S] [Mul S] [Neg S] [LT S] [DecidableLT S]

/-- The remark on symmetry, if it is checked and fails. -/
def remarkOnSymmetry {L : Nat} (options : Options S) (H : Csr S L L) :
    Outcome (List (Remark S)) :=
  match options.symmetryTolerance with
  | none => return []
  | some tol => do
    let found ← H.asymmetry? tol
    return (found.map Remark.asymmetric).toList

/-- The interface matrix of a discretization from that of this rank.  Collective where the
    interface unknowns are shared. -/
def finish (disc : Discretization S) (place : Place)
    (H : Csr S disc.trace.numLocal disc.trace.numLocal) : Program S (InterfaceMatrix S) :=
  match disc.trace.trueDofs with
  | some link => do
    let A ← link.congruence place H
    return .distributed A
  | none => return .onRank _ H

variable [Div S] [BEq S]

/-- Assemble the interface matrix. -/
def finalizeProgram (session : Session S) (s : Schedule) (place : Place) :
    Program S (Session S × Summary S) := do
  let reduction ← session.prepared
  checkComplete session.options reduction
  let rows ← reduction.coupling.assemble s reduction.store
  -- symmetry is looked at on the matrix of this rank, before it is spread over the ranks
  let asymmetry ← remarkOnSymmetry session.options rows.matrix
  let matrix ← finish session.disc place rows.matrix
  let summary : Summary S :=
    { interfaceRows := session.disc.trace.numLocal
      stored := matrix.stored
      emptyRows := rows.emptyRows.length
      faceConnections := rows.faceConnections
      distributed := session.disc.trace.trueDofs.isSome
      remarks := remarkOnRows rows.emptyRows ++ asymmetry }
  return ({ session with matrix := some matrix }, summary)

/-- Assemble the interface matrix and keep it. -/
def finalize (session : Session S) (s : Schedule) (place : Place) : Step S (Summary S) :=
  ⟨session, session.finalizeProgram s place⟩

end Finalization

/-- Hand the interface matrix over. -/
def handOver (session : Session S) : Outcome (Session S × InterfaceMatrix S) := do
  let matrix ← session.current
  return ({ session with matrix := none }, matrix)

/-! ## Solving -/

section Solving

variable [Zero S] [One S] [Add S] [Sub S] [Mul S] [Div S] [Neg S]

/-- Reduce a right-hand side; `into` is the vector that gets it. -/
def reduce (session : Session S) (s : Schedule) (place : Place) (b into : Array S) :
    Program S (Array S) := do
  let reduction ← session.prepared
  reduction.reduce s place b into

/-- Recover the flux from an interface solution; `into` is the vector that gets it. -/
def recover (session : Session S) (s : Schedule) (place : Place) (b solution into : Array S) :
    Program S (Array S) := do
  let reduction ← session.prepared
  reduction.recover s place b solution into

end Solving

/-! ## Starting over -/

/-- Drop what was prepared; the essential list stays. -/
def reset (session : Session S) : Session S :=
  { session with reduction := none, matrix := none }

/-- Switch to another discretization. -/
def update (session : Session S) (disc : Discretization S) : Outcome (Session S) := do
  disc.mesh.validate
  return ⟨disc, session.options, session.essential, none, none⟩

end Session

end Condensation
