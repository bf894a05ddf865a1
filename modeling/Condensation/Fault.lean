/-
  Faults — everything the library can refuse, and how each refusal reads.

  1. **Causes** — `Fault` has one constructor per kind of refusal.  Where a kind has several
     causes, the cause is data of its own type (`MeshFault`, `FaceFault`, `NumberingFault`,
     `ExchangeFault`), and a length that does not fit names the `Quantity` that was measured.

  2. **Wording** — `Fault.message` is the only place where a text is made.
-/
import Condensation.Dofs.Signed

namespace Condensation

/-- What was measured when a length did not fit. -/
inductive Quantity where
  | rowPointer
  | rowValues
  | distributedColumns
  | ownedInput
  | ownedOutput
  | fluxGather
  | fluxProlongationRows
  | traceProlongationRows
  | topologyElements
  | topologyFacesPerElement
  | fluxElements
  | traceFaces
  | ownedTrueVector
  | localVector
  | ownedTrueMarker
  | localMarker
  | gatheredRanges
  | ownedValues
  | fetchedValues
  | contributions
  | receivedContributions
  | faceBlocks
  | lexicographicMap
  | essentialMarker
  | traceMatrixRows
  | elementMatrix
  | elementBatch
  | elementVector
  | brokenVector
  | trueFluxVector
  | traceVector
  | reducedRhs
  | traceSolution
  deriving DecidableEq, Repr

/-- The words for a measured quantity. -/
def Quantity.text : Quantity → String
  | rowPointer => "CSR row pointer"
  | rowValues => "CSR values"
  | distributedColumns => "distributed matrix columns"
  | ownedInput => "owned input vector"
  | ownedOutput => "owned output vector"
  | fluxGather => "flux element gather"
  | fluxProlongationRows => "flux prolongation rows"
  | traceProlongationRows => "interface prolongation rows"
  | topologyElements => "topology elements"
  | topologyFacesPerElement => "topology faces per element"
  | fluxElements => "flux space elements"
  | traceFaces => "interface space faces"
  | ownedTrueVector => "owned true vector"
  | localVector => "local vector"
  | ownedTrueMarker => "owned true marker"
  | localMarker => "local marker"
  | gatheredRanges => "gathered ownership ranges"
  | ownedValues => "owned values"
  | fetchedValues => "fetched values"
  | contributions => "contributions"
  | receivedContributions => "received contributions"
  | faceBlocks => "face matrices"
  | lexicographicMap => "lexicographic dof map"
  | essentialMarker => "essential marker"
  | traceMatrixRows => "interface matrix rows"
  | elementMatrix => "element matrix"
  | elementBatch => "element matrix batch"
  | elementVector => "element vector"
  | brokenVector => "broken vector"
  | trueFluxVector => "true flux vector"
  | traceVector => "interface vector"
  | reducedRhs => "reduced right-hand side"
  | traceSolution => "interface solution"

/-- Why a mesh cannot be condensed. -/
inductive MeshFault where
  | dimension (dim : Nat)
  | withoutFaces
  | nonConforming
  | notTensorBasis
  | variableOrder
  deriving DecidableEq, Repr

def MeshFault.text : MeshFault → String
  | dimension d => s!"dimension {d} (only 2 and 3 are supported)"
  | withoutFaces => "elements without faces"
  | nonConforming => "non-conforming mesh"
  | notTensorBasis => "basis is not a tensor-product basis"
  | variableOrder => "variable-order space"

/-- Why a list of interior faces is no adjacency. -/
inductive FaceFault where
  | sideOutOfRange (face element localFace elements facesPerElement : Nat)
  | slotTaken (element localFace former face : Nat)
  | remoteLocalFace (face localFace : Nat)
  deriving DecidableEq, Repr

def FaceFault.text : FaceFault → String
  | sideOutOfRange f e fi ne fpe =>
    s!"face {f} refers to element {e} local face {fi} ({ne} elements with {fpe} faces each)"
  | slotTaken e fi former f => s!"element {e} local face {fi} claimed by faces {former} and {f}"
  | remoteLocalFace f fi => s!"shared face {f} has remote local face {fi}"

/-- Why a table of indices, a sparsity pattern or an ownership table is refused. -/
inductive NumberingFault where
  | rowPointerSpan (first last stored : Nat)
  | rowPointerNotMonotone
  | columnOutOfRange (column columns : Nat)
  | tripletOutOfRange (row column rows columns : Nat)
  | rowsWithoutRoom (rows : Nat)
  | ownedRows (first last globalSize : Nat)
  | brokenDof (k : Nat) (entry : GatherEntry) (locals : Nat)
  | unevenFaces (entries dofsPerFace : Nat)
  | faceDof (k target dofs : Nat)
  | ownedTrueDofs (first last globalSize : Nat)
  | trueDof (t : Nat) (entry : GatherEntry) (locals : Nat)
  | localWithoutTrue (l : Nat)
  | trueWithoutCopy (t : Nat)
  | rangeGap (rank first last previous : Nat)
  | rangesCover (covered globalSize : Nat)
  | lexicographicDof (k : Nat) (entry : GatherEntry) (dofs : Nat)
  | lexicographicTwice (k native : Nat)
  | essentialOutOfRange (t dofs : Nat)
  deriving DecidableEq, Repr

/-- The words for a refused table.  A triplet is reported column first. -/
def NumberingFault.text : NumberingFault → String
  | rowPointerSpan a b n => s!"CSR row pointer spans [{a}, {b}) but {n} entries are stored"
  | rowPointerNotMonotone => "CSR row pointer is not monotone"
  | columnOutOfRange j n => s!"CSR column index {j} out of range for {n} columns"
  | tripletOutOfRange i j r c => s!"triplet ({j}, {i}) out of range for a {r}x{c} matrix"
  | rowsWithoutRoom _ => "CSR from triplets: OutOfMemory"
  | ownedRows a b n => s!"owned rows [{a}, {b}) exceed global size {n}"
  | brokenDof k g n =>
    "broken flux dof " ++ toString k ++ " gathers from " ++ g.describe ++ s!" ({n} local dofs)"
  | unevenFaces k n => s!"{k} face gather entries do not split into faces of {n} dofs"
  | faceDof k r n => s!"face dof {k} maps to interface dof {r} ({n} interface dofs)"
  | ownedTrueDofs a b n => s!"owned true dofs [{a}, {b}) exceed the {n} global true dofs"
  | trueDof t g n =>
    "true dof " ++ toString t ++ " restricts from " ++ g.describe ++ s!" ({n} local dofs)"
  | localWithoutTrue l => s!"local dof {l} has no true dof"
  | trueWithoutCopy t => s!"owned true dof {t} has no local copy"
  | rangeGap r a b p => s!"rank {r} owns [{a}, {b}) but the previous range ends at {p}"
  | rangesCover n g => s!"ownership ranges cover {n} of {g} global indices"
  | lexicographicDof k g n =>
    "lexicographic dof " ++ toString k ++ " maps to " ++ g.describe ++ s!" ({n} element dofs)"
  | lexicographicTwice k i => s!"lexicographic dof {k} maps to native dof {i} a second time"
  | essentialOutOfRange t n => s!"essential true dof {t} out of range ({n} true dofs)"

/-- What went wrong in an exchange between ranks. -/
inductive ExchangeFault where
  | foreignIndex (index first last : Nat)
  | foreignRow (row first last : Nat)
  | unpairedTriplets (indices values : Nat)
  deriving DecidableEq, Repr

def ExchangeFault.text : ExchangeFault → String
  | foreignIndex g a b => s!"received index {g} outside the owned range {a}..{b}"
  | foreignRow g a b => s!"received row {g} outside the owned rows {a}..{b}"
  | unpairedTriplets i v => s!"received {i} indices for {v} values"

/-- A refusal of the library. -/
inductive Fault where
  | badMesh (cause : MeshFault)
  | wrongLength (what : Quantity) (expected found : Nat)
  | badFaces (cause : FaceFault)
  | badNumbering (cause : NumberingFault)
  | noSuchElement (element count : Nat)
  | tooManyNeighbors (face capacity : Nat)
  | unprepared
  | preparedAlready
  | noMatrix
  | elementWithoutMatrix (element : Nat)
  | badExchange (cause : ExchangeFault)
  deriving DecidableEq, Repr

/-- The text of a refusal. -/
def Fault.message : Fault → String
  | badMesh c => "unsupported mesh configuration: " ++ c.text
  | wrongLength w e f =>
    "dimension mismatch for " ++ w.text ++ s!": expected {e}, found {f}"
  | badFaces c => "invalid face topology: " ++ c.text
  | badNumbering c => "invalid dof map: " ++ c.text
  | noSuchElement e n => s!"element {e} out of range ({n} elements)"
  | tooManyNeighbors f c => s!"face {f} couples to more than {c} neighboring faces"
  | unprepared => "hybridization used before init"
  | preparedAlready => "hybridization already initialized; call reset first"
  | noMatrix => "interface matrix requested before finalize"
  | elementWithoutMatrix e => s!"element {e} has no assembled local matrix"
  | badExchange c => "communication error: " ++ c.text

end Condensation
