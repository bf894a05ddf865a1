/-
  Assembly — the interface matrix of one rank.

  The interface matrix is `H = C A⁻¹ Cᵀ`, where `A` holds the element matrices and `Cᵀ` the
  coupling blocks.  It is never formed densely: a face graph holds its blocks, and each row is
  read off the graph.

  1. **One row** — `FaceGraph.rowEntries` lists what row `r` receives: for every face degree of
     freedom that is `r`, the entries of its row in the blocks of its face, zeros left out.

  2. **Two passes** — the rows are counted, the counts are added up to the row pointer, and every
     row is written to its own segment.  A row that receives nothing gets one entry, and that
     entry is set to one on the diagonal: the row becomes a row of the identity.

  3. **The program** — `Coupling.assemble` goes from coupling blocks and element matrices to the
     finished matrix.
-/
import Condensation.Interface.FaceGraph
import Condensation.Algebra.Sparse

namespace Condensation

namespace FaceGraph

variable {S : Type} {nf : Nat}

/-- What row `r` of the interface matrix receives, in the order in which it is written. -/
def rowEntries [Zero S] [BEq S] (space : TraceSpace S nf) (graph : FaceGraph S nf space.dofsPerFace)
    (r : Fin space.numLocal) : List (Fin space.numLocal × S) :=
  (space.ownerTable.of r).flatMap fun k =>
    (graph.faces.get (Pairing.outer k)).linked.flatMap fun link =>
      (List.finRange space.dofsPerFace).filterMap fun j =>
        let v := link.2.entry (Pairing.inner k) j
        if v == 0 then none else some (space.faceDof link.1 j, v)

/-- Write the entries of a row to its segment.  A row without entries leaves its segment of one
    as it is; any other mismatch aborts. -/
def writeRow {L : Nat} (entries : List (Fin L × S)) {p q : Nat} (columns : Vector Nat p)
    (values : Vector S q) : Outcome (Vector Nat p × Vector S q) :=
  if h : entries.length = p ∧ entries.length = q then
    .ok (⟨(entries.map (·.1.val)).toArray, by simp [h.1]⟩,
      ⟨(entries.map (·.2)).toArray, by simp [h.2]⟩)
  else if entries.length = 0 ∧ p = 1 then .ok (columns, values)
  else .abort

end FaceGraph

/-- The interface matrix of a rank, with its rows that received nothing. -/
structure InterfaceRows (S : Type) (L : Nat) where
  matrix : Csr S L L
  emptyRows : List (Fin L)

namespace FaceGraph

variable {S : Type} {nf : Nat}

/-- The row pointer for rows of the given lengths, where an empty row gets one place. -/
def rowStarts {L : Nat} (counts : Vector Nat L) : List Nat :=
  (List.range (L + 1)).map fun r => ((counts.toList.take r).map (max 1)).foldr (· + ·) 0

/-- Make row `r`, stored from its start on, a row of the identity. -/
def patchRow [One S] {L : Nat} (starts : List Nat) (stored : Array Nat × Array S) (r : Fin L) :
    Array Nat × Array S :=
  let p := starts.getD r 0
  (stored.1.setIfInBounds p r, stored.2.setIfInBounds p 1)

/-- **Two passes**: count the entries of every row, then write every row to its segment. -/
def toRows [Zero S] [One S] [BEq S] (space : TraceSpace S nf)
    (graph : FaceGraph S nf space.dofsPerFace) (s : Schedule) :
    Outcome (InterfaceRows S space.numLocal) := do
  -- the first pass finds the lengths of the rows, and with them where every row starts
  let counts ← s.each (Vector.replicate space.numLocal 0) fun r _ =>
    return (graph.rowEntries space r).length
  let starts := rowStarts counts
  let stored := (counts.toList.map (max 1)).foldr (· + ·) 0
  let empty := (List.finRange space.numLocal).filter fun r => counts.get r = 0
  -- the second pass writes each row to its own segment
  let filled ← s.segmentPairs (Vector.replicate stored 0) (Vector.replicate stored (0 : S)) starts
    fun r _ _ columns values =>
      if h : r < space.numLocal then writeRow (graph.rowEntries space ⟨r, h⟩) columns values
      else .abort
  let patched := empty.foldl (patchRow starts) (filled.1.toArray, filled.2.toArray)
  let matrix ← Csr.ofParts space.numLocal space.numLocal starts.toArray patched.1 patched.2
  return ⟨matrix, empty⟩

end FaceGraph

namespace Coupling

variable {S : Type} {disc : Discretization S}

/-- An assembled interface matrix with the number of coupled face pairs behind it. -/
structure Assembled (S : Type) (L : Nat) extends InterfaceRows S L where
  faceConnections : Nat

/-- **The program**: assemble the interface matrix of this rank. -/
def assemble [Zero S] [One S] [Add S] [Sub S] [Mul S] [Div S] [BEq S] (c : Coupling disc)
    (s : Schedule) (store : ElementStore S disc.ne disc.m) :
    Outcome (Assembled S disc.trace.numLocal) := do
  let presolved ← c.presolve s store
  let graph ← c.faceGraph s presolved
  let rows ← graph.toRows disc.trace s
  return ⟨rows, graph.numLinks⟩

end Coupling

end Condensation
