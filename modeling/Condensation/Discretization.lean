/-
  Discretizations — mesh, adjacency and spaces that belong together.

  `Discretization.ofParts` refuses an unsupported mesh and parts made for different meshes.  What
  it returns has one number of elements and one number of faces throughout, and says so in its
  type: every later index is in range by construction.
-/
import Condensation.Mesh
import Condensation.Mesh.Adjacency
import Condensation.Dofs.FluxSpace
import Condensation.Dofs.TraceSpace

namespace Condensation

/-- Everything the condensation knows about the discrete problem. -/
structure Discretization (S : Type) where
  mesh : Mesh
  adjacency : Adjacency mesh.numElements mesh.facesPerElement
  flux : FluxSpace S mesh.numElements
  trace : TraceSpace S adjacency.numFaces

namespace Discretization

variable {S : Type}

/-- Bundle parts that belong together. -/
def ofParts (mesh : Mesh) {ne fpe fe nf : Nat} (adjacency : Adjacency ne fpe)
    (flux : FluxSpace S fe) (trace : TraceSpace S nf) : Outcome (Discretization S) := do
  mesh.validate
  if he : ne = mesh.numElements then
    if hf : fpe = mesh.facesPerElement then
      if hx : fe = mesh.numElements then
        let adj : Adjacency mesh.numElements mesh.facesPerElement := he ▸ hf ▸ adjacency
        if ht : nf = adj.numFaces then
          return ⟨mesh, adj, hx ▸ flux, ht ▸ trace⟩
        else .fault (.wrongLength .traceFaces adj.numFaces nf)
      else .fault (.wrongLength .fluxElements mesh.numElements fe)
    else .fault (.wrongLength .topologyFacesPerElement mesh.facesPerElement fpe)
  else .fault (.wrongLength .topologyElements mesh.numElements ne)

variable (disc : Discretization S)

/-- Number of elements. -/
abbrev ne : Nat := disc.mesh.numElements

/-- Local faces of an element. -/
abbrev fpe : Nat := disc.mesh.facesPerElement

/-- Number of interior faces. -/
abbrev nf : Nat := disc.adjacency.numFaces

/-- Broken degrees of freedom of an element. -/
abbrev m : Nat := disc.flux.dofsPerElement

/-- Interface degrees of freedom of a face. -/
abbrev n : Nat := disc.trace.dofsPerFace

/-- Number of broken degrees of freedom. -/
abbrev numBroken : Nat := disc.ne * disc.m

end Discretization

end Condensation
