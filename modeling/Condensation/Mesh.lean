/-
  Meshes — what the condensation needs to know of one.

  A mesh is described by its dimension, its counts and three properties.  `Mesh.validate` refuses
  what cannot be condensed: the first failing condition, in a fixed order, is the one reported.
-/
import Condensation.Outcome

namespace Condensation

/-- Properties of the mesh and of the element basis. -/
structure Features where
  conforming : Bool
  tensorBasis : Bool
  variableOrder : Bool
  deriving DecidableEq, Repr

/-- The properties in a bit set: bit 0 for a conforming mesh, bit 1 for a tensor-product basis,
    bit 2 for a polynomial order that varies.  Other bits mean nothing. -/
def Features.ofBits (bits : Nat) : Features :=
  ⟨bits.testBit 0, bits.testBit 1, bits.testBit 2⟩

/-- A mesh as seen by one rank. -/
structure Mesh where
  dim : Nat
  numElements : Nat
  facesPerElement : Nat
  features : Features
  deriving DecidableEq, Repr

namespace Mesh

/-- Refuse a mesh that cannot be condensed. -/
def validate (mesh : Mesh) : Outcome Unit := do
  Outcome.require (mesh.dim = 2 ∨ mesh.dim = 3) (.badMesh (.dimension mesh.dim))
  Outcome.require (mesh.facesPerElement ≠ 0) (.badMesh .withoutFaces)
  Outcome.require (mesh.features.conforming = true) (.badMesh .nonConforming)
  Outcome.require (mesh.features.tensorBasis = true) (.badMesh .notTensorBasis)
  Outcome.require (mesh.features.variableOrder = false) (.badMesh .variableOrder)

/-- How many faces can be coupled to one face through its (at most two) elements, the face itself
    included: all faces of both elements, the common one counted once. -/
def placesPerFace (mesh : Mesh) : Outcome Nat := do
  let both ← Size.product [2, mesh.facesPerElement]
  if both = 0 then .abort else .ok (both - 1)

end Mesh

end Condensation
