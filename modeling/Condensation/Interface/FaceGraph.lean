/-
  Face graphs — which faces are coupled, and by which blocks.

  Two faces are coupled when they belong to a common element of this rank.  Every face has a fixed
  number of places for the faces coupled to it (itself among them), and a block for each place.

  1. **The program** — `Coupling.presolve` applies the inverse element matrices to the coupling
     blocks.  `Coupling.faceGraph` then walks, for every face, over the faces of its one or two
     elements: each of them takes the first place that is free or its own already, and the
     product of the two coupling blocks is added to the block there.

  2. A face that runs out of places is refused.  The places suffice for every adjacency that
     `Adjacency.ofFaces` accepts.
-/
import Condensation.Coupling
import Condensation.ElementStore

namespace Condensation

/-- The places of one face: the faces coupled to it and their blocks. -/
structure FaceLinks (S : Type) (nf n places : Nat) where
  neighbors : Vector (Option (Fin nf)) places
  blocks : Vector (Dense S n n) places

namespace FaceLinks

variable {S : Type} {nf n places : Nat}

/-- Free places only. -/
def free [Zero S] : FaceLinks S nf n places :=
  ⟨Vector.replicate places none, Vector.replicate places .zero⟩

/-- The first place that is free or taken by `g`. -/
def placeFor (links : FaceLinks S nf n places) (g : Fin nf) : Option (Fin places) :=
  (List.finRange places).find? fun p =>
    match links.neighbors.get p with
    | none => true
    | some h => h = g

/-- Add `aᵀ b` to the block of `g`, if there is a place for it. -/
def link [Zero S] [Add S] [Mul S] {m : Nat} (links : FaceLinks S nf n places) (g : Fin nf)
    (a b : Dense S m n) : Option (FaceLinks S nf n places) :=
  (links.placeFor g).map fun (p : Fin places) =>
    { neighbors := links.neighbors.put p (some g)
      blocks := links.blocks.put p (a.addTransposeProduct b (links.blocks.get p)) }

/-- The coupled faces with their blocks, up to the first free place. -/
def linked (links : FaceLinks S nf n places) : List (Fin nf × Dense S n n) :=
  ((links.neighbors.toList.takeWhile (·.isSome)).filterMap id).zip links.blocks.toList

/-- How many places are taken. -/
def count (links : FaceLinks S nf n places) : Nat :=
  links.neighbors.toList.countP (·.isSome)

end FaceLinks

/-- The places of all faces. -/
structure FaceGraph (S : Type) (nf n : Nat) where
  places : Nat
  faces : Vector (FaceLinks S nf n places) nf

namespace FaceGraph

variable {S : Type} {nf n : Nat}

/-- Number of ordered pairs of coupled faces. -/
def numLinks (graph : FaceGraph S nf n) : Nat :=
  (graph.faces.toList.map FaceLinks.count).foldr (· + ·) 0

end FaceGraph

namespace Coupling

variable {S : Type} {disc : Discretization S}

/-- Solve with a slot of the store for every column of a block. -/
def solveColumns [Zero S] [Sub S] [Mul S] [Div S] {m n : Nat} (slot : ElementSlot S m)
    (b : Dense S m n) : Outcome (Dense S m n) := do
  let columns ← Outcome.tabulate fun j => ElementStore.solveSlot slot (b.column j)
  return .ofColumns columns

/-- The coupling blocks with the inverse element matrices applied; zero for elements without a
    matrix. -/
def presolve [Zero S] [Sub S] [Mul S] [Div S] (c : Coupling disc) (s : Schedule)
    (store : ElementStore S disc.ne disc.m) : Outcome (Coupling disc) := do
  let blocks ← s.each c.blocks fun k b => solveColumns (store.slots.get (Pairing.outer k)) b
  return ⟨blocks⟩

/-- The interior faces of an element, each with its slot. -/
def facesOf (disc : Discretization S) (e : Fin disc.ne) :
    List (Slot disc.ne disc.fpe × Fin disc.nf) :=
  (List.finRange disc.fpe).filterMap fun fi =>
    ((disc.adjacency.elementFaces e).get fi).map fun g => (⟨e, fi⟩, g)

section Graph

variable [Zero S] [Add S] [Mul S]

/-- Link face slot `side` to all faces of its element. -/
def linkSide {places : Nat} (c presolved : Coupling disc)
    (links : FaceLinks S disc.nf disc.n places) (side : Slot disc.ne disc.fpe) :
    Option (FaceLinks S disc.nf disc.n places) :=
  (facesOf disc side.element).foldlM
    (fun links other => links.link other.2 (c.block side) (presolved.block other.1)) links

/-- The places of face `f`, unless they run out. -/
def linksOf {places : Nat} (c presolved : Coupling disc) (f : Fin disc.nf) :
    Option (FaceLinks S disc.nf disc.n places) :=
  (disc.adjacency.faces.get f).localSides.foldlM (linkSide c presolved) .free

/-- **The program**: collect, for every face, the coupled faces and their blocks. -/
def faceGraph (c : Coupling disc) (s : Schedule) (presolved : Coupling disc) :
    Outcome (FaceGraph S disc.nf disc.n) := do
  let places ← disc.mesh.placesPerFace
  let area ← Size.product [disc.n, disc.n]
  let scalars ← Size.product [disc.nf, places, area]
  Size.table scalars
  let _ ← Size.product [places, area]
  let unlinked : Vector (Option (FaceLinks S disc.nf disc.n places)) disc.nf :=
    Vector.replicate _ none
  let found ← s.each unlinked fun f _ => return linksOf c presolved f
  let faces ← Outcome.tabulate fun f : Fin disc.nf =>
    Outcome.orFault (.tooManyNeighbors f places) (found.get f)
  return ⟨places, faces⟩

end Graph

end Coupling

end Condensation
