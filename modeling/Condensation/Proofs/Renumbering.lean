/-
  Renumbering — the same faces with other numbers and other first sides.

  1. **Input** — a `Renumbering` says which old face every new one is, and on which faces the two
     sides change places.  `OnFaces`, `OnGather` and `OnBlocks` say what becomes of the list of
     interior faces, of the gather table and of the blocks of the faces; sides of shared faces stay.

  2. **Data** — the renumbered adjacency shows in every slot the new number of the old face, and the
     renumbered trace space gathers from the same interface degrees of freedom.

  3. **Construction (`make_renumbered`)** — renumbered input is accepted just if the input is
     (`exists_ofFaces_iff`), and then makes the renumbered discretization.

  4. **Blocks (`ofFaceBlocks_renumbered`)** — a slot finds its face under the new number, and its side
     in the new order; what it gets is the same block.
-/
import Condensation.Proofs.AcceptedFaces
import Condensation.Proofs.GatherTables
import Condensation.Proofs.ScatteredBlocks
import Mathlib.Logic.Equiv.Defs

namespace Condensation

variable {S : Type} {ne fpe nf : Nat}

/-! ## Input -/

/-- Other numbers for `nf` faces, and other first sides. -/
structure Renumbering (nf : Nat) where
  /-- The old number of every new face. -/
  order : Equiv.Perm (Fin nf)
  /-- The new faces whose two sides change places. -/
  swapped : Fin nf → Bool

/-- The face seen from its other side. -/
def InteriorFace.swap (face : InteriorFace) : InteriorFace :=
  ⟨face.second, face.first, face.shared⟩

namespace Renumbering

variable (ren : Renumbering nf)

/-- The old side of every side of a new face. -/
def side (f : Fin nf) (side : Fin 2) : Fin 2 :=
  if ren.swapped f then side.rev else side

theorem side_side (f : Fin nf) (side : Fin 2) : ren.side f (ren.side f side) = side := by
  unfold Renumbering.side
  split
  · exact Fin.rev_rev side
  · rfl

/-- The way back. -/
def symm : Renumbering nf :=
  ⟨ren.order.symm, fun f => ren.swapped (ren.order.symm f)⟩

/-- The second list is the first one, renumbered. -/
structure OnFaces (faces faces' : Array InteriorFace) : Prop where
  size_eq : faces.size = nf
  size_eq' : faces'.size = nf
  face_eq : ∀ f : Fin nf, faces'[f.val]? = faces[(ren.order f).val]?.map fun face =>
    if ren.swapped f then face.swap else face
  unshared : ∀ f : Fin nf, ren.swapped f = true → ∀ face,
    faces[(ren.order f).val]? = some face → face.shared = false

/-- The second table is the first one, renumbered: face after face, `n` entries for each. -/
structure OnGather (n : Nat) (gather gather' : Array Nat) : Prop where
  size_eq : gather'.size = gather.size
  entry_eq : ∀ (f : Fin nf) (i : Fin n),
    gather'[f.val * n + i.val]? = gather[(ren.order f).val * n + i.val]?

/-- The second blocks are the first ones, renumbered: face after face, for each the blocks of its
    two sides, with `len` entries each. -/
structure OnBlocks (len : Nat) (blocks blocks' : FaceBlocks S) : Prop where
  dofMap_eq : blocks'.dofMap = blocks.dofMap
  size_eq : blocks'.data.size = blocks.data.size
  entry_eq : ∀ (f : Fin nf) (side : Fin 2) (p : Fin len),
    blocks'.data[(f.val * 2 + side.val) * len + p.val]? =
      blocks.data[((ren.order f).val * 2 + (ren.side f side).val) * len + p.val]?

variable {ren}

/-- The input is what the renumbered list is renumbered to on the way back. -/
theorem OnFaces.symm {faces faces' : Array InteriorFace} (h : ren.OnFaces faces faces') :
    ren.symm.OnFaces faces' faces := by
  have hold : ∀ f, ren.order (ren.symm.order f) = f := ren.order.apply_symm_apply
  have hface := fun f => h.face_eq (ren.symm.order f)
  simp only [hold] at hface
  refine ⟨h.size_eq', h.size_eq, fun f => ?_, fun f hswapped face' hface' => ?_⟩
  · have hf : f.val < faces.size := h.size_eq ▸ f.isLt
    rw [hface, Array.getElem?_eq_getElem hf, Option.map_some, Option.map_some]
    by_cases hswapped : ren.symm.swapped f = true
    · have hold : ren.swapped (ren.symm.order f) = true := hswapped
      rw [if_pos hswapped, if_pos hold]
      rfl
    · have hold : ¬ ren.swapped (ren.symm.order f) = true := hswapped
      rw [if_neg hswapped, if_neg hold]
  · obtain ⟨face, hold', rfl⟩ := Option.map_eq_some_iff.1 ((hface f).symm.trans hface')
    have hunshared := h.unshared (ren.symm.order f) hswapped face (by rw [hold]; exact hold')
    split
    · exact hunshared
    · exact hunshared

end Renumbering

/-! ## Data -/

namespace Face

/-- The face seen from its other side, if that is on this rank. -/
def swap (face : Face ne fpe) : Face ne fpe :=
  match face.second with
  | .inside slot => ⟨slot, .inside face.first⟩
  | .remote _ _ => face

theorem localSides_swap (face : Face ne fpe) : face.swap.localSides.Perm face.localSides := by
  obtain ⟨first, second⟩ := face
  cases second with
  | inside slot => exact List.Perm.swap _ _ _
  | remote e fi => exact List.Perm.refl _

theorem isSide_swap {face : Face ne fpe} {slot : Slot ne fpe} (h : face.second = .inside slot)
    (side : Fin 2) (s : Slot ne fpe) : face.swap.IsSide side s ↔ face.IsSide side.rev s := by
  obtain ⟨first, _⟩ := face
  obtain rfl := h
  have hrev : side.rev.val + side.val = 1 := by
    rw [Fin.val_rev]
    omega
  have h0 : side.rev.val = 0 ↔ side.val = 1 := by omega
  have h1 : side.rev.val = 1 ↔ side.val = 0 := by omega
  simp only [IsSide, swap, h0, h1, Neighbor.inside.injEq]
  exact or_comm

end Face

theorem InteriorFace.Reads.swap {face : InteriorFace} {f : Face ne fpe} (h : face.Reads f)
    (hshared : face.shared = false) : face.swap.Reads f.swap := by
  obtain ⟨first, second⟩ := f
  cases second with
  | inside slot =>
    refine ⟨(h.inside slot rfl).2, ?_, ?_⟩
    · rintro slot ⟨⟩
      exact ⟨hshared, h.first⟩
    · rintro e fi ⟨⟩
  | remote e fi => exact absurd (hshared.symm.trans (h.remote e fi rfl).1) Bool.false_ne_true

namespace Renumbering

variable (ren : Renumbering nf)

/-- The new face number `f`. -/
def face (faces : Vector (Face ne fpe) nf) (f : Fin nf) : Face ne fpe :=
  if ren.swapped f then (faces.get (ren.order f)).swap else faces.get (ren.order f)

/-- It has the local sides of the old one. -/
theorem localSides_face (faces : Vector (Face ne fpe) nf) (f : Fin nf) :
    (ren.face faces f).localSides.Perm (faces.get (ren.order f)).localSides := by
  unfold face
  split
  · exact Face.localSides_swap _
  · exact List.Perm.refl _

/-- Faces whose sides change places have both sides on this rank. -/
def Keeps (faces : Vector (Face ne fpe) nf) : Prop :=
  ∀ f, ren.swapped f = true → ∃ slot, (faces.get (ren.order f)).second = .inside slot

variable {ren}

/-- The sides are those of the old face, in the new order. -/
theorem Keeps.isSide_face {faces : Vector (Face ne fpe) nf} (h : ren.Keeps faces) (f : Fin nf)
    (side : Fin 2) (slot : Slot ne fpe) :
    (ren.face faces f).IsSide side slot ↔
      (faces.get (ren.order f)).IsSide (ren.side f side) slot := by
  unfold face Renumbering.side
  split
  · next hswapped =>
    obtain ⟨other, hother⟩ := h f hswapped
    exact Face.isSide_swap hother side slot
  · exact Iff.rfl

end Renumbering

/-- The adjacency with its faces renumbered. -/
abbrev Adjacency.renumber (adj : Adjacency ne fpe) (ren : Renumbering adj.numFaces) :
    Adjacency ne fpe where
  numFaces := adj.numFaces
  slots := .ofFn fun k => (adj.slots.get k).map ren.order.symm
  faces := .ofFn (ren.face adj.faces)
  slot_iff := fun s f => by
    rw [Vector.get_ofFn_eq, Vector.get_ofFn_eq, (ren.localSides_face _ f).mem_iff, ← adj.slot_iff,
      Option.map_eq_some_iff]
    simp only [Equiv.symm_apply_eq, exists_eq_right]
  sides_nodup := fun f => by
    rw [Vector.get_ofFn_eq, (ren.localSides_face _ f).nodup_iff]
    exact adj.sides_nodup _

/-- It shows the new number of the old face. -/
theorem Adjacency.elementFaces_renumber (adj : Adjacency ne fpe) (ren : Renumbering adj.numFaces)
    {e : Fin ne} {fi : Fin fpe} {g : Fin adj.numFaces} :
    ((adj.renumber ren).elementFaces e).get fi = some g ↔
      (adj.elementFaces e).get fi = some (ren.order g) := by
  simp only [elementFaces, Pairing.get_part, Vector.get_ofFn_eq, Option.map_eq_some_iff,
    Equiv.symm_apply_eq, exists_eq_right]

/-- The trace space with its faces renumbered. -/
abbrev TraceSpace.renumber (space : TraceSpace S nf) (ren : Renumbering nf) : TraceSpace S nf :=
  { space with gather := .ofFn fun k =>
      space.gather.get (Pairing.join (ren.order (Pairing.outer k)) (Pairing.inner k)) }

theorem TraceSpace.faceDof_renumber (space : TraceSpace S nf) (ren : Renumbering nf) (f : Fin nf)
    (i : Fin space.dofsPerFace) :
    (space.renumber ren).faceDof f i = space.faceDof (ren.order f) i := by
  rw [faceDof, Vector.get_ofFn_eq, Pairing.outer_join, Pairing.inner_join]
  rfl

theorem TraceSpace.numTrue_renumber (space : TraceSpace S nf) (ren : Renumbering nf) :
    (space.renumber ren).numTrue = space.numTrue := by
  obtain ⟨_, _, _, link⟩ := space
  cases link <;> rfl

/-- The discretization with its faces renumbered. -/
abbrev Discretization.renumber (disc : Discretization S) (ren : Renumbering disc.nf) :
    Discretization S :=
  ⟨disc.mesh, disc.adjacency.renumber ren, disc.flux, disc.trace.renumber ren⟩

/-! ## Construction -/

namespace Adjacency

/-- A renumbered list makes the renumbered adjacency. -/
theorem ofFaces_renumbered {faces faces' : Array InteriorFace} {adj : Adjacency ne fpe}
    (h : ofFaces ne fpe faces = .ok adj) {ren : Renumbering adj.numFaces}
    (hfaces : ren.OnFaces faces faces') : ofFaces ne fpe faces' = .ok (adj.renumber ren) := by
  obtain ⟨room, -, hreads⟩ := ofFaces_eq_ok_iff.1 h
  refine ofFaces_eq_ok_iff.2 ⟨room, hfaces.size_eq', fun f => ?_⟩
  obtain ⟨face, hface, hread⟩ := hreads (ren.order f)
  refine ⟨_, (hfaces.face_eq f).trans (congrArg _ hface), ?_⟩
  rw [Vector.get_ofFn_eq, Renumbering.face]
  split
  · next hswapped => exact hread.swap (hfaces.unshared f hswapped face hface)
  · exact hread

/-- **Acceptance** does not depend on the numbers of the faces, nor on the order of their sides. -/
theorem exists_ofFaces_iff {faces faces' : Array InteriorFace} {ren : Renumbering nf}
    (h : ren.OnFaces faces faces') :
    (∃ adj, ofFaces ne fpe faces = .ok adj) ↔ ∃ adj', ofFaces ne fpe faces' = .ok adj' := by
  have all : ∀ {faces faces' : Array InteriorFace} {ren : Renumbering nf},
      ren.OnFaces faces faces' → ∀ {adj : Adjacency ne fpe}, ofFaces ne fpe faces = .ok adj →
        ∃ adj' : Adjacency ne fpe, ofFaces ne fpe faces' = .ok adj' := by
    intro faces faces' ren h adj hadj
    obtain ⟨-, hsize, -⟩ := ofFaces_eq_ok_iff.1 hadj
    obtain rfl : nf = adj.numFaces := h.size_eq.symm.trans hsize
    exact ⟨_, ofFaces_renumbered hadj h⟩
  exact ⟨fun ⟨_, hadj⟩ => all h hadj, fun ⟨_, hadj⟩ => all h.symm hadj⟩

/-- Where a list was accepted, faces whose sides change places have both of them on this rank. -/
theorem keeps_of_ofFaces {faces faces' : Array InteriorFace} {adj : Adjacency ne fpe}
    (h : ofFaces ne fpe faces = .ok adj) {ren : Renumbering adj.numFaces}
    (hfaces : ren.OnFaces faces faces') : ren.Keeps adj.faces := by
  intro f hswapped
  obtain ⟨-, -, hreads⟩ := ofFaces_eq_ok_iff.1 h
  obtain ⟨face, hface, hread⟩ := hreads (ren.order f)
  cases hsecond : (adj.faces.get (ren.order f)).second with
  | inside slot => exact ⟨slot, rfl⟩
  | remote e fi =>
    have hshared := hfaces.unshared f hswapped face hface
    exact absurd (hshared.symm.trans (hread.remote e fi hsecond).1) Bool.false_ne_true

end Adjacency

namespace TraceSpace

variable {n numLocal : Nat} {gather gather' : Array Nat} {link : Option ((l : Nat) × TrueDofs S l)}

/-- A renumbered table makes the renumbered space. -/
theorem ofGather_renumbered {space : TraceSpace S nf}
    (h : ofGather n numLocal gather link = .ok ⟨nf, space⟩) {ren : Renumbering nf}
    (hgather : ren.OnGather n gather gather') :
    ofGather n numLocal gather' link = .ok ⟨nf, space.renumber ren⟩ := by
  obtain ⟨_, table, trueDofs, hn, hmade⟩ := of_ofGather h
  obtain ⟨rfl, hspace⟩ := Sigma.mk.inj hmade
  obtain rfl := eq_of_heq hspace
  obtain ⟨hsize, hentries, hrest⟩ := ofGather_eq_ok_iff.1 h
  refine ofGather_eq_ok_iff.2 ⟨hgather.size_eq.trans hsize, fun k => ?_, hrest⟩
  have hk : k.val = (Pairing.outer k).val * n + (Pairing.inner k).val :=
    congrArg Fin.val (Pairing.join_split k).symm
  rw [Vector.get_ofFn_eq, ← hentries, hk]
  exact hgather.entry_eq _ _

end TraceSpace

namespace Discretization

variable {mesh : Mesh}

/-- Parts made for the mesh belong together. -/
theorem ofParts_eq (adj : Adjacency mesh.numElements mesh.facesPerElement)
    (flux : FluxSpace S mesh.numElements) (trace : TraceSpace S adj.numFaces) :
    ofParts mesh adj flux trace = mesh.validate >>= fun _ => .ok ⟨mesh, adj, flux, trace⟩ := by
  unfold ofParts
  simp only [dif_pos]
  rfl

/-- Only such parts do. -/
theorem sizes_of_ofParts {adj : Adjacency mesh.numElements mesh.facesPerElement} {fe : Nat}
    {flux : FluxSpace S fe} {trace : TraceSpace S nf} {disc : Discretization S}
    (h : ofParts mesh adj flux trace = .ok disc) : fe = mesh.numElements ∧ nf = adj.numFaces := by
  obtain ⟨_, -, h⟩ := Outcome.bind_eq_ok_iff.1 h
  rw [dif_pos rfl, dif_pos rfl] at h
  split at h
  · next hfe =>
    refine ⟨hfe, ?_⟩
    dsimp only at h
    split at h
    · next hnf => exact hnf
    · cases h
  · cases h

end Discretization

/-- What a discretization is made from. -/
structure Parts (S : Type) where
  mesh : Mesh
  elements : Nat
  flux : FluxSpace S elements
  faces : Array InteriorFace
  dofsPerFace : Nat
  numLocal : Nat
  gather : Array Nat
  link : Option ((l : Nat) × TrueDofs S l)

namespace Parts

/-- Make it. -/
def make (parts : Parts S) : Outcome (Discretization S) := do
  let adjacency ← Adjacency.ofFaces parts.mesh.numElements parts.mesh.facesPerElement parts.faces
  let trace ← TraceSpace.ofGather parts.dofsPerFace parts.numLocal parts.gather parts.link
  Discretization.ofParts parts.mesh adjacency parts.flux trace.2

/-- The parts with another list of interior faces, and another gather table. -/
def replacing (parts : Parts S) (faces : Array InteriorFace) (gather : Array Nat) : Parts S :=
  { parts with faces := faces, gather := gather }

variable {parts : Parts S} {disc : Discretization S} {ren : Renumbering disc.nf}
  {faces : Array InteriorFace} {gather : Array Nat}

/-- **Construction**: renumbered parts make the renumbered discretization, and only faces with both
    sides on this rank are seen from the other one. -/
theorem make_renumbered (h : parts.make = .ok disc) (hfaces : ren.OnFaces parts.faces faces)
    (hgather : ren.OnGather parts.dofsPerFace parts.gather gather) :
    (parts.replacing faces gather).make = .ok (disc.renumber ren) ∧
      ren.Keeps disc.adjacency.faces := by
  obtain ⟨mesh, elements, flux, old, n, numLocal, table, link⟩ := parts
  obtain ⟨adj, hadj, h⟩ := Outcome.bind_eq_ok_iff.1 h
  obtain ⟨⟨nf, trace⟩, htrace, h⟩ := Outcome.bind_eq_ok_iff.1 h
  obtain ⟨rfl, rfl⟩ : elements = mesh.numElements ∧ nf = adj.numFaces :=
    Discretization.sizes_of_ofParts h
  rw [Discretization.ofParts_eq] at h
  obtain ⟨_, hvalid, h⟩ := Outcome.bind_eq_ok_iff.1 h
  obtain rfl := Outcome.ok.inj h
  refine ⟨?_, Adjacency.keeps_of_ofFaces hadj hfaces⟩
  show (Adjacency.ofFaces mesh.numElements mesh.facesPerElement faces >>= fun adjacency =>
    TraceSpace.ofGather n numLocal gather link >>= fun trace =>
      Discretization.ofParts mesh adjacency flux trace.2) = _
  rw [Adjacency.ofFaces_renumbered hadj hfaces, Outcome.ok_bind,
    TraceSpace.ofGather_renumbered htrace hgather, Outcome.ok_bind, Discretization.ofParts_eq,
    hvalid]
  rfl

end Parts

/-! ## Blocks -/

namespace Coupling

variable {disc : Discretization S} {ren : Renumbering disc.nf} {blocks blocks' : FaceBlocks S}

/-- A side of a new face has the block of the old side. -/
theorem sideBlock_renumbered (h : ren.OnBlocks (disc.n * disc.m) blocks blocks')
    {data data' : Vector S (disc.nf * 2 * (disc.n * disc.m))} (hdata : data.toArray = blocks.data)
    (hdata' : data'.toArray = blocks'.data) (f : Fin disc.nf) (side : Fin 2) :
    (sideBlock data' f side : Dense S disc.m disc.n) =
      sideBlock data (ren.order f) (ren.side f side) := by
  refine congrArg Dense.mk (Vector.ext_get fun p => Option.some.inj ?_)
  rw [Pairing.get_part, Pairing.get_part, ← Vector.getElem?_toArray_get,
    ← Vector.getElem?_toArray_get, hdata, hdata']
  exact h.entry_eq f side p

/-- A slot gets the block of its side under every number. -/
theorem slotBlock_renumbered [Zero S] (hkeeps : ren.Keeps disc.adjacency.faces)
    (h : ren.OnBlocks (disc.n * disc.m) blocks blocks') (rows : Vector (Fin disc.m) disc.m)
    {data data' : Vector S (disc.nf * 2 * (disc.n * disc.m))} (hdata : data.toArray = blocks.data)
    (hdata' : data'.toArray = blocks'.data) (slot : Slot disc.ne disc.fpe) :
    slotBlock (disc.renumber ren) rows data' slot.number =
      slotBlock disc rows data slot.number := by
  have hsides : ∀ f side, ((disc.renumber ren).adjacency.faces.get f).IsSide side slot ↔
      (disc.adjacency.faces.get (ren.order f)).IsSide (ren.side f side) slot := by
    intro f side
    rw [Vector.get_ofFn_eq]
    exact hkeeps.isSide_face f side slot
  by_cases hslot : ∃ f side, ((disc.renumber ren).adjacency.faces.get f).IsSide side slot
  · obtain ⟨f, side, hside⟩ := hslot
    rw [slotBlock_of_isSide hside, slotBlock_of_isSide ((hsides f side).1 hside),
      ← sideBlock_renumbered h hdata hdata']
  · have hnone : ∀ f side, ¬ ((disc.renumber ren).adjacency.faces.get f).IsSide side slot :=
      fun f side hside => hslot ⟨f, side, hside⟩
    rw [slotBlock_of_not_isSide hnone, slotBlock_of_not_isSide]
    intro f side hside
    refine hnone (ren.order.symm f) (ren.side (ren.order.symm f) side)
      ((hsides _ _).2 ?_)
    rw [Equiv.apply_symm_apply, Renumbering.side_side]
    exact hside

/-- **Blocks** of renumbered faces give every slot what it had. -/
theorem ofFaceBlocks_renumbered [Zero S] (hkeeps : ren.Keeps disc.adjacency.faces)
    (h : ren.OnBlocks (disc.n * disc.m) blocks blocks') (s s' : Schedule) :
    ofFaceBlocks (disc.renumber ren) s' blocks' = ofFaceBlocks disc s blocks := by
  by_cases hsize : blocks.data.size = disc.nf * 2 * (disc.n * disc.m)
  · have hsized : Outcome.sized .faceBlocks (disc.nf * 2 * (disc.n * disc.m)) blocks.data =
        .ok ⟨blocks.data, hsize⟩ := dif_pos hsize
    have hsized' : Outcome.sized .faceBlocks (disc.nf * 2 * (disc.n * disc.m)) blocks'.data =
        .ok ⟨blocks'.data, h.size_eq.trans hsize⟩ := dif_pos _
    have hslots : ∀ rows k, slotBlock (disc.renumber ren) rows
        ⟨blocks'.data, h.size_eq.trans hsize⟩ k = slotBlock disc rows ⟨blocks.data, hsize⟩ k := by
      intro rows k
      have hk := slotBlock_renumbered hkeeps h rows (Eq.refl (Vector.mk blocks.data hsize).toArray)
        (Eq.refl (Vector.mk blocks'.data (h.size_eq.trans hsize)).toArray)
        ⟨Pairing.outer k, Pairing.inner k⟩
      rwa [Slot.number, Pairing.join_split] at hk
    simp only [ofFaceBlocks, hsized, hsized', h.dofMap_eq, Outcome.ok_bind, Schedule.each_pure,
      hslots]
  · have hsized : Outcome.sized .faceBlocks (disc.nf * 2 * (disc.n * disc.m)) blocks.data =
        .fault (.wrongLength .faceBlocks _ _) := dif_neg hsize
    have hsized' : Outcome.sized .faceBlocks (disc.nf * 2 * (disc.n * disc.m)) blocks'.data =
        .fault (.wrongLength .faceBlocks _ _) := dif_neg fun h' => hsize (h.size_eq.symm.trans h')
    simp only [ofFaceBlocks, hsized, hsized', h.size_eq, Outcome.fault_bind]

end Coupling

end Condensation
