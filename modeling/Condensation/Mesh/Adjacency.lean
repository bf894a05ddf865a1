/-
  Adjacency — interior faces and the elements beside them.

  Only interior faces take part in the condensation.  A face has two sides; each side is a slot
  (an element and a local face of it).  The second side of a shared face belongs to another rank.

  1. **The program** — `Adjacency.ofFaces` numbers the faces in the order given.  Each local side
     claims its slot: a slot outside the mesh, a slot that is taken, or a remote side with an
     impossible local face is refused, side after side and face after face.

  2. **The invariant** — the two maps are inverse to each other.  A slot shows face `f` exactly
     when it is one of the local sides of `f` (`Adjacency.slot_iff`), and the two sides of a face
     are different slots (`Adjacency.sides_nodup`).  `Claims` is the same invariant for the first
     `k` faces; it is carried along while the slots fill up.
-/
import Condensation.Outcome
import Condensation.Pairing

namespace Condensation

/-- One side of a face, as numbered from outside. -/
structure FaceSide where
  element : Nat
  localFace : Nat
  deriving DecidableEq, Repr

/-- An interior face: two sides, the second one on another rank if the face is shared. -/
structure InteriorFace where
  first : FaceSide
  second : FaceSide
  shared : Bool
  deriving DecidableEq, Repr

/-- A local face of a local element. -/
structure Slot (elements facesPerElement : Nat) where
  element : Fin elements
  localFace : Fin facesPerElement
  deriving DecidableEq, Repr

/-- The other side of a face: a slot of this rank, or an element in a neighbor's numbering. -/
inductive Neighbor (elements facesPerElement : Nat) where
  | inside (slot : Slot elements facesPerElement)
  | remote (element : Nat) (localFace : Fin facesPerElement)
  deriving DecidableEq, Repr

/-- A face between a local slot and its neighbor. -/
structure Face (elements facesPerElement : Nat) where
  first : Slot elements facesPerElement
  second : Neighbor elements facesPerElement
  deriving DecidableEq, Repr

namespace Slot

variable {ne fpe : Nat}

/-- The number of the slot, element by element. -/
def number (s : Slot ne fpe) : Fin (ne * fpe) :=
  Pairing.join s.element s.localFace

theorem number_inj {s t : Slot ne fpe} : s.number = t.number ↔ s = t := by
  cases s; cases t
  simp [number, Pairing.join_inj]

end Slot

namespace Face

variable {ne fpe : Nat}

/-- The slots of the face on this rank, the first side first. -/
def localSides (f : Face ne fpe) : List (Slot ne fpe) :=
  match f.second with
  | .inside t => [f.first, t]
  | .remote _ _ => [f.first]

end Face

/-! ## Claiming slots -/

/-- The face in every slot, after face `f` took some of the slots. -/
def occupy {ne fpe nf : Nat} (slots : Vector (Option (Fin nf)) (ne * fpe)) (f : Fin nf)
    (sides : List (Slot ne fpe)) : Vector (Option (Fin nf)) (ne * fpe) :=
  sides.foldl (fun v s => v.put s.number (some f)) slots

theorem get_occupy {ne fpe nf : Nat} (slots : Vector (Option (Fin nf)) (ne * fpe)) (f : Fin nf)
    (sides : List (Slot ne fpe)) (s : Slot ne fpe) :
    (occupy slots f sides).get s.number = if s ∈ sides then some f else slots.get s.number := by
  induction sides generalizing slots with
  | nil => simp [occupy]
  | cons t rest ih =>
    have step := ih (slots.put t.number (some f))
    simp only [occupy, List.foldl_cons, List.mem_cons] at step ⊢
    rw [step]
    by_cases hr : s ∈ rest
    · simp [hr]
    · by_cases ht : s = t
      · subst ht; simp [hr]
      · rw [Vector.get_put_of_ne _ _ fun e => ht (Slot.number_inj.1 e.symm)]
        simp [hr, ht]

/-- The slots and faces after the first `k` of `nf` faces have been taken up. -/
structure Claims (ne fpe nf k : Nat) where
  slots : Vector (Option (Fin nf)) (ne * fpe)
  faces : Vector (Face ne fpe) k
  slot_iff : ∀ (s : Slot ne fpe) (f : Fin nf),
    slots.get s.number = some f ↔ ∃ h : f.val < k, s ∈ (faces.get ⟨f.val, h⟩).localSides
  sides_nodup : ∀ i : Fin k, (faces.get i).localSides.Nodup

namespace Claims

variable {ne fpe nf k : Nat}

/-- No face taken up yet. -/
def start : Claims ne fpe nf 0 where
  slots := Vector.replicate _ none
  faces := #v[]
  slot_iff := by simp [Vector.get]
  sides_nodup := fun i => i.elim0

/-- The slot of a local side of face `f`, if there is one. -/
def slotOf (ne fpe f : Nat) (side : FaceSide) : Outcome (Slot ne fpe) :=
  if h : side.element < ne ∧ side.localFace < fpe then
    .ok ⟨⟨side.element, h.1⟩, ⟨side.localFace, h.2⟩⟩
  else
    .fault (.badFaces (.sideOutOfRange f side.element side.localFace ne fpe))

/-- The claims with one more face, whose local sides are different free slots. -/
def takeUp (c : Claims ne fpe nf k) (hk : k < nf) (face : Face ne fpe)
    (free : ∀ s ∈ face.localSides, c.slots.get s.number = none) (nodup : face.localSides.Nodup) :
    Claims ne fpe nf (k + 1) where
  slots := occupy c.slots ⟨k, hk⟩ face.localSides
  faces := c.faces.push face
  slot_iff := by
    intro s f
    rw [get_occupy]
    have old := c.slot_iff s f
    rcases Nat.lt_or_ge f.val k with hf | hf
    -- an earlier face keeps its slots, since the new one took only free ones
    · by_cases hs : s ∈ face.localSides
      · rw [free s hs] at old
        simp only [hs, if_true, Option.some.injEq, Fin.ext_iff]
        constructor
        · intro h; omega
        · rintro ⟨h, hm⟩
          rw [Vector.get_push_of_lt _ _ hf] at hm
          exact absurd (old.2 ⟨hf, hm⟩) (by simp)
      · rw [if_neg hs, old]
        constructor
        · rintro ⟨h, hm⟩
          exact ⟨by omega, by rwa [Vector.get_push_of_lt _ _ hf]⟩
        · rintro ⟨h, hm⟩
          exact ⟨hf, by rwa [Vector.get_push_of_lt _ _ hf] at hm⟩
    -- face `k` itself has the slots just taken, and a later face has none
    · have before : c.slots.get s.number ≠ some f := fun h => by
        obtain ⟨h, _⟩ := old.1 h
        omega
      by_cases hs : s ∈ face.localSides
      · simp only [hs, if_true, Option.some.injEq, Fin.ext_iff]
        constructor
        · intro h
          exact ⟨by omega, by rwa [Vector.get_push_of_eq _ _ (by simp; omega)]⟩
        · rintro ⟨h, _⟩; omega
      · simp only [hs, if_false, before, false_iff]
        rintro ⟨h, hm⟩
        rw [Vector.get_push_of_eq _ _ (by simp; omega)] at hm
        exact hs hm
  sides_nodup := by
    intro i
    rcases Nat.lt_or_ge i.val k with hi | hi
    · rw [Vector.get_push_of_lt _ _ hi]
      exact c.sides_nodup _
    · rw [Vector.get_push_of_eq _ _ (by omega)]
      exact nodup

/-- Take up face number `k`. -/
def add (c : Claims ne fpe nf k) (hk : k < nf) (face : InteriorFace) :
    Outcome (Claims ne fpe nf (k + 1)) := do
  let a ← slotOf ne fpe k face.first
  match ha : c.slots.get a.number with
  | some former => .fault (.badFaces (.slotTaken a.element a.localFace former k))
  | none =>
    if face.shared then
      if h : face.second.localFace < fpe then
        let remote := .remote face.second.element ⟨face.second.localFace, h⟩
        return c.takeUp hk ⟨a, remote⟩ (by simp [Face.localSides, remote, ha])
          (by simp [Face.localSides, remote])
      else
        .fault (.badFaces (.remoteLocalFace k face.second.localFace))
    else
      let b ← slotOf ne fpe k face.second
      if hab : a = b then .fault (.badFaces (.slotTaken b.element b.localFace k k))
      else
        match hb : c.slots.get b.number with
        | some former => .fault (.badFaces (.slotTaken b.element b.localFace former k))
        | none =>
          return c.takeUp hk ⟨a, .inside b⟩ (by simp [Face.localSides, ha, hb])
            (by simp [Face.localSides, hab])

/-- The claims of the first `k` faces. -/
def ofFirst (ne fpe : Nat) (faces : Array InteriorFace) :
    (k : Nat) → k ≤ faces.size → Outcome (Claims ne fpe faces.size k)
  | 0, _ => return start
  | k + 1, h => do
    let c ← ofFirst ne fpe faces k (Nat.le_of_succ_le h)
    c.add h faces[k]

end Claims

/-! ## The finished maps -/

/-- The faces of a mesh with `ne` elements of `fpe` faces, and the face in every slot. -/
structure Adjacency (ne fpe : Nat) where
  numFaces : Nat
  slots : Vector (Option (Fin numFaces)) (ne * fpe)
  faces : Vector (Face ne fpe) numFaces
  slot_iff : ∀ (s : Slot ne fpe) (f : Fin numFaces),
    slots.get s.number = some f ↔ s ∈ (faces.get f).localSides
  sides_nodup : ∀ f : Fin numFaces, (faces.get f).localSides.Nodup

namespace Adjacency

variable {ne fpe : Nat}

/-- **The program**: number the interior faces and build both maps. -/
def ofFaces (ne fpe : Nat) (faces : Array InteriorFace) : Outcome (Adjacency ne fpe) := do
  let size ← Size.product [ne, fpe]
  Size.table size
  let c ← Claims.ofFirst ne fpe faces faces.size (Nat.le_refl _)
  return {
    numFaces := faces.size
    slots := c.slots
    faces := c.faces
    slot_iff := fun s f => by
      have := c.slot_iff s f
      simpa [f.isLt] using this
    sides_nodup := c.sides_nodup }

/-- The interior face in each local face of element `e`. -/
def elementFaces (adj : Adjacency ne fpe) (e : Fin ne) : Vector (Option (Fin adj.numFaces)) fpe :=
  Pairing.part adj.slots e

end Adjacency

end Condensation
