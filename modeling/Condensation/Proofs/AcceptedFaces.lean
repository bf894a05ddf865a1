/-
  Accepted faces — which lists of interior faces make an adjacency, and which one they make.

  1. **Reading** — `InteriorFace.Reads` says which face of the mesh an interior face is: its local
     sides are the slots that it names.

  2. **Taking up (`add_eq_ok_iff`)** — one more face is taken up just if it can be read and its local
     sides are different and still free.

  3. **The crux (`ofFirst_of_reads`)** — an adjacency has every slot on one side of one face only.  So
     where each of its faces is read off a list, no slot is taken when the face comes that has it,
     and the list is taken up from its front to its end.

  4. **The result (`ofFaces_eq_ok_iff`)** — a list makes the adjacency whose faces are read off it,
     if there is one and there is room for its slots; and it makes no other one.
-/
import Condensation.Mesh.Adjacency
import Condensation.Proofs.Sizes

namespace Condensation

variable {ne fpe : Nat}

/-! ## Reading -/

/-- The side is this slot. -/
def FaceSide.Names (side : FaceSide) (slot : Slot ne fpe) : Prop :=
  side.element = slot.element ∧ side.localFace = slot.localFace

/-- The interior face is this face of the mesh. -/
structure InteriorFace.Reads (face : InteriorFace) (f : Face ne fpe) : Prop where
  first : face.first.Names f.first
  inside : ∀ slot, f.second = .inside slot → face.shared = false ∧ face.second.Names slot
  remote : ∀ e fi, f.second = .remote e fi → face.shared = true ∧ face.second = ⟨e, fi⟩

namespace FaceSide

variable {side : FaceSide} {slot slot' : Slot ne fpe}

theorem Names.unique (h : side.Names slot) (h' : side.Names slot') : slot = slot' := by
  obtain ⟨e, i⟩ := slot
  obtain ⟨e', i'⟩ := slot'
  obtain rfl : e = e' := Fin.ext (h.1.symm.trans h'.1)
  obtain rfl : i = i' := Fin.ext (h.2.symm.trans h'.2)
  rfl

end FaceSide

namespace Claims

variable {nf k : Nat}

/-- The slot of a local side is the one that it names. -/
theorem slotOf_eq_ok_iff {side : FaceSide} {slot : Slot ne fpe} :
    slotOf ne fpe k side = .ok slot ↔ side.Names slot := by
  unfold slotOf FaceSide.Names
  split
  · next h =>
    obtain ⟨e, i⟩ := slot
    simp [Fin.ext_iff]
  · next h =>
    constructor
    · intro habort
      cases habort
    · rintro ⟨he, hi⟩
      exact absurd ⟨he ▸ slot.element.isLt, hi ▸ slot.localFace.isLt⟩ h

/-! ## Taking up -/

/-- **Taking up** one more face. -/
theorem add_eq_ok_iff {c : Claims ne fpe nf k} {hk : k < nf} {face : InteriorFace}
    {next : Claims ne fpe nf (k + 1)} :
    c.add hk face = .ok next ↔ ∃ (f : Face ne fpe)
      (free : ∀ s ∈ f.localSides, c.slots.get s.number = none) (nodup : f.localSides.Nodup),
        face.Reads f ∧ c.takeUp hk f free nodup = next := by
  constructor
  · intro h
    obtain ⟨a, ha, h⟩ := Outcome.bind_eq_ok_iff.1 h
    have hfirst := slotOf_eq_ok_iff.1 ha
    split at h
    · cases h
    split at h
    · next hshared =>
      split at h
      · next hfi =>
        refine ⟨_, _, _, ⟨hfirst, ?_, ?_⟩, Outcome.ok.inj h⟩
        · rintro slot ⟨⟩
        · rintro e fi ⟨⟩
          exact ⟨hshared, rfl⟩
      · cases h
    · next hshared =>
      obtain ⟨b, hb, h⟩ := Outcome.bind_eq_ok_iff.1 h
      split at h
      · cases h
      split at h
      · cases h
      refine ⟨_, _, _, ⟨hfirst, ?_, ?_⟩, Outcome.ok.inj h⟩
      · rintro slot ⟨⟩
        exact ⟨Bool.eq_false_iff.2 hshared, slotOf_eq_ok_iff.1 hb⟩
      · rintro e fi ⟨⟩
  · rintro ⟨⟨a, second⟩, free, nodup, ⟨hfirst, hinside, hremote⟩, rfl⟩
    unfold add
    rw [slotOf_eq_ok_iff.2 hfirst, Outcome.ok_bind]
    have ha : c.slots.get a.number = none := by
      refine free a ?_
      unfold Face.localSides
      split <;> simp
    split
    · next former hformer => rw [ha] at hformer; cases hformer
    cases second with
    | remote e fi =>
      obtain ⟨hshared, hsecond⟩ := hremote e fi rfl
      obtain ⟨first, second, shared⟩ := face
      subst hshared hsecond
      rw [if_pos rfl, dif_pos fi.isLt]
      rfl
    | inside b =>
      obtain ⟨hshared, hsecond⟩ := hinside b rfl
      obtain ⟨first, second, shared⟩ := face
      subst hshared
      have hab : a ≠ b := by
        rintro rfl
        simp [Face.localSides] at nodup
      have hb : c.slots.get b.number = none := free b (by simp [Face.localSides])
      rw [if_neg Bool.false_ne_true, slotOf_eq_ok_iff.2 hsecond, Outcome.ok_bind, dif_neg hab]
      split
      · next former hformer => rw [hb] at hformer; cases hformer
      · rfl

/-- The faces after one more was taken up. -/
theorem get_takeUp {c : Claims ne fpe nf k} {hk : k < nf} {f : Face ne fpe}
    {free : ∀ s ∈ f.localSides, c.slots.get s.number = none} {nodup : f.localSides.Nodup}
    (i : Fin (k + 1)) :
    (c.takeUp hk f free nodup).faces.get i = if h : i.val < k then c.faces.get ⟨i, h⟩ else f := by
  show (c.faces.push f).get i = _
  split
  · next h => exact Vector.get_push_of_lt _ _ h
  · next h => exact Vector.get_push_of_eq _ _ (by omega)

/-- The first faces of a list, as they were taken up. -/
theorem reads_ofFirst {faces : Array InteriorFace} (hk : k ≤ faces.size)
    {c : Claims ne fpe faces.size k} (h : ofFirst ne fpe faces k hk = .ok c) (i : Fin k) :
    faces[Fin.castLE hk i].Reads (c.faces.get i) := by
  induction k with
  | zero => exact i.elim0
  | succ k ih =>
    obtain ⟨former, hformer, hadd⟩ := Outcome.bind_eq_ok_iff.1 h
    obtain ⟨f, free, nodup, hreads, rfl⟩ := add_eq_ok_iff.1 hadd
    rw [get_takeUp]
    split
    · next hi => exact ih _ hformer ⟨i, hi⟩
    · next hi =>
      obtain rfl : i = Fin.last k := Fin.ext (by have := i.isLt; simp; omega)
      exact hreads

/-- **The crux**: where the faces of an adjacency are read off a list, its first faces are taken
    up. -/
theorem ofFirst_of_reads {faces : Array InteriorFace} {adj : Adjacency ne fpe}
    (hsize : faces.size = adj.numFaces)
    (hreads : ∀ f : Fin adj.numFaces, ∃ face, faces[f.val]? = some face ∧
      face.Reads (adj.faces.get f)) (k : Nat) (hk : k ≤ faces.size) :
    ∃ c, ofFirst ne fpe faces k hk = .ok c ∧
      ∀ i : Fin k, c.faces.get i = adj.faces.get ⟨i, by omega⟩ := by
  induction k with
  | zero => exact ⟨start, rfl, fun i => i.elim0⟩
  | succ k ih =>
    obtain ⟨c, hc, hfaces⟩ := ih (Nat.le_of_succ_le hk)
    let f : Fin adj.numFaces := ⟨k, by omega⟩
    have free : ∀ s ∈ (adj.faces.get f).localSides, c.slots.get s.number = none := by
      intro s hs
      refine Option.eq_none_iff_forall_ne_some.2 fun g hg => ?_
      obtain ⟨hlt, hmem⟩ := (c.slot_iff s g).1 hg
      rw [hfaces] at hmem
      -- the adjacency shows one face only in this slot
      have hsame := ((adj.slot_iff s _).2 hmem).symm.trans ((adj.slot_iff s f).2 hs)
      exact absurd (congrArg Fin.val (Option.some.inj hsame)) (Nat.ne_of_lt hlt)
    obtain ⟨face, hface, hread⟩ := hreads f
    obtain ⟨_, rfl⟩ := Array.getElem?_eq_some_iff.1 hface
    refine ⟨c.takeUp hk _ free (adj.sides_nodup f), ?_, fun i => ?_⟩
    · rw [ofFirst, hc, Outcome.ok_bind]
      exact add_eq_ok_iff.2 ⟨_, free, adj.sides_nodup f, hread, rfl⟩
    · rw [get_takeUp]
      split
      · next hi => exact hfaces ⟨i, hi⟩
      · next hi =>
        have hlast : i.val = k := by omega
        exact congrArg adj.faces.get (Fin.ext hlast.symm)

end Claims

/-! ## The result -/

namespace Adjacency

/-- Adjacencies with the same faces are equal. -/
theorem ext_faces {adj adj' : Adjacency ne fpe} (hsize : adj'.numFaces = adj.numFaces)
    (h : ∀ f : Fin adj'.numFaces, adj'.faces.get f = adj.faces.get (f.cast hsize)) :
    adj' = adj := by
  obtain ⟨nf, slots, faces, hslots, hnodup⟩ := adj
  obtain ⟨nf', slots', faces', hslots', hnodup'⟩ := adj'
  change nf' = nf at hsize
  subst hsize
  obtain rfl : faces' = faces := Vector.ext_get h
  obtain rfl : slots' = slots := by
    refine Vector.ext_get fun k => Option.ext fun f => ?_
    have hk : (⟨Pairing.outer k, Pairing.inner k⟩ : Slot ne fpe).number = k := Pairing.join_split k
    rw [← hk]
    exact (hslots' _ f).trans (hslots _ f).symm
  rfl

/-- There is room for the slots of a mesh. -/
structure RoomForSlots (ne fpe : Nat) : Prop where
  elements : ne < Size.limit
  slots : ne * fpe < Size.tableLimit

theorem roomForSlots_iff :
    RoomForSlots ne fpe ↔ ∃ size, Size.product [ne, fpe] = .ok size ∧ Size.table size = .ok () := by
  constructor
  · intro room
    have hrange := Size.lt_limit room.slots
    exact ⟨ne * fpe, Size.product_eq_ok_iff.2 (by simp [Size.InRange, room.elements, hrange]),
      Outcome.check_eq_ok_iff.2 room.slots⟩
  · rintro ⟨size, hsize, htable⟩
    obtain ⟨hrange, rfl⟩ := Size.product_eq_ok_iff.1 hsize
    simp only [Size.InRange, Nat.one_mul] at hrange
    exact ⟨hrange.1, by simpa using Outcome.check_eq_ok_iff.1 htable⟩

/-- **The result**: a list makes just the adjacency whose faces are read off it, if there is room for
    its slots. -/
theorem ofFaces_eq_ok_iff {faces : Array InteriorFace} {adj : Adjacency ne fpe} :
    ofFaces ne fpe faces = .ok adj ↔ RoomForSlots ne fpe ∧ faces.size = adj.numFaces ∧
      ∀ f : Fin adj.numFaces, ∃ face, faces[f.val]? = some face ∧ face.Reads (adj.faces.get f) := by
  constructor
  · intro h
    obtain ⟨size, hsize, h⟩ := Outcome.bind_eq_ok_iff.1 h
    obtain ⟨_, htable, h⟩ := Outcome.bind_eq_ok_iff.1 h
    obtain ⟨c, hc, h⟩ := Outcome.bind_eq_ok_iff.1 h
    obtain rfl := Outcome.ok.inj h
    exact ⟨roomForSlots_iff.2 ⟨size, hsize, htable⟩, rfl, fun f =>
      ⟨_, Array.getElem?_eq_getElem f.isLt, Claims.reads_ofFirst _ hc f⟩⟩
  · rintro ⟨room, hsize, hreads⟩
    obtain ⟨size, hproduct, htable⟩ := roomForSlots_iff.1 room
    obtain ⟨c, hc, hfaces⟩ := Claims.ofFirst_of_reads hsize hreads faces.size (Nat.le_refl _)
    rw [ofFaces, hproduct, Outcome.ok_bind, htable, Outcome.ok_bind, hc, Outcome.ok_bind]
    exact congrArg Outcome.ok (ext_faces hsize hfaces)

end Adjacency

end Condensation
