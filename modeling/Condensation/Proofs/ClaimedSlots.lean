/-
  Claimed slots — which lists of interior faces are taken up, and what is then found in every slot.

  1. **Consistency** — `Consistent` says of a list alone what it takes: local sides in the mesh,
     remote sides on a possible local face, and no slot named twice, be it by two faces or by the two
     sides of one.

  2. **Reading (`exists_reads_iff`, `localSides_of_reads`)** — a face with its sides in the mesh can
     be read, and its local sides are then the slots that it names.

  3. **The crux (`ofFirst_of_consistent`)** — while the list is taken up, a slot is occupied only if a
     face further in front names it.  So where no slot is named twice, the slots of the next face
     are free.

  4. **Refusals (`ofFaces_of_room`)** — where there is room for the slots, every other list is refused,
     with a cause that concerns its faces.

  5. **The result (`inverse_maps`)** — the slots show the faces whose local sides they are, and
     nothing else; what a remote side is called does not matter.
-/
import Condensation.Proofs.AcceptedFaces
import Condensation.Proofs.ScatteredBlocks

namespace Condensation

variable {ne fpe : Nat}

/-! ## Consistency -/

/-- The sides of the face on this rank, as they are numbered from outside. -/
def InteriorFace.localSides (face : InteriorFace) : List FaceSide :=
  if face.shared then [face.first] else [face.first, face.second]

/-- The faces fit together in a mesh with `ne` elements of `fpe` faces: their local sides are slots
    of the mesh, the remote side of a shared face has a possible local face, and no slot is named
    by two local sides. -/
structure Consistent (ne fpe : Nat) (faces : Array InteriorFace) : Prop where
  inside : ∀ face ∈ faces, ∀ side ∈ face.localSides, side.element < ne ∧ side.localFace < fpe
  remote : ∀ face ∈ faces, face.shared = true → face.second.localFace < fpe
  apart : (faces.toList.flatMap InteriorFace.localSides).Nodup

instance (ne fpe : Nat) (faces : Array InteriorFace) : Decidable (Consistent ne fpe faces) :=
  if h : (∀ face ∈ faces, ∀ side ∈ face.localSides, side.element < ne ∧ side.localFace < fpe) ∧
      (∀ face ∈ faces, face.shared = true → face.second.localFace < fpe) ∧
      (faces.toList.flatMap InteriorFace.localSides).Nodup then
    .isTrue ⟨h.1, h.2.1, h.2.2⟩
  else .isFalse fun c => h ⟨c.inside, c.remote, c.apart⟩

/-- The slot, as it is numbered from outside. -/
def Slot.side (slot : Slot ne fpe) : FaceSide := ⟨slot.element, slot.localFace⟩

theorem FaceSide.names_iff {side : FaceSide} {slot : Slot ne fpe} :
    side.Names slot ↔ side = slot.side := by
  obtain ⟨e, i⟩ := side
  simp [Names, Slot.side]

theorem Slot.side_injective : Function.Injective (side : Slot ne fpe → FaceSide) := by
  intro slot slot' h
  exact (FaceSide.names_iff.2 rfl).unique (FaceSide.names_iff.2 h)

/-- Where no slot is named twice, the faces that name a slot are the same one. -/
theorem Consistent.face_unique {faces : Array InteriorFace} (h : Consistent ne fpe faces)
    {i j : Nat} (hi : i < faces.size) (hj : j < faces.size) {side : FaceSide}
    (hside : side ∈ faces[i].localSides) (hside' : side ∈ faces[j].localSides) : i = j := by
  have hapart := List.pairwise_iff_getElem.1 (List.nodup_flatMap.1 h.apart).2
  rcases Nat.lt_trichotomy i j with hlt | heq | hlt
  · exact absurd hside' (hapart i j hi hj hlt hside)
  · exact heq
  · exact absurd hside (hapart j i hj hi hlt hside')

theorem Consistent.nodup_localSides {faces : Array InteriorFace} (h : Consistent ne fpe faces)
    {face : InteriorFace} (hface : face ∈ faces) : face.localSides.Nodup :=
  (List.nodup_flatMap.1 h.apart).1 face (Array.mem_def.1 hface)

/-! ## Reading -/

namespace InteriorFace

variable {face : InteriorFace} {f : Face ne fpe}

/-- **Reading**: the local sides of a face are the slots that it names. -/
theorem localSides_of_reads (h : face.Reads f) :
    face.localSides = f.localSides.map Slot.side := by
  obtain ⟨first, second, shared⟩ := face
  obtain ⟨slot, other⟩ := f
  obtain rfl : first = slot.side := FaceSide.names_iff.1 h.first
  cases other with
  | inside slot' =>
    obtain ⟨rfl, hsecond⟩ := h.inside slot' rfl
    obtain rfl : second = slot'.side := FaceSide.names_iff.1 hsecond
    rfl
  | remote e fi =>
    obtain ⟨rfl, -⟩ := h.remote e fi rfl
    rfl

/-- A face can be read just if its local sides are in the mesh and a remote side is possible. -/
theorem exists_reads_iff : (∃ f : Face ne fpe, face.Reads f) ↔
    (∀ side ∈ face.localSides, side.element < ne ∧ side.localFace < fpe) ∧
      (face.shared = true → face.second.localFace < fpe) := by
  constructor
  · rintro ⟨f, hreads⟩
    refine ⟨fun side hside => ?_, fun hshared => ?_⟩
    · rw [localSides_of_reads hreads] at hside
      obtain ⟨slot, -, rfl⟩ := List.mem_map.1 hside
      exact ⟨slot.element.isLt, slot.localFace.isLt⟩
    · cases hsecond : f.second with
      | inside slot =>
        rw [(hreads.inside slot hsecond).1] at hshared
        cases hshared
      | remote e fi =>
        rw [(hreads.remote e fi hsecond).2]
        exact fi.isLt
  · rintro ⟨hinside, hremote⟩
    obtain ⟨first, second, shared⟩ := face
    obtain ⟨he, hi⟩ := hinside first (by unfold localSides; split <;> simp)
    cases shared with
    | true => exact ⟨⟨⟨⟨_, he⟩, ⟨_, hi⟩⟩, .remote second.element ⟨_, hremote rfl⟩⟩, ⟨rfl, rfl⟩,
        nofun, by rintro e fi ⟨⟩; exact ⟨rfl, rfl⟩⟩
    | false =>
      obtain ⟨he', hi'⟩ := hinside second (by simp [localSides])
      exact ⟨⟨⟨⟨_, he⟩, ⟨_, hi⟩⟩, .inside ⟨⟨_, he'⟩, ⟨_, hi'⟩⟩⟩, ⟨rfl, rfl⟩,
        by rintro slot ⟨⟩; exact ⟨rfl, rfl, rfl⟩, nofun⟩

end InteriorFace

namespace Claims

/-! ## The crux -/

/-- **The crux**: the first faces of a consistent list are taken up. -/
theorem ofFirst_of_consistent {faces : Array InteriorFace} (h : Consistent ne fpe faces) (k : Nat)
    (hk : k ≤ faces.size) : ∃ c, ofFirst ne fpe faces k hk = .ok c := by
  induction k with
  | zero => exact ⟨start, rfl⟩
  | succ k ih =>
    obtain ⟨c, hc⟩ := ih (Nat.le_of_succ_le hk)
    have hmem : faces[k] ∈ faces := Array.getElem_mem hk
    obtain ⟨f, hreads⟩ := InteriorFace.exists_reads_iff.2 ⟨h.inside _ hmem, h.remote _ hmem⟩
    have hsides := InteriorFace.localSides_of_reads hreads
    have nodup : f.localSides.Nodup := by
      have := h.nodup_localSides hmem
      rw [hsides] at this
      exact this.of_map _
    have free : ∀ s ∈ f.localSides, c.slots.get s.number = none := by
      intro s hs
      refine Option.eq_none_iff_forall_ne_some.2 fun g hg => ?_
      obtain ⟨hlt, hmem'⟩ := (c.slot_iff s g).1 hg
      -- the slot is a local side of an earlier face, which the list names there too
      have hearlier := InteriorFace.localSides_of_reads (reads_ofFirst _ hc ⟨g, hlt⟩)
      have hsame : g.val = k := h.face_unique g.isLt hk
        (hearlier ▸ List.mem_map_of_mem hmem') (hsides ▸ List.mem_map_of_mem hs)
      exact absurd hsame (Nat.ne_of_lt hlt)
    exact ⟨c.takeUp hk f free nodup, by
      rw [ofFirst, hc, Outcome.ok_bind]
      exact add_eq_ok_iff.2 ⟨f, free, nodup, hreads, rfl⟩⟩

/-! ## Refusals -/

variable {nf k : Nat}

/-- A side is a slot of the mesh, or it is refused. -/
theorem slotOf_cases (ne fpe k : Nat) (side : FaceSide) :
    (∃ slot, slotOf ne fpe k side = .ok slot) ∨
      ∃ why, slotOf ne fpe k side = .fault (.badFaces why) := by
  unfold slotOf
  split
  · exact .inl ⟨_, rfl⟩
  · exact .inr ⟨_, rfl⟩

/-- One more face is taken up, or it is refused. -/
theorem add_cases (c : Claims ne fpe nf k) (hk : k < nf) (face : InteriorFace) :
    (∃ next, c.add hk face = .ok next) ∨ ∃ why, c.add hk face = .fault (.badFaces why) := by
  unfold add
  rcases slotOf_cases ne fpe k face.first with ⟨a, ha⟩ | ⟨why, hwhy⟩
  · rw [ha, Outcome.ok_bind]
    split
    · exact .inr ⟨_, rfl⟩
    split
    · split
      · exact .inl ⟨_, rfl⟩
      · exact .inr ⟨_, rfl⟩
    · rcases slotOf_cases ne fpe k face.second with ⟨b, hb⟩ | ⟨why, hwhy⟩
      · rw [hb, Outcome.ok_bind]
        split
        · exact .inr ⟨_, rfl⟩
        split
        · exact .inr ⟨_, rfl⟩
        · exact .inl ⟨_, rfl⟩
      · rw [hwhy]
        exact .inr ⟨why, rfl⟩
  · rw [hwhy]
    exact .inr ⟨why, rfl⟩

theorem ofFirst_cases (ne fpe : Nat) (faces : Array InteriorFace) (hk : k ≤ faces.size) :
    (∃ c, ofFirst ne fpe faces k hk = .ok c) ∨
      ∃ why, ofFirst ne fpe faces k hk = .fault (.badFaces why) := by
  induction k with
  | zero => exact .inl ⟨start, rfl⟩
  | succ k ih =>
    rw [ofFirst]
    rcases ih (Nat.le_of_succ_le hk) with ⟨c, hc⟩ | ⟨why, hwhy⟩
    · rw [hc]
      exact c.add_cases hk faces[k]
    · rw [hwhy]
      exact .inr ⟨why, rfl⟩

end Claims

namespace Adjacency

/-- Where there is room for the slots, all depends on the faces. -/
theorem ofFaces_of_room (room : RoomForSlots ne fpe) (faces : Array InteriorFace) :
    (∃ adj, ofFaces ne fpe faces = .ok adj) ∨
      ∃ why, ofFaces ne fpe faces = .fault (.badFaces why) := by
  obtain ⟨size, hproduct, htable⟩ := roomForSlots_iff.1 room
  rw [ofFaces, hproduct, Outcome.ok_bind, htable, Outcome.ok_bind]
  rcases Claims.ofFirst_cases ne fpe faces (Nat.le_refl _) with
    ⟨c, hc⟩ | ⟨why, hwhy⟩
  · rw [hc]
    exact .inl ⟨_, rfl⟩
  · rw [hwhy]
    exact .inr ⟨why, rfl⟩

/-! ## Slots -/

section Slots

variable {faces : Array InteriorFace} {adj : Adjacency ne fpe}

/-- A slot shows the face that names it with a local side. -/
theorem elementFaces_eq_some_iff_names (h : ofFaces ne fpe faces = .ok adj) {e : Fin ne}
    {fi : Fin fpe} {f : Fin adj.numFaces} :
    (adj.elementFaces e).get fi = some f ↔
      ∃ face, faces[f.val]? = some face ∧ ⟨e, fi⟩ ∈ face.localSides := by
  obtain ⟨-, -, hreads⟩ := ofFaces_eq_ok_iff.1 h
  obtain ⟨face, hface, hread⟩ := hreads f
  have hmem : (⟨e, fi⟩ : FaceSide) ∈ face.localSides ↔
      (⟨e, fi⟩ : Slot ne fpe) ∈ (adj.faces.get f).localSides := by
    rw [InteriorFace.localSides_of_reads hread]
    exact List.mem_map_of_injective (a := ⟨e, fi⟩) Slot.side_injective
  rw [hface, elementFaces, Pairing.get_part]
  refine (adj.slot_iff ⟨e, fi⟩ f).trans (hmem.symm.trans ?_)
  simp

/-- The list that made an adjacency is consistent. -/
theorem consistent_of_ofFaces (h : ofFaces ne fpe faces = .ok adj) : Consistent ne fpe faces := by
  obtain ⟨-, hsize, hreads⟩ := ofFaces_eq_ok_iff.1 h
  have hread : ∀ i (hi : i < faces.size), faces[i].Reads (adj.faces.get ⟨i, hsize ▸ hi⟩) := by
    intro i hi
    obtain ⟨face, hface, hread⟩ := hreads ⟨i, hsize ▸ hi⟩
    obtain ⟨_, rfl⟩ := Array.getElem?_eq_some_iff.1 hface
    exact hread
  have hall : ∀ face ∈ faces, ∃ f : Face ne fpe, face.Reads f ∧ f.localSides.Nodup := by
    intro face hface
    obtain ⟨i, hi, rfl⟩ := Array.mem_iff_getElem.1 hface
    exact ⟨_, hread i hi, adj.sides_nodup _⟩
  constructor
  case inside =>
    intro face hface
    obtain ⟨f, hf, -⟩ := hall face hface
    exact (InteriorFace.exists_reads_iff.1 ⟨f, hf⟩).1
  case remote =>
    intro face hface
    obtain ⟨f, hf, -⟩ := hall face hface
    exact (InteriorFace.exists_reads_iff.1 ⟨f, hf⟩).2
  case apart =>
    refine List.nodup_flatMap.2 ⟨fun face hface => ?_, List.pairwise_iff_getElem.2 ?_⟩
    · obtain ⟨f, hf, hnodup⟩ := hall face (Array.mem_def.2 hface)
      rw [InteriorFace.localSides_of_reads hf]
      exact hnodup.map Slot.side_injective
    · intro i j hi hj hlt side hside hside'
      have hi' : i < adj.numFaces := hsize ▸ hi
      have hj' : j < adj.numFaces := hsize ▸ hj
      obtain ⟨hin, -⟩ := InteriorFace.exists_reads_iff.1 ⟨_, hread i hi⟩
      obtain ⟨he, hfi⟩ := hin side hside
      -- the slot that both name shows both
      have hshows : ∀ q (hq : q < faces.size), side ∈ faces[q].localSides →
          (adj.elementFaces ⟨_, he⟩).get ⟨_, hfi⟩ = some ⟨q, hsize ▸ hq⟩ := fun q hq hmem =>
        (elementFaces_eq_some_iff_names h).2 ⟨_, Array.getElem?_eq_getElem hq, hmem⟩
      have hsame := (hshows i hi hside).symm.trans (hshows j hj hside')
      exact absurd (congrArg Fin.val (Option.some.inj hsame)) (Nat.ne_of_lt hlt)

end Slots

theorem exists_ofFaces_iff_consistent (faces : Array InteriorFace) :
    (∃ adj, ofFaces ne fpe faces = .ok adj) ↔ RoomForSlots ne fpe ∧ Consistent ne fpe faces := by
  constructor
  · rintro ⟨adj, h⟩
    exact ⟨(ofFaces_eq_ok_iff.1 h).1, consistent_of_ofFaces h⟩
  · rintro ⟨room, hconsistent⟩
    obtain ⟨size, hproduct, htable⟩ := roomForSlots_iff.1 room
    obtain ⟨c, hc⟩ := Claims.ofFirst_of_consistent hconsistent faces.size (Nat.le_refl _)
    rw [ofFaces, hproduct, Outcome.ok_bind, htable, Outcome.ok_bind, hc]
    exact ⟨_, rfl⟩

/-! ## The result -/

theorem elementFaces_eq_some_iff_isSide (adj : Adjacency ne fpe) {e : Fin ne} {fi : Fin fpe}
    {f : Fin adj.numFaces} : (adj.elementFaces e).get fi = some f ↔
      ∃ side, (adj.faces.get f).IsSide side ⟨e, fi⟩ := by
  rw [← Face.mem_localSides_iff, ← adj.slot_iff, elementFaces, Pairing.get_part]
  rfl

/-- An occupied slot is one side of one face. -/
theorem existsUnique_side (adj : Adjacency ne fpe) {e : Fin ne} {fi : Fin fpe}
    (h : (adj.elementFaces e).get fi ≠ none) :
    ∃! p : Fin adj.numFaces × Fin 2, (adj.faces.get p.1).IsSide p.2 ⟨e, fi⟩ := by
  obtain ⟨f, hf⟩ := Option.ne_none_iff_exists'.1 h
  obtain ⟨side, hside⟩ := adj.elementFaces_eq_some_iff_isSide.1 hf
  refine ⟨(f, side), hside, ?_⟩
  rintro ⟨f', side'⟩ hside'
  have hf' := adj.elementFaces_eq_some_iff_isSide.2 ⟨side', hside'⟩
  obtain rfl : f' = f := Option.some.inj (hf'.symm.trans hf)
  have hfound := (Face.sideOf_eq_some_iff (adj.sides_nodup f')).2 hside
  have hfound' := (Face.sideOf_eq_some_iff (adj.sides_nodup f')).2 hside'
  obtain rfl : side' = side := Option.some.inj (hfound'.symm.trans hfound)
  rfl

/-- A slot that no local side names is free, and no other one is. -/
theorem elementFaces_eq_none_iff {faces : Array InteriorFace} {adj : Adjacency ne fpe}
    (h : ofFaces ne fpe faces = .ok adj) {e : Fin ne} {fi : Fin fpe} :
    (adj.elementFaces e).get fi = none ↔ ∀ face ∈ faces, ⟨e, fi⟩ ∉ face.localSides := by
  obtain ⟨-, hsize, -⟩ := ofFaces_eq_ok_iff.1 h
  rw [Option.eq_none_iff_forall_ne_some]
  constructor
  · intro hnone face hface hside
    obtain ⟨i, hi, rfl⟩ := Array.mem_iff_getElem.1 hface
    exact hnone ⟨i, hsize ▸ hi⟩ ((elementFaces_eq_some_iff_names h).2
      ⟨_, Array.getElem?_eq_getElem hi, hside⟩)
  · intro hnone f hf
    obtain ⟨face, hface, hside⟩ := (elementFaces_eq_some_iff_names h).1 hf
    exact hnone face (Array.mem_of_getElem? hface) hside

/-- **The result**: where there is room for the slots, a list of interior faces is taken up just if it
    is consistent, and refused for its faces if it is not.  Then its faces get their numbers in the
    order given.  A slot shows a face exactly when it is one of the two neighbors of the face,
    every occupied slot is one side of one face, and every face has a slot.  Seen from the list, a
    slot shows the face that names it with a local side and is free if none does, so the remote side
    of a shared face occupies no slot, whatever its numbers. -/
theorem inverse_maps (ne fpe : Nat) (faces : Array InteriorFace) :
    ((∃ adj, ofFaces ne fpe faces = .ok adj) ↔
      RoomForSlots ne fpe ∧ Consistent ne fpe faces) ∧
    (RoomForSlots ne fpe → ¬ Consistent ne fpe faces →
      ∃ why, ofFaces ne fpe faces = .fault (.badFaces why)) ∧
    ∀ adj : Adjacency ne fpe, ofFaces ne fpe faces = .ok adj →
      faces.size = adj.numFaces ∧
      (∀ f : Fin adj.numFaces, ∃ face, faces[f.val]? = some face ∧
        face.Reads (adj.faces.get f)) ∧
      (∀ e fi f, (adj.elementFaces e).get fi = some f ↔
        (adj.faces.get f).first = ⟨e, fi⟩ ∨ (adj.faces.get f).second = .inside ⟨e, fi⟩) ∧
      (∀ e fi, (adj.elementFaces e).get fi ≠ none →
        ∃! p : Fin adj.numFaces × Fin 2, (adj.faces.get p.1).IsSide p.2 ⟨e, fi⟩) ∧
      (∀ f, ∃ e fi, (adj.elementFaces e).get fi = some f) ∧
      (∀ (e : Fin ne) (fi : Fin fpe) (f : Fin adj.numFaces),
        (adj.elementFaces e).get fi = some f ↔ ∃ face, faces[f.val]? = some face ∧
          (face.first = ⟨e, fi⟩ ∨ face.shared = false ∧ face.second = ⟨e, fi⟩)) ∧
      ∀ (e : Fin ne) (fi : Fin fpe), (adj.elementFaces e).get fi = none ↔ ∀ face ∈ faces,
        face.first ≠ ⟨e, fi⟩ ∧ (face.shared = false → face.second ≠ ⟨e, fi⟩) := by
  have hlocal : ∀ (face : InteriorFace) (side : FaceSide), side ∈ face.localSides ↔
      face.first = side ∨ face.shared = false ∧ face.second = side := by
    intro face side
    unfold InteriorFace.localSides
    cases face.shared <;> simp [eq_comm]
  refine ⟨exists_ofFaces_iff_consistent faces, fun room hnot => ?_, fun adj h => ?_⟩
  · refine (ofFaces_of_room room faces).resolve_left fun hok => hnot ?_
    exact ((exists_ofFaces_iff_consistent faces).1 hok).2
  obtain ⟨-, hsize, hreads⟩ := ofFaces_eq_ok_iff.1 h
  have hsides : ∀ e fi f, (adj.elementFaces e).get fi = some f ↔
      (adj.faces.get f).first = ⟨e, fi⟩ ∨ (adj.faces.get f).second = .inside ⟨e, fi⟩ := by
    intro e fi f
    rw [elementFaces_eq_some_iff_isSide, Fin.exists_fin_two]
    simp [Face.IsSide]
  refine ⟨hsize, hreads, hsides, fun e fi => adj.existsUnique_side, fun f => ?_,
    fun e fi f => ?_, fun e fi => ?_⟩
  · exact ⟨_, _, (hsides _ _ f).2 (.inl rfl)⟩
  · simp only [elementFaces_eq_some_iff_names h, hlocal]
  · simp only [elementFaces_eq_none_iff h, hlocal, not_or, not_and]

/-! ### Two elements with three faces each -/

/-- Two faces of the first element are glued to each other, one face lies between the elements, and
    one face of the second element is shared; its remote side has the numbers of a slot here. -/
def gluedFaces (remote : FaceSide) : Array InteriorFace :=
  #[⟨⟨0, 0⟩, ⟨0, 1⟩, false⟩, ⟨⟨0, 2⟩, ⟨1, 0⟩, false⟩, ⟨⟨1, 1⟩, remote, true⟩]

/-- So it is for them: the slot with these numbers stays free, and it is not taken either if they are
    those of a slot that has a face. -/
theorem inverse_maps_glued :
    (∃ adj, ofFaces 2 3 (gluedFaces ⟨1, 2⟩) = .ok adj ∧ (adj.elementFaces 1).get 2 = none ∧
      (∃! p : Fin adj.numFaces × Fin 2, (adj.faces.get p.1).IsSide p.2 ⟨0, 1⟩) ∧
      ∀ f, (adj.elementFaces 0).get 1 = some f ↔ f.val = 0) ∧
    (∃ adj, ofFaces 2 3 (gluedFaces ⟨0, 0⟩) = .ok adj) ∧
    ∃ why, ofFaces 2 3 (gluedFaces ⟨0, 3⟩) = .fault (.badFaces why) := by
  have room : RoomForSlots 2 3 := ⟨by decide, by decide⟩
  obtain ⟨haccepts, -, hmaps⟩ := inverse_maps 2 3 (gluedFaces ⟨1, 2⟩)
  obtain ⟨adj, hadj⟩ := haccepts.2 ⟨room, by decide⟩
  obtain ⟨hsize, -, -, hunique, -, hsome, hnone⟩ := hmaps adj hadj
  have hglued : ∀ f : Fin adj.numFaces, (adj.elementFaces 0).get 1 = some f ↔ f.val = 0 := by
    intro f
    rw [hsome]
    obtain ⟨f, hf⟩ := f
    have hlist : ∀ i : Fin 3, (∃ face, (gluedFaces ⟨1, 2⟩)[i.val]? = some face ∧
        (face.first = ⟨0, 1⟩ ∨ face.shared = false ∧ face.second = ⟨0, 1⟩)) ↔ i.val = 0 := by
      intro i
      fin_cases i <;> simp [gluedFaces]
    exact hlist ⟨f, lt_of_lt_of_eq hf hsize.symm⟩
  refine ⟨⟨adj, hadj, (hnone 1 2).2 (by decide), hunique 0 1 ?_, hglued⟩, ?_, ?_⟩
  · have hfirst : 0 < adj.numFaces := hsize ▸ Nat.zero_lt_succ 2
    rw [(hglued ⟨0, hfirst⟩).2 rfl]
    exact Option.some_ne_none _
  · exact (inverse_maps 2 3 (gluedFaces ⟨0, 0⟩)).1.2 ⟨room, by decide⟩
  · exact (inverse_maps 2 3 (gluedFaces ⟨0, 3⟩)).2.1 room (by decide)

end Adjacency

end Condensation
