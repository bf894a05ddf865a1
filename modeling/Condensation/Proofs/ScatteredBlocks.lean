/-
  Scattered blocks — what every slot gets from the blocks of the faces.

  1. **Row orders (`nativeRows_eq_ok_iff`)** — the map of the rows is accepted just if it names every
     native row once, in whatever orientation.

  2. **Sides (`sideOf_eq_some_iff`)** — the two sides of a face are different slots, so the side that
     is found for a slot is the only one it is; and a slot shows a face just if it is a side of it.

  3. **Acceptance (`ofFaceBlocks_eq_ok_iff`)** — data of the right size and a row order are all that
     is asked for, where there is room for the blocks.

  4. **The result (`blocks_scattered`)** — row `rows i` of a slot's block is row `i` of the block of
     its side, a slot without a face has the zero block, and blocks of remote sides go nowhere.
-/
import Condensation.Proofs.CoupledFaces
import Condensation.Proofs.FaceRows

namespace Condensation

variable {S : Type}

/-! ## Row orders -/

/-- The map sends row `i` to native row `rows i`, whatever the orientation of its entry, and every
    native row is met once. -/
structure RowOrder {m : Nat} (dofMap : Array GatherEntry) (rows : Fin m → Fin m) : Prop where
  size_eq : dofMap.size = m
  entry_eq : ∀ i : Fin m, ∃ o, dofMap[i.val]? = some (some ⟨(rows i).val, o⟩)
  bijective : Function.Bijective rows

/-- **Row orders** are what the check accepts. -/
theorem nativeRows_eq_ok_iff {m : Nat} {dofMap : Array GatherEntry} {rows : Vector (Fin m) m} :
    nativeRows m dofMap = .ok rows ↔ RowOrder dofMap rows.get := by
  have hentry : ∀ (entries : Vector GatherEntry m) (i : Fin m) (why : Fault) (r : Fin m),
      Outcome.orFault why (((entries.get i).within m).map (·.index)) = .ok r ↔
        ∃ o, entries.get i = some ⟨r.val, o⟩ := by
    intro entries i why r
    rw [Outcome.orFault_eq_ok_iff, Option.map_eq_some_iff]
    constructor
    · rintro ⟨g, hg, rfl⟩
      exact ⟨g.orientation, GatherEntry.within_eq_some_iff.1 hg⟩
    · rintro ⟨o, ho⟩
      exact ⟨⟨r, o⟩, GatherEntry.within_eq_some_iff.2 ho, rfl⟩
  constructor
  · intro h
    have hbijective := nativeRows_bijective h
    obtain ⟨entries, hentries, hrest⟩ := Outcome.bind_eq_ok_iff.1 h
    obtain ⟨found, hfound, hrest⟩ := Outcome.bind_eq_ok_iff.1 hrest
    split at hrest
    · simp at hrest
    obtain rfl := Outcome.ok.inj hrest
    obtain rfl : entries.toArray = dofMap := Outcome.sized_eq_ok_iff.1 hentries
    refine ⟨entries.size_toArray, fun i => ?_, hbijective⟩
    obtain ⟨o, ho⟩ := (hentry entries i _ _).1 (Outcome.tabulate_eq_ok_iff.1 hfound i)
    exact ⟨o, by rw [Vector.getElem?_toArray_get, ho]⟩
  · rintro ⟨hsize, hentries, hbijective⟩
    have hsized : Outcome.sized .lexicographicMap m dofMap = .ok ⟨dofMap, hsize⟩ :=
      Outcome.sized_eq_ok_iff.2 rfl
    have hrows : Outcome.tabulate (fun i : Fin m =>
        Outcome.orFault (.badNumbering (.lexicographicDof i ((Vector.mk dofMap hsize).get i) m))
          ((((Vector.mk dofMap hsize).get i).within m).map (·.index))) = .ok rows := by
      refine Outcome.tabulate_eq_ok_iff.2 fun i => (hentry _ i _ _).2 ?_
      obtain ⟨o, ho⟩ := hentries i
      have hget := Vector.getElem?_toArray_get (Vector.mk dofMap hsize) i
      exact ⟨o, Option.some.inj (hget.symm.trans ho)⟩
    have hnone : (List.finRange m).find? (fun i => Repeats rows i) = none := by
      refine List.find?_eq_none.2 fun i _ => ?_
      simp only [decide_eq_true_eq]
      rintro ⟨i', hlt, heq⟩
      exact absurd (hbijective.injective heq) (Fin.ne_of_lt hlt)
    rw [nativeRows, hsized, Outcome.ok_bind, hrows, Outcome.ok_bind, hnone]
    rfl

/-- The map says where the rows go. -/
theorem RowOrder.unique {m : Nat} {dofMap : Array GatherEntry} {rows rows' : Fin m → Fin m}
    (h : RowOrder dofMap rows) (h' : RowOrder dofMap rows') : rows = rows' := by
  funext i
  obtain ⟨o, ho⟩ := h.entry_eq i
  obtain ⟨o', ho'⟩ := h'.entry_eq i
  have hsame := Option.some.inj (Option.some.inj (ho.symm.trans ho'))
  exact Fin.ext (congrArg Signed.index hsame)

/-! ## Sides -/

namespace Face

variable {ne fpe : Nat}

/-- The slot is this side of the face. -/
def IsSide (face : Face ne fpe) (side : Fin 2) (slot : Slot ne fpe) : Prop :=
  side.val = 0 ∧ face.first = slot ∨ side.val = 1 ∧ face.second = .inside slot

instance (face : Face ne fpe) (side : Fin 2) (slot : Slot ne fpe) :
    Decidable (face.IsSide side slot) :=
  inferInstanceAs (Decidable (_ ∨ _))

theorem mem_localSides_iff {face : Face ne fpe} {slot : Slot ne fpe} :
    slot ∈ face.localSides ↔ ∃ side, face.IsSide side slot := by
  obtain ⟨first, second⟩ := face
  cases second with
  | inside t =>
    simp only [localSides, List.mem_cons, List.not_mem_nil, or_false]
    constructor
    · rintro (rfl | rfl)
      · exact ⟨0, .inl ⟨rfl, rfl⟩⟩
      · exact ⟨1, .inr ⟨rfl, rfl⟩⟩
    · rintro ⟨side, ⟨-, h⟩ | ⟨-, h⟩⟩
      · exact .inl h.symm
      · exact .inr (Neighbor.inside.inj h).symm
  | remote e fi =>
    simp only [localSides, List.mem_singleton]
    constructor
    · rintro rfl
      exact ⟨0, .inl ⟨rfl, rfl⟩⟩
    · rintro ⟨side, ⟨-, h⟩ | ⟨-, h⟩⟩
      · exact h.symm
      · cases h

/-- **Sides**: the side that is found for a slot is the only one it is. -/
theorem sideOf_eq_some_iff {face : Face ne fpe} (hnodup : face.localSides.Nodup) {side : Fin 2}
    {slot : Slot ne fpe} : face.sideOf slot = some side ↔ face.IsSide side slot := by
  have hboth : face.first = slot → face.second ≠ .inside slot := by
    intro hfirst hsecond
    rw [localSides, hsecond, hfirst] at hnodup
    simp at hnodup
  unfold sideOf IsSide
  by_cases hfirst : face.first = slot
  · rw [if_pos hfirst, Option.some_inj, eq_comm, Fin.ext_iff]
    simp [hfirst, hboth hfirst]
  · by_cases hsecond : face.second = .inside slot
    · rw [if_neg hfirst, if_pos hsecond, Option.some_inj, eq_comm, Fin.ext_iff]
      simp [hfirst, hsecond]
    · simp [hfirst, hsecond]

end Face

namespace Coupling

variable {disc : Discretization S}

/-- Couplings with the same block in every slot are equal. -/
theorem ext_block {c c' : Coupling disc} (h : ∀ slot, c'.block slot = c.block slot) : c' = c := by
  obtain ⟨blocks⟩ := c
  obtain ⟨blocks'⟩ := c'
  refine congrArg BlockTable.mk (Vector.ext_get fun k => ?_)
  have hk := h ⟨Pairing.outer k, Pairing.inner k⟩
  simpa only [block, Slot.number, Pairing.join_split] using hk

/-- A side of a face gets the block of this side, rows in native order. -/
theorem slotBlock_of_isSide [Zero S] {rows : Vector (Fin disc.m) disc.m}
    {data : Vector S (disc.nf * 2 * (disc.n * disc.m))} {f : Fin disc.nf} {side : Fin 2}
    {slot : Slot disc.ne disc.fpe} (h : (disc.adjacency.faces.get f).IsSide side slot) :
    slotBlock disc rows data slot.number = (sideBlock data f side).scatterRows rows := by
  have hslot : disc.adjacency.slots.get slot.number = some f :=
    (disc.adjacency.slot_iff slot f).2 (Face.mem_localSides_iff.2 ⟨side, h⟩)
  have hside : (disc.adjacency.faces.get f).sideOf slot = some side :=
    (Face.sideOf_eq_some_iff (disc.adjacency.sides_nodup f)).2 h
  unfold slotBlock
  rw [hslot]
  simp only [Slot.number, Pairing.outer_join, Pairing.inner_join, hside]

/-- A slot that is no side of a face gets nothing. -/
theorem slotBlock_of_not_isSide [Zero S] {rows : Vector (Fin disc.m) disc.m}
    {data : Vector S (disc.nf * 2 * (disc.n * disc.m))} {slot : Slot disc.ne disc.fpe}
    (h : ∀ f side, ¬ (disc.adjacency.faces.get f).IsSide side slot) :
    slotBlock disc rows data slot.number = .zero := by
  have hslot : disc.adjacency.slots.get slot.number = none := by
    refine Option.eq_none_iff_forall_ne_some.2 fun f hf => ?_
    obtain ⟨side, hside⟩ := Face.mem_localSides_iff.1 ((disc.adjacency.slot_iff slot f).1 hf)
    exact h f side hside
  unfold slotBlock
  rw [hslot]

/-! ## Acceptance -/

/-- The sizes of the blocks of all faces and of all slots stay in range, and those of the slots go
    into memory. -/
structure RoomForBlocks (disc : Discretization S) : Prop where
  sides : disc.m * disc.n * 2 < Size.limit
  faces : disc.m * disc.n * 2 * disc.nf < Size.limit
  slots : disc.m * disc.n * (disc.ne * disc.fpe) < Size.tableLimit
  around : disc.m * disc.n * disc.fpe < Size.limit

/-- The partial products that are taken on the way. -/
theorem RoomForBlocks.products (room : RoomForBlocks disc) :
    Size.product [disc.m, disc.n, 2, disc.nf] = .ok (disc.m * disc.n * 2 * disc.nf) ∧
      Size.product [disc.m, disc.n, disc.ne * disc.fpe] =
        .ok (disc.m * disc.n * (disc.ne * disc.fpe)) ∧
      Size.product [disc.m, disc.n, disc.fpe] = .ok (disc.m * disc.n * disc.fpe) := by
  have hm : disc.m ≤ disc.m * disc.n := Nat.le_mul_of_pos_right _ disc.trace.dofsPerFace_pos
  have hsides := room.sides
  have hmn : disc.m * disc.n < Size.limit := by omega
  have hm' : disc.m < Size.limit := lt_of_le_of_lt hm hmn
  simp only [Size.product_eq_ok_iff, Size.InRange, List.foldl_cons, List.foldl_nil, Nat.one_mul,
    and_true]
  exact ⟨⟨hm', hmn, hsides, room.faces⟩, ⟨hm', hmn, Size.lt_limit room.slots⟩,
    ⟨hm', hmn, room.around⟩⟩

variable [Zero S] {s : Schedule} {faces : FaceBlocks S}

/-- Blocks are accepted only where there is room. -/
theorem room_of_ofFaceBlocks {c : Coupling disc} (h : ofFaceBlocks disc s faces = .ok c) :
    RoomForBlocks disc := by
  obtain ⟨_, hall, h⟩ := Outcome.bind_eq_ok_iff.1 h
  obtain ⟨_, -, h⟩ := Outcome.bind_eq_ok_iff.1 h
  obtain ⟨_, -, h⟩ := Outcome.bind_eq_ok_iff.1 h
  obtain ⟨_, hblank, h⟩ := Outcome.bind_eq_ok_iff.1 h
  obtain ⟨_, haround, -⟩ := Outcome.bind_eq_ok_iff.1 h
  obtain ⟨_, hsize, hblank⟩ := Outcome.bind_eq_ok_iff.1 hblank
  obtain ⟨_, htable, -⟩ := Outcome.bind_eq_ok_iff.1 hblank
  obtain ⟨-, rfl⟩ := Size.product_eq_ok_iff.1 hsize
  simp only [Size.product_eq_ok_iff, Size.InRange, Nat.one_mul, and_true] at hall haround
  obtain ⟨⟨-, -, hsides, hfaces⟩, -⟩ := hall
  obtain ⟨⟨-, -, haround⟩, -⟩ := haround
  exact ⟨hsides, hfaces, by simpa using Outcome.check_eq_ok_iff.1 htable, haround⟩

/-- **Acceptance**: data of the right size and a row order, where there is room. -/
theorem ofFaceBlocks_eq_ok_iff {c : Coupling disc} :
    ofFaceBlocks disc s faces = .ok c ↔ RoomForBlocks disc ∧ ∃ data rows,
      faces.Has disc data rows ∧ ∀ k, c.blocks.get k = slotBlock disc rows data k := by
  refine ⟨fun h => ⟨room_of_ofFaceBlocks h, of_ofFaceBlocks h⟩, ?_⟩
  rintro ⟨room, data, rows, ⟨hdata, hrows⟩, hblocks⟩
  obtain ⟨hall, hslots, haround⟩ := room.products
  have htable : Size.table (disc.m * disc.n * (disc.ne * disc.fpe)) = .ok () :=
    Outcome.check_eq_ok_iff.2 room.slots
  have hsized : Outcome.sized .faceBlocks (disc.nf * 2 * (disc.n * disc.m)) faces.data = .ok data :=
    Outcome.sized_eq_ok_iff.2 hdata
  rw [ofFaceBlocks, hall, Outcome.ok_bind, hsized, Outcome.ok_bind, hrows, Outcome.ok_bind,
    BlockTable.zeros?, hslots, Outcome.ok_bind, htable, Outcome.ok_bind, Outcome.pure_eq,
    Outcome.ok_bind, haround, Outcome.ok_bind, s.each_pure, Outcome.ok_bind]
  obtain ⟨blocks⟩ := c
  refine congrArg Outcome.ok (congrArg BlockTable.mk (Vector.ext_get fun k => ?_))
  rw [Vector.get_ofFn_eq]
  exact (hblocks k).symm

/-! ## The result -/

/-- The entry in row `i` and column `j` of the block of a side of a face, in the order in which the
    blocks come in: row before column, column before side, and side before face. -/
def entryOf (disc : Discretization S) (faces : FaceBlocks S) (f : Fin disc.nf) (side : Fin 2)
    (i : Fin disc.m) (j : Fin disc.n) : Option S :=
  faces.data[i.val + disc.m * (j.val + disc.n * (side.val + 2 * f.val))]?

omit [Zero S] in
theorem entryOf_eq {data : Vector S (disc.nf * 2 * (disc.n * disc.m))}
    (hdata : data.toArray = faces.data) (f : Fin disc.nf) (side : Fin 2) (i : Fin disc.m)
    (j : Fin disc.n) :
    entryOf disc faces f side i j =
      some ((sideBlock data f side : Dense S disc.m disc.n).entry i j) := by
  have hplace : i.val + disc.m * (j.val + disc.n * (side.val + 2 * f.val)) =
      (Pairing.join (Pairing.join f side) (Pairing.join j i)).val := by
    simp only [Pairing.join]
    ring
  rw [entryOf, hplace, ← hdata, Vector.getElem?_toArray_get, sideBlock, Dense.entry,
    Pairing.get_part]

/-- What the slots have got. -/
theorem scattered {c : Coupling disc} {rows : Fin disc.m → Fin disc.m}
    (h : ofFaceBlocks disc s faces = .ok c) (order : RowOrder faces.dofMap rows) :
    (∀ f side slot, (disc.adjacency.faces.get f).IsSide side slot → ∀ i j,
      entryOf disc faces f side i j = some ((c.block slot).entry (rows i) j)) ∧
    ∀ slot, (∀ f side, ¬ (disc.adjacency.faces.get f).IsSide side slot) → c.block slot = .zero := by
  obtain ⟨-, data, found, hhas, hblocks⟩ := ofFaceBlocks_eq_ok_iff.1 h
  obtain rfl : found.get = rows := (nativeRows_eq_ok_iff.1 hhas.rows_eq).unique order
  refine ⟨fun f side slot hside i j => ?_, fun slot hnone => ?_⟩
  · rw [block, hblocks, slotBlock_of_isSide hside,
      Dense.entry_scatterRows order.bijective.injective, entryOf_eq hhas.data_eq]
  · rw [block, hblocks, slotBlock_of_not_isSide hnone]

/-- Blocks that agree on the sides of this rank have the same effect. -/
theorem scattered_congr {s' : Schedule} {faces' : FaceBlocks S} {c c' : Coupling disc}
    {rows : Fin disc.m → Fin disc.m} (h : ofFaceBlocks disc s faces = .ok c)
    (h' : ofFaceBlocks disc s' faces' = .ok c') (order : RowOrder faces.dofMap rows)
    (order' : RowOrder faces'.dofMap rows)
    (hsame : ∀ f side slot, (disc.adjacency.faces.get f).IsSide side slot → ∀ i j,
      entryOf disc faces' f side i j = entryOf disc faces f side i j) : c' = c := by
  obtain ⟨hsides, hothers⟩ := scattered h order
  obtain ⟨hsides', hothers'⟩ := scattered h' order'
  have hblock : ∀ slot : Slot disc.ne disc.fpe, c'.block slot = c.block slot := by
    intro slot
    by_cases hslot : ∃ f side, (disc.adjacency.faces.get f).IsSide side slot
    · obtain ⟨f, side, hside⟩ := hslot
      refine Dense.ext_entry fun i j => ?_
      obtain ⟨p, rfl⟩ := order.bijective.surjective i
      have hentry := hsame f side slot hside p j
      rw [hsides f side slot hside, hsides' f side slot hside] at hentry
      exact Option.some.inj hentry
    · have hnone : ∀ f side, ¬ (disc.adjacency.faces.get f).IsSide side slot :=
        fun f side hside => hslot ⟨f, side, hside⟩
      rw [hothers slot hnone, hothers' slot hnone]
  exact ext_block hblock

/-- Some coupling comes from data of the right size and a row order, where there is room. -/
theorem exists_ofFaceBlocks_iff (disc : Discretization S) (s : Schedule) (faces : FaceBlocks S) :
    (∃ c, ofFaceBlocks disc s faces = .ok c) ↔
      RoomForBlocks disc ∧ faces.data.size = 2 * disc.m * disc.n * disc.nf ∧
        ∃ rows : Fin disc.m → Fin disc.m, RowOrder faces.dofMap rows := by
  have hsize : disc.nf * 2 * (disc.n * disc.m) = 2 * disc.m * disc.n * disc.nf := by ring
  constructor
  · rintro ⟨c, h⟩
    obtain ⟨room, data, rows, hhas, -⟩ := ofFaceBlocks_eq_ok_iff.1 h
    refine ⟨room, ?_, rows.get, nativeRows_eq_ok_iff.1 hhas.rows_eq⟩
    rw [← hhas.data_eq, data.size_toArray, hsize]
  · rintro ⟨room, hdata, rows, order⟩
    have hrows : nativeRows disc.m faces.dofMap = .ok (Vector.ofFn rows) := by
      rw [nativeRows_eq_ok_iff, Vector.ofFn_get]
      exact order
    exact ⟨⟨Vector.ofFn fun k => slotBlock disc _ _ k⟩, ofFaceBlocks_eq_ok_iff.2 ⟨room,
      ⟨faces.data, hdata.trans hsize.symm⟩, Vector.ofFn rows, ⟨rfl, hrows⟩,
      fun k => Vector.get_ofFn_eq _ k⟩⟩

/-- **The result**: where there is room for the blocks, they are accepted just if their data have
    the size of two blocks for every face and the map of the rows meets every native row once.
    Then, if a slot is a side of a face, row `rows i` of its block is row `i` of the block of this
    side, whatever the orientations in the map; and all rows of the block are of this kind.  Every
    other slot has the zero block.  Nothing else matters, so the blocks of remote sides reach no
    slot. -/
theorem blocks_scattered (disc : Discretization S) (s : Schedule) (faces : FaceBlocks S) :
    ((∃ c, ofFaceBlocks disc s faces = .ok c) ↔
      RoomForBlocks disc ∧ faces.data.size = 2 * disc.m * disc.n * disc.nf ∧
        ∃ rows : Fin disc.m → Fin disc.m, RowOrder faces.dofMap rows) ∧
    ∀ (c : Coupling disc) (rows : Fin disc.m → Fin disc.m),
      ofFaceBlocks disc s faces = .ok c → RowOrder faces.dofMap rows →
      (∀ f side slot, (disc.adjacency.faces.get f).IsSide side slot → ∀ i j,
        entryOf disc faces f side i j = some ((c.block slot).entry (rows i) j)) ∧
      (∀ slot, (∀ f side, ¬ (disc.adjacency.faces.get f).IsSide side slot) →
        c.block slot = .zero) ∧
      ∀ (s' : Schedule) (faces' : FaceBlocks S), faces'.data.size = faces.data.size →
        RowOrder faces'.dofMap rows →
        (∀ f side slot, (disc.adjacency.faces.get f).IsSide side slot → ∀ i j,
          entryOf disc faces' f side i j = entryOf disc faces f side i j) →
        ofFaceBlocks disc s' faces' = .ok c := by
  refine ⟨exists_ofFaceBlocks_iff disc s faces, fun c rows h order => ?_⟩
  obtain ⟨hsides, hothers⟩ := scattered h order
  refine ⟨hsides, hothers, fun s' faces' hdata order' hsame => ?_⟩
  obtain ⟨room, hdata', -⟩ := (exists_ofFaceBlocks_iff disc s faces).1 ⟨c, h⟩
  obtain ⟨c', h'⟩ := (exists_ofFaceBlocks_iff disc s' faces').2
    ⟨room, hdata.trans hdata', rows, order'⟩
  rw [h', scattered_congr h h' order order' hsame]

/-! ### Two elements with three faces each, and two rows -/

/-- The glued elements, with two broken degrees of freedom each. -/
def gluedPairs : Discretization ℚ :=
  { gluedElements with flux := ⟨2, 4, .ofFn fun k : Fin 4 => .plus k, none⟩ }

/-- Blocks with the second row first, one of them turned; the last two entries belong to a remote
    side. -/
def swappedRows (x y : ℚ) : FaceBlocks ℚ :=
  ⟨#[1, 2, 3, 4, 5, 6, 7, 8, 9, 10] ++ #[x, y], #[some (.plus 1), some (.minus 0)]⟩

theorem swappedRows_order (x y : ℚ) :
    RowOrder (m := gluedPairs.m) (swappedRows x y).dofMap Fin.rev where
  size_eq := rfl
  entry_eq
    | ⟨0, _⟩ => ⟨.plus, rfl⟩
    | ⟨1, _⟩ => ⟨.minus, rfl⟩
  bijective := Fin.rev_involutive.bijective

/-- Only the remote side has its block behind the tenth entry. -/
theorem entryOf_swappedRows (x y x' y' : ℚ) {f : Fin gluedPairs.nf} {side : Fin 2}
    {slot : Slot gluedPairs.ne gluedPairs.fpe}
    (hside : (gluedPairs.adjacency.faces.get f).IsSide side slot) (i : Fin gluedPairs.m)
    (j : Fin gluedPairs.n) :
    entryOf gluedPairs (swappedRows x y) f side i j =
      entryOf gluedPairs (swappedRows x' y') f side i j := by
  have hremote : ∀ (f : Fin gluedPairs.nf) (side : Fin 2) e fi,
      (gluedPairs.adjacency.faces.get f).IsSide side ⟨e, fi⟩ → side.val + 2 * f.val < 5 := by decide
  have hplace : i.val + gluedPairs.m * (j.val + gluedPairs.n * (side.val + 2 * f.val)) < 10 := by
    have := hremote f side slot.element slot.localFace hside
    have hi : i.val < 2 := i.isLt
    have hj : j.val < 1 := j.isLt
    show i.val + 2 * (j.val + 1 * (side.val + 2 * f.val)) < 10
    omega
  rw [entryOf, entryOf, swappedRows, swappedRows, Array.getElem?_append_left hplace,
    Array.getElem?_append_left hplace]

/-- So it is for these elements: the second slot of the first element is the second side of the
    first face, the last slot has no face, and the last two entries do not matter. -/
theorem blocks_scattered_glued :
    ∃ c : Coupling gluedPairs, (∀ x y s, ofFaceBlocks gluedPairs s (swappedRows x y) = .ok c) ∧
      (∀ j, (c.block ⟨⟨0, Nat.zero_lt_two⟩, ⟨1, by decide⟩⟩).entry ⟨0, Nat.zero_lt_two⟩ j = 4 ∧
        (c.block ⟨⟨0, Nat.zero_lt_two⟩, ⟨1, by decide⟩⟩).entry ⟨1, Nat.one_lt_two⟩ j = 3) ∧
      c.block ⟨⟨1, Nat.one_lt_two⟩, ⟨2, by decide⟩⟩ = .zero := by
  have hroom : RoomForBlocks gluedPairs := ⟨by decide, by decide, by decide, by decide⟩
  obtain ⟨haccepts, hblocks⟩ := blocks_scattered gluedPairs .backwards (swappedRows 11 12)
  obtain ⟨c, hc⟩ := haccepts.2 ⟨hroom, rfl, Fin.rev, swappedRows_order 11 12⟩
  obtain ⟨hsides, hothers, hunseen⟩ := hblocks c Fin.rev hc (swappedRows_order 11 12)
  have hglued := hsides ⟨0, by decide⟩ 1 ⟨⟨0, Nat.zero_lt_two⟩, ⟨1, by decide⟩⟩ (by decide)
  refine ⟨c, fun x y s => ?_, fun j => ⟨?_, ?_⟩, hothers _ (by decide)⟩
  · exact hunseen s (swappedRows x y) rfl (swappedRows_order x y) fun f side slot hside i j =>
      entryOf_swappedRows x y 11 12 hside i j
  · obtain rfl : j = ⟨0, Nat.zero_lt_one⟩ := Subsingleton.elim (α := Fin 1) _ _
    exact Option.some.inj ((hglued ⟨1, Nat.one_lt_two⟩ ⟨0, Nat.zero_lt_one⟩).symm.trans rfl)
  · obtain rfl : j = ⟨0, Nat.zero_lt_one⟩ := Subsingleton.elim (α := Fin 1) _ _
    exact Option.some.inj ((hglued ⟨0, Nat.zero_lt_two⟩ ⟨0, Nat.zero_lt_one⟩).symm.trans rfl)

end Coupling

end Condensation
