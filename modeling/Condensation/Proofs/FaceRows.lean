/-
  Face rows — which row of the input a coupling block takes its rows from.

  The blocks of the faces come in with rows in lexicographic order.  The map to the native order is
  checked to be a permutation, so every native row is written, and by one row of the input.

  1. **The order (`nativeRows_bijective`)** — a map that passes the check is one-to-one and onto.

  2. **Writing (`entry_scatterRows`)** — row `rows p` of the result is row `p` of the input.

  3. **Agreement (`couplingFrom_congr`)** — with the elimination on, input that agrees in the rows
     which land on unmarked broken degrees of freedom gives the same coupling.
-/
import Condensation.Proofs.Operators
import Condensation.Proofs.Preparation
import Mathlib.Data.Fintype.EquivFin

namespace Condensation

variable {S : Type}

/-! ## The order -/

/-- A map that passes the check says where every row lands, and every native row is hit once. -/
theorem nativeRows_bijective {m : Nat} {dofMap : Array GatherEntry} {rows : Vector (Fin m) m}
    (h : nativeRows m dofMap = .ok rows) : Function.Bijective rows.get := by
  obtain ⟨entries, -, h⟩ := Outcome.bind_eq_ok_iff.1 h
  obtain ⟨found, -, h⟩ := Outcome.bind_eq_ok_iff.1 h
  split at h
  · simp at h
  next hnone =>
    obtain rfl := Outcome.ok.inj h
    refine Finite.injective_iff_bijective.1 fun i i' heq => ?_
    -- the later one of two rows with one place would repeat the other
    have hrepeats : ∀ i, ¬ Repeats found i := by
      simpa using List.find?_eq_none.1 hnone
    rcases lt_trichotomy i i' with hlt | heq' | hlt
    · exact absurd ⟨i, hlt, heq⟩ (hrepeats i')
    · exact heq'
    · exact absurd ⟨i', hlt, heq.symm⟩ (hrepeats i)

/-! ## Writing -/

namespace Dense

variable {m n : Nat}

theorem entry_setRow (a : Dense S m n) (i : Fin m) (row : Fin n → S) (i' : Fin m) (j : Fin n) :
    (a.setRow i row).entry i' j = if i' = i then row j else a.entry i' j := by
  rw [setRow, entry_ofFn]

/-- **Writing**: every row goes to its place. -/
theorem entry_scatterRows [Zero S] {rows : Vector (Fin m) m}
    (hrows : Function.Injective rows.get) (a : Dense S m n) (p : Fin m) (j : Fin n) :
    (a.scatterRows rows).entry (rows.get p) j = a.entry p j := by
  refine foldl_finRange_invariant _ (fun k (b : Dense S m n) => ∀ p : Fin m, p.val < k →
    b.entry (rows.get p) j = a.entry p j) ?_ ?_ p p.isLt
  · intro p hp
    exact absurd hp (Nat.not_lt_zero _)
  · intro k b hb p hp
    rw [entry_setRow]
    by_cases hkp : rows.get p = rows.get k
    · rw [if_pos hkp, hrows hkp]
    · have hval : p.val ≠ k.val := fun e => hkp (by rw [Fin.ext e])
      rw [if_neg hkp]
      exact hb p (by omega)

end Dense

/-! ## Agreement -/

variable {disc : Discretization S}

namespace FaceBlocks

/-- The blocks have these data, and row `p` of each of them lands on row `rows p` in native
    order. -/
structure Has (faces : FaceBlocks S) (disc : Discretization S)
    (data : Vector S (disc.nf * 2 * (disc.n * disc.m))) (rows : Vector (Fin disc.m) disc.m) :
    Prop where
  data_eq : data.toArray = faces.data
  rows_eq : nativeRows disc.m faces.dofMap = .ok rows

/-- The blocks agree in all rows that land on a broken degree of freedom in `keep`. -/
def AgreeOn (disc : Discretization S) (keep : Fin disc.numBroken → Prop)
    (faces faces' : FaceBlocks S) : Prop :=
  ∀ data rows data' rows', faces.Has disc data rows → faces'.Has disc data' rows' →
    ∀ (f : Fin disc.nf) (slot : Slot disc.ne disc.fpe) (side : Fin 2),
      (disc.adjacency.faces.get f).sideOf slot = some side →
      ∀ p p', rows.get p = rows'.get p' → keep (Pairing.join slot.element (rows.get p)) → ∀ j,
        (Coupling.sideBlock data f side : Dense S disc.m disc.n).entry p j =
          (Coupling.sideBlock data' f side : Dense S disc.m disc.n).entry p' j

end FaceBlocks

namespace Coupling

variable [Zero S]

/-- Every slot gets the block of its side. -/
theorem of_ofFaceBlocks {s : Schedule} {faces : FaceBlocks S} {built : Coupling disc}
    (h : ofFaceBlocks disc s faces = .ok built) :
    ∃ data rows, faces.Has disc data rows ∧
      ∀ k, built.blocks.get k = slotBlock disc rows data k := by
  obtain ⟨_, -, h⟩ := Outcome.bind_eq_ok_iff.1 h
  obtain ⟨data, hdata, h⟩ := Outcome.bind_eq_ok_iff.1 h
  obtain ⟨rows, hrows, h⟩ := Outcome.bind_eq_ok_iff.1 h
  obtain ⟨blank, -, h⟩ := Outcome.bind_eq_ok_iff.1 h
  obtain ⟨_, -, h⟩ := Outcome.bind_eq_ok_iff.1 h
  rw [s.each_pure, Outcome.ok_bind] at h
  obtain rfl := Outcome.ok.inj h
  exact ⟨data, rows, ⟨Outcome.sized_eq_ok_iff.1 hdata, hrows⟩, fun k => Vector.get_ofFn_eq _ k⟩

/-- An entry of a slot's block is an entry of the input, in the row that lands there. -/
theorem slotBlock_congr {faces faces' : FaceBlocks S} {keep : Fin disc.numBroken → Prop}
    (hagree : faces.AgreeOn disc keep faces')
    {data data' : Vector S (disc.nf * 2 * (disc.n * disc.m))}
    {rows rows' : Vector (Fin disc.m) disc.m} (h : faces.Has disc data rows)
    (h' : faces'.Has disc data' rows') (k : Fin (disc.ne * disc.fpe)) {i : Fin disc.m}
    (hi : keep (Pairing.join (Pairing.outer k) i)) (j : Fin disc.n) :
    (slotBlock disc rows data k).entry i j = (slotBlock disc rows' data' k).entry i j := by
  have hrows := nativeRows_bijective h.rows_eq
  have hrows' := nativeRows_bijective h'.rows_eq
  obtain ⟨p, rfl⟩ := hrows.surjective i
  obtain ⟨p', hp'⟩ := hrows'.surjective (rows.get p)
  unfold slotBlock
  cases disc.adjacency.slots.get k with
  | none => rfl
  | some f =>
    dsimp only
    cases hside : (disc.adjacency.faces.get f).sideOf ⟨Pairing.outer k, Pairing.inner k⟩ with
    | none => rfl
    | some side =>
      dsimp only
      rw [Dense.entry_scatterRows hrows.injective, ← hp',
        Dense.entry_scatterRows hrows'.injective]
      exact hagree data rows data' rows' h h' f _ side hside p p' hp'.symm hi j

end Coupling

/-- **Agreement**: rows that land on marked broken degrees of freedom are cleared anyway. -/
theorem Session.couplingFrom_congr [Zero S] {options : Options S}
    (helim : options.eliminateEssentialCoupling = true) {s s' : Schedule}
    {faces faces' : FaceBlocks S} {marked : Vector Bool disc.numBroken}
    (hagree : faces.AgreeOn disc (fun l => marked.get l = false) faces') {c c' : Coupling disc}
    (h : couplingFrom disc options s faces marked = .ok c)
    (h' : couplingFrom disc options s' faces' marked = .ok c') : c' = c := by
  have hblocks : ∀ {s : Schedule} {faces : FaceBlocks S} {c : Coupling disc},
      couplingFrom disc options s faces marked = .ok c →
      ∃ data rows, faces.Has disc data rows ∧ ∀ k, c.blocks.get k =
        (Coupling.slotBlock disc rows data k).clearRows (Pairing.part marked (Pairing.outer k)) := by
    intro s faces c h
    unfold couplingFrom at h
    rw [helim] at h
    obtain ⟨built, hbuilt, hclear⟩ := Outcome.bind_eq_ok_iff.1 h
    obtain ⟨data, rows, hhas, hslots⟩ := Coupling.of_ofFaceBlocks hbuilt
    refine ⟨data, rows, hhas, fun k => ?_⟩
    rw [← hslots]
    exact Coupling.get_of_clearEssential hclear k
  obtain ⟨data, rows, hhas, hc⟩ := hblocks h
  obtain ⟨data', rows', hhas', hc'⟩ := hblocks h'
  obtain ⟨blocks⟩ := c
  obtain ⟨blocks'⟩ := c'
  congr 1
  refine Vector.ext_get fun k => ?_
  show blocks'.get k = blocks.get k
  rw [show blocks.get k = _ from hc k, show blocks'.get k = _ from hc' k]
  refine Dense.ext_entry fun i j => ?_
  rw [Dense.clearRows, Dense.clearRows, Dense.entry_ofFn, Dense.entry_ofFn, Pairing.get_part]
  by_cases hi : marked.get (Pairing.join (Pairing.outer k) i) = true
  · rw [if_pos hi, if_pos hi]
  · rw [if_neg hi, if_neg hi]
    exact (Coupling.slotBlock_congr hagree hhas hhas' k (by simpa using hi) j).symm

end Condensation
