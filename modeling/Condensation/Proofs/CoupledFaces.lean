/-
  Coupled faces — the places of a face are taken by exactly the faces that share an element with it.

  1. **Enumeration** — `Enumerates` says what the places of a face hold: the faces of its elements,
     each once and from the front, with the sums of the products of their coupling blocks.  How often
     a face occurs beside it, and in which order, does not show.

  2. **The crux (`entry_of_coupled`)** — the block of a listed face is the sum over all products
     that were linked for it.  It is read off the weighted sums with a weight that sees one face and
     one column (`sum_pull_seeing`).

  3. **Counting (`numLinks_eq`)** — the taken places of all faces are as many as the ordered pairs
     of faces that share an element.

  4. **The result (`faceGraph_enumerates`)** — the graph is collected just if there is room for it;
     no adjacency makes a face run out of places.
-/
import Condensation.Proofs.LinkedFaces
import Condensation.Proofs.SparseEntries
import Condensation.Proofs.Preparation

namespace Condensation

variable {S : Type}

/-! ## Listed faces -/

namespace FaceLinks

variable {nf n places : Nat} {l : List (Fin nf × Dense S n n)}

section Places

variable [Zero S] {links : FaceLinks S nf n places} {g : Fin nf}

/-- A place is taken by the face that is listed there. -/
theorem Holds.taken_iff (h : links.Holds l) {p : Fin places} :
    links.neighbors.get p = some g ↔ ∃ b, l[p.val]? = some (g, b) := by
  rw [h.neighbors, Option.map_eq_some_iff]
  constructor
  · rintro ⟨e, he, rfl⟩
    exact ⟨e.2, he⟩
  · rintro ⟨b, hb⟩
    exact ⟨(g, b), hb, rfl⟩

/-- The faces with a place are those that are listed. -/
theorem Holds.exists_taken_iff (h : links.Holds l) :
    (∃ p, links.neighbors.get p = some g) ↔ g ∈ l.map Prod.fst := by
  rw [List.mem_map]
  constructor
  · rintro ⟨p, hp⟩
    obtain ⟨b, hb⟩ := h.taken_iff.1 hp
    exact ⟨(g, b), List.mem_of_getElem? hb, rfl⟩
  · rintro ⟨e, he, rfl⟩
    obtain ⟨p, hp, rfl⟩ := List.mem_iff_getElem.1 he
    have hroom := h.fits
    exact ⟨⟨p, by omega⟩, h.taken_iff.2 ⟨l[p].2, List.getElem?_eq_getElem hp⟩⟩

/-- A face that is listed once has one place. -/
theorem Holds.place_unique (h : links.Holds l) (hnd : (l.map Prod.fst).Nodup) {p q : Fin places}
    (hp : links.neighbors.get p = some g) (hq : links.neighbors.get q = some g) : p = q := by
  have hkey : ∀ {p : Fin places}, links.neighbors.get p = some g →
      (l.map Prod.fst)[p.val]? = some g := by
    intro p hp
    rw [List.getElem?_map, ← h.neighbors, hp]
  obtain ⟨hlt, -⟩ := List.getElem?_eq_some_iff.1 (hkey hp)
  apply Fin.ext
  exact (List.getElem?_inj hlt hnd).1 ((hkey hp).trans (hkey hq).symm)

/-- Free places come last. -/
theorem Holds.taken_before (h : links.Holds l) {p q : Fin places} (hpq : p ≤ q)
    (hq : links.neighbors.get q ≠ none) : links.neighbors.get p ≠ none := by
  simp only [h.neighbors, ne_eq, Option.map_eq_none_iff, List.getElem?_eq_none_iff,
    Nat.not_le] at hq ⊢
  exact lt_of_le_of_lt hpq hq

end Places

section Weights

variable [NonAssocSemiring S]

/-- The weight that sees face `g` and column `j` only. -/
def seeing (g : Fin nf) (j : Fin n) : Fin nf → Fin n → S :=
  fun g' j' => if g' = g ∧ j' = j then 1 else 0

theorem sum_mul_seeing (g g' : Fin nf) (j : Fin n) (F : Fin n → S) :
    ∑ j', F j' * seeing g j g' j' = if g' = g then F j else 0 := by
  by_cases hg : g' = g
  · simp [seeing, hg]
  · simp [seeing, hg]

/-- Where no face is listed twice, such a weight sees one entry of one block. -/
theorem sum_pull_seeing (hnd : (l.map Prod.fst).Nodup) {e : Fin nf × Dense S n n} (he : e ∈ l)
    (i j : Fin n) : (l.map (pull (seeing e.1 j) i)).sum = e.2.entry i j := by
  let entries : List (Fin nf × S) := l.map fun e' => (e'.1, e'.2.entry i j)
  have hpull : l.map (pull (seeing e.1 j) i) =
      entries.map fun e' => if e'.1 = e.1 then e'.2 else 0 := by
    rw [List.map_map]
    exact List.map_congr_left fun e' _ => sum_mul_seeing e.1 e'.1 j _
  have hkeys : (entries.map Prod.fst).Nodup := by
    rw [List.map_map]
    exact hnd
  rw [hpull, ← sumAt_eq_sum]
  exact sumAt_of_mem hkeys (List.mem_map.2 ⟨e, he, rfl⟩)

end Weights

end FaceLinks

variable {disc : Discretization S}

/-! ## Faces of elements -/

/-- Face `g` takes a slot of element `e`. -/
def OnElement (disc : Discretization S) (e : Fin disc.ne) (g : Fin disc.nf) : Prop :=
  ∃ fi, (disc.adjacency.elementFaces e).get fi = some g

instance (disc : Discretization S) (e : Fin disc.ne) (g : Fin disc.nf) :
    Decidable (OnElement disc e g) :=
  inferInstanceAs (Decidable (∃ _, _))

/-- Two faces take slots of a common element. -/
def ShareElement (disc : Discretization S) (f g : Fin disc.nf) : Prop :=
  ∃ e, OnElement disc e f ∧ OnElement disc e g

instance (disc : Discretization S) (f g : Fin disc.nf) : Decidable (ShareElement disc f g) :=
  inferInstanceAs (Decidable (∃ _, _))

namespace Coupling

theorem elementFaces_eq_some_iff {e : Fin disc.ne} {fi : Fin disc.fpe} {g : Fin disc.nf} :
    (disc.adjacency.elementFaces e).get fi = some g ↔
      ⟨e, fi⟩ ∈ (disc.adjacency.faces.get g).localSides := by
  rw [← disc.adjacency.slot_iff, Adjacency.elementFaces, Pairing.get_part]
  rfl

/-- The elements of a face are those of its local sides. -/
theorem onElement_iff {e : Fin disc.ne} {g : Fin disc.nf} :
    OnElement disc e g ↔ ∃ side ∈ (disc.adjacency.faces.get g).localSides, side.element = e := by
  constructor
  · rintro ⟨fi, h⟩
    exact ⟨⟨e, fi⟩, elementFaces_eq_some_iff.1 h, rfl⟩
  · rintro ⟨side, hside, rfl⟩
    exact ⟨side.localFace, elementFaces_eq_some_iff.2 hside⟩

/-- Beside a face are the faces that share an element with it. -/
theorem mem_besides {f g : Fin disc.nf} :
    g ∈ besides disc f ↔
      ∃ side ∈ (disc.adjacency.faces.get f).localSides, OnElement disc side.element g := by
  unfold besides
  simp only [List.mem_flatMap, List.mem_map, Prod.exists, exists_eq_right, mem_facesOf,
    onElement_iff]
  constructor
  · rintro ⟨side, hside, other, he, hother⟩
    exact ⟨side, hside, other, hother, he⟩
  · rintro ⟨side, hside, other, hother, he⟩
    exact ⟨side, hside, other, he, hother⟩

theorem mem_besides_iff_shareElement {f g : Fin disc.nf} :
    g ∈ besides disc f ↔ ShareElement disc f g := by
  rw [mem_besides]
  constructor
  · rintro ⟨side, hside, hg⟩
    exact ⟨side.element, onElement_iff.2 ⟨side, hside, rfl⟩, hg⟩
  · rintro ⟨e, hf, hg⟩
    obtain ⟨side, hside, rfl⟩ := onElement_iff.1 hf
    exact ⟨side, hside, hg⟩

/-- A face has a first side, and so an element. -/
theorem mem_besides_self (f : Fin disc.nf) : f ∈ besides disc f := by
  have hfirst : (disc.adjacency.faces.get f).first ∈ (disc.adjacency.faces.get f).localSides := by
    unfold Face.localSides
    split <;> simp
  exact mem_besides.2 ⟨_, hfirst, onElement_iff.2 ⟨_, hfirst, rfl⟩⟩

/-- The faces coupled to a face are those beside it. -/
theorem mem_keys_coupled [Zero S] [Add S] [Mul S] {c presolved : Coupling disc}
    {f g : Fin disc.nf} :
    g ∈ (coupled c presolved f).map Prod.fst ↔ g ∈ besides disc f := by
  unfold coupled
  rw [FaceLinks.mem_keys_foldl_extend, faces_products]
  simp

/-! ## Blocks -/

/-- A sum over the faces of an element that sees one face only. -/
theorem sum_facesOf_eq {M : Type} [AddCommMonoid M] (e : Fin disc.ne) (g : Fin disc.nf)
    (F : Slot disc.ne disc.fpe → M) :
    ((facesOf disc e).map fun other => if other.2 = g then F other.1 else 0).sum =
      ∑ fj, if (disc.adjacency.elementFaces e).get fj = some g then F ⟨e, fj⟩ else 0 := by
  rw [facesOf, sum_filterMap, ← List.ofFn_eq_map, List.sum_ofFn]
  refine Finset.sum_congr rfl fun fi _ => ?_
  cases (disc.adjacency.elementFaces e).get fi with
  | none => simp
  | some h => simp

section Blocks

variable [NonAssocSemiring S]

/-- Entry `(i, j)` of what the sides of face `f` contribute to the block of face `g`: one product
    for every slot of `g` in the element of the side. -/
def sharedProducts (c presolved : Coupling disc) (f g : Fin disc.nf) (i j : Fin disc.n) : S :=
  ((disc.adjacency.faces.get f).localSides.map fun side =>
    ∑ fj, if (disc.adjacency.elementFaces side.element).get fj = some g then
      ∑ k, (c.block side).entry k i * (presolved.block ⟨side.element, fj⟩).entry k j
    else 0).sum

/-- **The crux**: the block of a listed face is the sum of the products that were linked for it. -/
theorem entry_of_coupled {c presolved : Coupling disc} {f : Fin disc.nf}
    {e : Fin disc.nf × Dense S disc.n disc.n} (he : e ∈ coupled c presolved f)
    (i j : Fin disc.n) : e.2.entry i j = sharedProducts c presolved f e.1 i j := by
  rw [← FaceLinks.sum_pull_seeing (nodup_coupled c presolved f) he i j, coupled,
    FaceLinks.sum_linked, products, List.map_flatMap, List.flatMap, List.sum_flatten, List.map_map]
  unfold sharedProducts
  congr 1
  refine List.map_congr_left fun side _ => ?_
  rw [← sum_facesOf_eq side.element e.1 fun other =>
    ∑ k, (c.block side).entry k i * (presolved.block other).entry k j]
  simp only [Function.comp_apply, List.map_map]
  congr 1
  exact List.map_congr_left fun other _ => FaceLinks.sum_mul_seeing e.1 other.2 j _

end Blocks

/-! ## Places -/

/-- What the places of face `f` hold: the taken ones come first, with different faces, just those
    of its elements and itself among them; each block is the sum of the products of its face; and
    free places hold zero. -/
structure Enumerates [NonAssocSemiring S] {places : Nat} (c presolved : Coupling disc)
    (f : Fin disc.nf) (links : FaceLinks S disc.nf disc.n places) : Prop where
  front : ∀ p q : Fin places, p ≤ q → links.neighbors.get q ≠ none →
    links.neighbors.get p ≠ none
  different : ∀ p q g, links.neighbors.get p = some g → links.neighbors.get q = some g → p = q
  own : ∃ p, links.neighbors.get p = some f
  coupled : ∀ g, (∃ p, links.neighbors.get p = some g) ↔
    ∃ side ∈ (disc.adjacency.faces.get f).localSides, OnElement disc side.element g
  block : ∀ p g, links.neighbors.get p = some g → ∀ i j,
    (links.blocks.get p).entry i j = sharedProducts c presolved f g i j
  free : ∀ p, links.neighbors.get p = none → links.blocks.get p = .zero

/-- Places that hold the list of coupled faces do. -/
theorem enumerates_of_holds [NonAssocSemiring S] {places : Nat} {c presolved : Coupling disc}
    {f : Fin disc.nf} {links : FaceLinks S disc.nf disc.n places}
    (h : links.Holds (coupled c presolved f)) : Enumerates c presolved f links := by
  constructor
  case front => exact fun p q hpq hq => h.taken_before hpq hq
  case different => exact fun p q g hp hq => h.place_unique (nodup_coupled c presolved f) hp hq
  case own => exact h.exists_taken_iff.2 (mem_keys_coupled.2 (mem_besides_self f))
  case coupled =>
    intro g
    rw [h.exists_taken_iff, mem_keys_coupled, mem_besides]
  case block =>
    intro p g hp i j
    obtain ⟨b, hb⟩ := h.taken_iff.1 hp
    rw [h.blocks, hb]
    exact entry_of_coupled (List.mem_of_getElem? hb) i j
  case free =>
    intro p hp
    rw [h.neighbors, Option.map_eq_none_iff] at hp
    rw [h.blocks, hp]
    rfl

/-! ## Counting -/

section Counting

variable [Zero S] [Add S] [Mul S] {c presolved : Coupling disc} {s : Schedule}
  {graph : FaceGraph S disc.nf disc.n}

/-- As many faces are coupled to a face as share an element with it. -/
theorem length_coupled (c presolved : Coupling disc) (f : Fin disc.nf) :
    (coupled c presolved f).length =
      (Finset.univ.filter fun g => ShareElement disc f g).card := by
  have hkeys : ((coupled c presolved f).map Prod.fst).toFinset =
      Finset.univ.filter fun g => ShareElement disc f g := by
    ext g
    rw [List.mem_toFinset, mem_keys_coupled, mem_besides_iff_shareElement]
    simp
  rw [← hkeys, List.toFinset_card_of_nodup (nodup_coupled c presolved f), List.length_map]

/-- **Counting**: the links of a graph are the ordered pairs of faces that share an element. -/
theorem numLinks_eq (h : c.faceGraph s presolved = .ok graph) :
    graph.numLinks =
      (Finset.univ.filter fun q : Fin disc.nf × Fin disc.nf => ShareElement disc q.1 q.2).card := by
  have hcounts : graph.faces.toList.map FaceLinks.count =
      List.ofFn fun f => (Finset.univ.filter fun g => ShareElement disc f g).card := by
    refine List.ext_getElem (by simp) fun p hp hp' => ?_
    have hf : p < disc.nf := by simpa using hp'
    rw [List.getElem_map, List.getElem_ofFn, Vector.getElem_toList]
    show (graph.faces.get ⟨p, hf⟩).count = _
    rw [(holds_faceGraph h ⟨p, hf⟩).count_eq, length_coupled]
  rw [FaceGraph.numLinks, hcounts, ← List.sum_eq_foldr, List.sum_ofFn]
  simp only [Finset.card_filter, Fintype.sum_prod_type]

end Counting

/-! ## The result -/

/-- A graph is collected, or there is no room for it and the run aborts. -/
theorem faceGraph_cases [Zero S] [Add S] [Mul S] (hpos : 0 < disc.fpe) (c presolved : Coupling disc)
    (s : Schedule) :
    (RoomForLinks disc ∧ ∃ graph, c.faceGraph s presolved = .ok graph) ∨
      (¬ RoomForLinks disc ∧ c.faceGraph s presolved = .abort) := by
  by_cases hroom : RoomForLinks disc
  · exact .inl ⟨hroom, faceGraph_returns hroom hpos c presolved s⟩
  · refine .inr ⟨hroom, ?_⟩
    unfold faceGraph
    -- size after size is in range or aborts; with all of them in range there would be room
    by_cases hfaces : 2 * disc.fpe < Size.limit
    · rw [Mesh.placesPerFace_returns hpos hfaces, Outcome.ok_bind]
      rcases Size.product_cases [disc.n, disc.n] with ⟨-, harea⟩ | ⟨-, harea⟩
      · rw [harea]
        rfl
      rw [harea, Outcome.ok_bind]
      simp only [List.foldl_cons, List.foldl_nil, Nat.one_mul]
      rcases Size.product_cases [disc.nf, 2 * disc.fpe - 1, disc.n * disc.n] with
        ⟨-, hall⟩ | ⟨-, hall⟩
      · rw [hall]
        rfl
      rw [hall, Outcome.ok_bind]
      simp only [List.foldl_cons, List.foldl_nil, Nat.one_mul]
      by_cases htable : disc.nf * (2 * disc.fpe - 1) * (disc.n * disc.n) < Size.tableLimit
      · rcases Size.product_cases [2 * disc.fpe - 1, disc.n * disc.n] with
          ⟨-, hone⟩ | ⟨hone, -⟩
        · rw [hone, show Size.table _ = .ok () from Outcome.check_eq_ok_iff.2 htable]
          rfl
        · simp only [Size.InRange, Nat.one_mul] at hone
          exact absurd ⟨hfaces, hone.2.1, htable⟩ hroom
      · rw [show Size.table _ = .abort from if_neg htable]
        rfl
    · rw [Mesh.placesPerFace_aborts hfaces]
      rfl

/-- **The result**: with room for it the graph is collected, and without room the run aborts; no
    face is ever refused.  The places of every face enumerate the faces that share an element with
    it, and the links of the graph are the ordered pairs of such faces. -/
theorem faceGraph_enumerates [NonAssocSemiring S] (hvalid : disc.mesh.validate = .ok ())
    (c presolved : Coupling disc) (s : Schedule) :
    ((RoomForLinks disc ∧ ∃ graph, c.faceGraph s presolved = .ok graph) ∨
      (¬ RoomForLinks disc ∧ c.faceGraph s presolved = .abort)) ∧
    ∀ graph, c.faceGraph s presolved = .ok graph →
      graph.places = 2 * disc.fpe - 1 ∧
      (∀ f, Enumerates c presolved f (graph.faces.get f) ∧
        (graph.faces.get f).count ≤ 2 * disc.fpe - 1) ∧
      graph.numLinks = (Finset.univ.filter fun q : Fin disc.nf × Fin disc.nf =>
        ∃ e, OnElement disc e q.1 ∧ OnElement disc e q.2).card := by
  refine ⟨faceGraph_cases (Mesh.facesPerElement_pos hvalid) c presolved s, fun graph hgraph => ?_⟩
  have hplaces := (of_faceGraph hgraph).1
  refine ⟨hplaces, fun f => ?_, numLinks_eq hgraph⟩
  have hholds := holds_faceGraph hgraph f
  refine ⟨enumerates_of_holds hholds, ?_⟩
  rw [hholds.count_eq, ← hplaces]
  exact hholds.fits

/-- Two elements with three faces each: two faces of the first one are glued to each other, one face
    lies between the elements, and one face of the second one is shared with another rank. -/
def gluedElements : Discretization ℚ where
  mesh := ⟨2, 2, 3, ⟨true, true, false⟩⟩
  adjacency :=
    { numFaces := 3
      slots := #v[some 0, some 0, some 1, some 1, some 2, none]
      faces := #v[⟨⟨⟨0, Nat.zero_lt_two⟩, 0⟩, .inside ⟨⟨0, Nat.zero_lt_two⟩, 1⟩⟩,
        ⟨⟨⟨0, Nat.zero_lt_two⟩, 2⟩, .inside ⟨⟨1, Nat.one_lt_two⟩, 0⟩⟩,
        ⟨⟨⟨1, Nat.one_lt_two⟩, 1⟩, .remote 4 0⟩]
      slot_iff := by
        rintro ⟨e, i⟩ f
        revert e i f
        decide
      sides_nodup := by decide }
  flux := ⟨1, 2, .ofFn fun k : Fin 2 => .plus k, none⟩
  trace := ⟨1, 3, #v[0, 1, 2], none, Nat.zero_lt_one⟩

/-- The face whose two sides are on the first element. -/
def gluedFace : Fin gluedElements.nf := ⟨0, by decide⟩

/-- The face between the two elements. -/
def faceBetween : Fin gluedElements.nf := ⟨1, by decide⟩

/-- So it is for them: the face between the elements is coupled to all three faces, and the two
    slots of the glued face share one block. -/
theorem faceGraph_enumerates_glued :
    let c : Coupling gluedElements := ⟨.ofFn fun k => .ofFn fun _ _ => k.val + 1⟩
    let presolved : Coupling gluedElements := ⟨.ofFn fun k => .ofFn fun _ _ => 10 * (k.val + 1)⟩
    ∃ graph, c.faceGraph .backwards presolved = .ok graph ∧ graph.places = 5 ∧
      graph.numLinks = 7 ∧ (∀ f, Enumerates c presolved f (graph.faces.get f)) ∧
      ∃ p, (graph.faces.get faceBetween).neighbors.get p = some gluedFace ∧
        ∀ i j, ((graph.faces.get faceBetween).blocks.get p).entry i j = 3 * (10 + 20) := by
  intro c presolved
  have hroom : RoomForLinks gluedElements := ⟨by decide, by decide, by decide⟩
  obtain ⟨hcases, hgraphs⟩ :=
    faceGraph_enumerates (show gluedElements.mesh.validate = .ok () from rfl) c presolved .backwards
  rcases hcases with ⟨-, graph, hgraph⟩ | ⟨hnone, -⟩
  · obtain ⟨hplaces, hfaces, hlinks⟩ := hgraphs graph hgraph
    have hbetween := (hfaces faceBetween).1
    obtain ⟨p, hp⟩ := (hbetween.coupled gluedFace).2 (by decide)
    refine ⟨graph, hgraph, hplaces, hlinks.trans (by decide), fun f => (hfaces f).1, p, hp, ?_⟩
    intro i j
    rw [hbetween.block p gluedFace hp]
    revert i j
    decide +kernel
  · exact absurd hroom hnone

end Coupling

end Condensation
