/-
  Linked faces — what the places of a face hold.

  1. **Lists** — the taken places of a face come first, so they are a list of faces with blocks
     (`Holds`).  Linking one more product is `extend`: the product is added to the block of its
     face, and a face that is not listed yet goes behind all others (`holds_link`).

  2. **Room (`holds_linksOf`)** — the listed faces are different, and all of them occur in an
     element of the face.  The face itself occurs in both of its elements, so at least one of all
     these slots repeats another one, and the places suffice.

  3. **Meaning (`sum_linked`)** — weighted and added up, the listed blocks are the products that
     were linked.  Which products share a block does not matter.
-/
import Condensation.Interface.FaceGraph
import Condensation.Proofs.Scheduling
import Condensation.Proofs.Operators
import Condensation.Proofs.FaceSlots
import Condensation.Proofs.Sizes

namespace Condensation

/-! ## Places -/

namespace Mesh

/-- All faces of two elements but one. -/
theorem placesPerFace_returns {mesh : Mesh} (hpos : 0 < mesh.facesPerElement)
    (h : 2 * mesh.facesPerElement < Size.limit) :
    mesh.placesPerFace = .ok (2 * mesh.facesPerElement - 1) := by
  have hboth : Size.product [2, mesh.facesPerElement] = .ok (2 * mesh.facesPerElement) :=
    Size.product_eq_ok_iff.2 (by simp [Size.InRange, h])
  rw [placesPerFace, hboth, Outcome.ok_bind, if_neg (by omega)]

theorem placesPerFace_aborts {mesh : Mesh} (h : ¬ 2 * mesh.facesPerElement < Size.limit) :
    mesh.placesPerFace = .abort := by
  simp [placesPerFace, Size.product, h]

theorem placesPerFace_eq {mesh : Mesh} {places : Nat} (h : mesh.placesPerFace = .ok places) :
    places = 2 * mesh.facesPerElement - 1 := by
  unfold placesPerFace at h
  obtain ⟨both, hboth, h⟩ := Outcome.bind_eq_ok_iff.1 h
  have hproduct : both = 2 * mesh.facesPerElement := (Size.product_eq_ok_iff.1 hboth).2.symm
  split at h
  · simp at h
  · simp only [Outcome.ok.injEq] at h
    omega

end Mesh

variable {S : Type}

/-- A product `leftᵀ right` for the block of a face. -/
structure LinkedProduct (S : Type) (nf m n : Nat) where
  face : Fin nf
  left : Dense S m n
  right : Dense S m n

namespace FaceLinks

variable {nf m n places : Nat}

/-! ## Lists -/

/-- Where face `g` is listed, or the end of the list. -/
def rank (l : List (Fin nf × Dense S n n)) (g : Fin nf) : Nat :=
  l.findIdx fun e => e.1 = g

theorem rank_le (l : List (Fin nf × Dense S n n)) (g : Fin nf) : rank l g ≤ l.length :=
  List.findIdx_le_length

/-- The places hold the listed faces and blocks, and behind them nothing. -/
structure Holds [Zero S] (links : FaceLinks S nf n places) (l : List (Fin nf × Dense S n n)) :
    Prop where
  fits : l.length ≤ places
  neighbors : ∀ p : Fin places, links.neighbors.get p = (l[p.val]?).map Prod.fst
  blocks : ∀ p : Fin places, links.blocks.get p = (l[p.val]?).elim .zero Prod.snd

theorem holds_free [Zero S] : (free : FaceLinks S nf n places).Holds [] where
  fits := Nat.zero_le _
  neighbors p := by simp [free]
  blocks p := by simp [free]

/-- The first place for a face is the one where it is listed, or the first free one. -/
theorem Holds.placeFor [Zero S] {links : FaceLinks S nf n places} {l : List (Fin nf × Dense S n n)}
    (h : links.Holds l) (g : Fin nf) (hroom : rank l g < places) :
    links.placeFor g = some ⟨rank l g, hroom⟩ := by
  refine List.find?_eq_some_iff_getElem.2 ⟨?_, rank l g, by simpa using hroom, by simp, ?_⟩
  · rw [h.neighbors]
    rcases Nat.lt_or_ge (rank l g) l.length with hlt | hge
    · have := @List.findIdx_getElem _ _ l hlt
      simp only [List.getElem?_eq_getElem hlt, Option.map_some]
      exact this
    · simp [List.getElem?_eq_none hge]
  · intro j hj
    have hlt : j < l.length := Nat.lt_of_lt_of_le hj (rank_le l g)
    have := @List.not_of_lt_findIdx _ _ l _ hj
    rw [List.getElem_finRange, h.neighbors]
    simpa [List.getElem?_eq_getElem hlt] using this

/-- The listed faces take the first places, and the others are free. -/
theorem Holds.toList_neighbors [Zero S] {links : FaceLinks S nf n places}
    {l : List (Fin nf × Dense S n n)} (h : links.Holds l) :
    links.neighbors.toList =
      l.map (fun e => some e.1) ++ List.replicate (places - l.length) none := by
  refine List.ext_getElem (by simp; have := h.fits; omega) fun p h1 h2 => ?_
  have hp : p < places := by simpa using h1
  have := h.neighbors ⟨p, hp⟩
  rw [Vector.getElem_toList]
  show links.neighbors.get ⟨p, hp⟩ = _
  rw [this]
  rcases Nat.lt_or_ge p l.length with hlt | hge
  · rw [List.getElem_append_left (by simpa using hlt)]
    simp [List.getElem?_eq_getElem hlt]
  · rw [List.getElem_append_right (by simpa using hge)]
    simp [List.getElem?_eq_none hge]

/-- What is listed is what is read off the places. -/
theorem Holds.linked_eq [Zero S] {links : FaceLinks S nf n places} {l : List (Fin nf × Dense S n n)}
    (h : links.Holds l) : links.linked = l := by
  have hkeys : (links.neighbors.toList.takeWhile (·.isSome)).filterMap id = l.map Prod.fst := by
    have taken : ∀ a ∈ l.map fun e => some e.1, a.isSome = true := by
      intro a ha
      obtain ⟨e, -, rfl⟩ := List.mem_map.1 ha
      rfl
    rw [h.toList_neighbors, List.takeWhile_append_of_pos taken]
    simp [List.filterMap_map]
  have hblocks : links.blocks.toList.take l.length = l.map Prod.snd := by
    refine List.ext_getElem (by simp; exact h.fits) fun p h1 h2 => ?_
    have hlt : p < l.length := by simpa using h2
    have hp : p < places := Nat.lt_of_lt_of_le hlt h.fits
    rw [List.getElem_take, Vector.getElem_toList]
    show links.blocks.get ⟨p, hp⟩ = _
    rw [h.blocks]
    simp [List.getElem?_eq_getElem hlt]
  have hmin : min (l.map Prod.fst).length links.blocks.toList.length = l.length := by
    simp [h.fits]
  rw [linked, hkeys, List.zip_eq_zip_take_min, hmin, hblocks, List.take_of_length_le (by simp),
    List.zip_map']
  simp

/-- The taken places are those that are listed. -/
theorem Holds.count_eq [Zero S] {links : FaceLinks S nf n places}
    {l : List (Fin nf × Dense S n n)} (h : links.Holds l) : links.count = l.length := by
  rw [count, h.toList_neighbors, List.countP_append, List.countP_map]
  simp [Function.comp_def, List.countP_replicate]

/-! ## Products -/

section Products

variable [Zero S] [Add S] [Mul S]

/-- The list with one more product. -/
def extend : List (Fin nf × Dense S n n) → LinkedProduct S nf m n → List (Fin nf × Dense S n n)
  | [], t => [(t.face, t.left.addTransposeProduct t.right .zero)]
  | e :: rest, t =>
    if e.1 = t.face then (t.face, t.left.addTransposeProduct t.right e.2) :: rest
    else e :: extend rest t

theorem getElem?_extend (l : List (Fin nf × Dense S n n)) (t : LinkedProduct S nf m n) (p : Nat) :
    (extend l t)[p]? =
      if p = rank l t.face then
        some (t.face, t.left.addTransposeProduct t.right ((l[p]?).elim .zero Prod.snd))
      else l[p]? := by
  induction l generalizing p with
  | nil => cases p <;> simp [extend, rank]
  | cons e rest ih =>
    unfold extend
    by_cases he : e.1 = t.face
    · cases p <;> simp [rank, List.findIdx_cons, he]
    · have hrank : rank (e :: rest) t.face = rank rest t.face + 1 := by
        simp [rank, List.findIdx_cons, he]
      rw [if_neg he, hrank]
      cases p with
      | zero => simp
      | succ p => simp [ih p]

/-- A listed face keeps its place; another one goes behind all. -/
theorem keys_extend (l : List (Fin nf × Dense S n n)) (t : LinkedProduct S nf m n) :
    (extend l t).map Prod.fst =
      if t.face ∈ l.map Prod.fst then l.map Prod.fst else l.map Prod.fst ++ [t.face] := by
  induction l with
  | nil => simp [extend]
  | cons e rest ih =>
    unfold extend
    by_cases he : e.1 = t.face
    · simp [he]
    · rw [if_neg he, List.map_cons, ih]
      have hmem : t.face ∈ (e :: rest).map Prod.fst ↔ t.face ∈ rest.map Prod.fst := by
        rw [List.map_cons, List.mem_cons]
        exact or_iff_right fun h => he h.symm
      by_cases hin : t.face ∈ rest.map Prod.fst
      · rw [if_pos hin, if_pos (hmem.2 hin)]
        rfl
      · rw [if_neg hin, if_neg fun h => hin (hmem.1 h)]
        rfl

theorem nodup_extend {l : List (Fin nf × Dense S n n)} (h : (l.map Prod.fst).Nodup)
    (t : LinkedProduct S nf m n) : ((extend l t).map Prod.fst).Nodup := by
  rw [keys_extend]
  split
  · exact h
  · next hnew =>
    refine List.nodup_append.2 ⟨h, List.nodup_singleton _, ?_⟩
    intro a ha b hb
    rw [List.mem_singleton] at hb
    rintro rfl
    exact hnew (hb ▸ ha)

theorem mem_keys_extend {l : List (Fin nf × Dense S n n)} {t : LinkedProduct S nf m n}
    {g : Fin nf} :
    g ∈ (extend l t).map Prod.fst ↔ g ∈ l.map Prod.fst ∨ g = t.face := by
  rw [keys_extend]
  split
  · next hold => exact ⟨.inl, fun h => h.elim id fun e => e ▸ hold⟩
  · rw [List.mem_append, List.mem_singleton]

/-- After some products no face is listed twice. -/
theorem nodup_foldl_extend {l : List (Fin nf × Dense S n n)} (h : (l.map Prod.fst).Nodup)
    (products : List (LinkedProduct S nf m n)) :
    ((products.foldl extend l).map Prod.fst).Nodup := by
  induction products generalizing l with
  | nil => exact h
  | cons t rest ih => exact ih (nodup_extend h t)

/-- Then the faces of the products are listed. -/
theorem mem_keys_foldl_extend {l : List (Fin nf × Dense S n n)}
    {products : List (LinkedProduct S nf m n)} {g : Fin nf} :
    g ∈ (products.foldl extend l).map Prod.fst ↔
      g ∈ l.map Prod.fst ∨ g ∈ products.map (·.face) := by
  induction products generalizing l with
  | nil => simp
  | cons t rest ih =>
    rw [List.foldl_cons, ih, mem_keys_extend, List.map_cons, List.mem_cons, or_assoc]

/-- **Lists**: with room for it, a product is linked as `extend` says. -/
theorem holds_link {links : FaceLinks S nf n places} {l : List (Fin nf × Dense S n n)}
    (h : links.Holds l) (t : LinkedProduct S nf m n) (hroom : (extend l t).length ≤ places) :
    ∃ next, links.link t.face t.left t.right = some next ∧ next.Holds (extend l t) := by
  have hrank : rank l t.face < places := by
    have hget := getElem?_extend l t (rank l t.face)
    rw [if_pos rfl] at hget
    obtain ⟨hlt, -⟩ := List.getElem?_eq_some_iff.1 hget
    omega
  refine ⟨_, by rw [link, h.placeFor t.face hrank]; rfl, hroom, fun p => ?_, fun p => ?_⟩
  · rw [getElem?_extend]
    by_cases hp : p.val = rank l t.face
    · have : p = ⟨rank l t.face, hrank⟩ := Fin.ext hp
      rw [if_pos hp, this, Vector.get_put_self]
      rfl
    · rw [if_neg hp, Vector.get_put_of_ne _ _ fun e => hp (congrArg Fin.val e).symm]
      exact h.neighbors p
  · rw [getElem?_extend]
    by_cases hp : p.val = rank l t.face
    · have : p = ⟨rank l t.face, hrank⟩ := Fin.ext hp
      rw [if_pos hp, this, Vector.get_put_self, h.blocks]
      rfl
    · rw [if_neg hp, Vector.get_put_of_ne _ _ fun e => hp (congrArg Fin.val e).symm]
      exact h.blocks p

/-- Products can be linked one after another, as long as their faces find room. -/
theorem holds_foldlM_link {links : FaceLinks S nf n places} {l : List (Fin nf × Dense S n n)}
    (h : links.Holds l) (hnd : (l.map Prod.fst).Nodup) (products : List (LinkedProduct S nf m n))
    (hroom : ∀ ks : List (Fin nf), ks.Nodup →
      ks ⊆ l.map Prod.fst ++ products.map (·.face) → ks.length ≤ places) :
    ∃ final, products.foldlM (fun links t => links.link t.face t.left t.right) links =
      some final ∧ final.Holds (products.foldl extend l) := by
  induction products generalizing links l with
  | nil => exact ⟨links, rfl, h⟩
  | cons t rest ih =>
    have hnd' := nodup_extend hnd t
    have sub : (extend l t).map Prod.fst ⊆ l.map Prod.fst ++ (t :: rest).map (·.face) := by
      intro g hg
      rw [List.mem_append, List.map_cons, List.mem_cons]
      rcases mem_keys_extend.1 hg with hg | hg
      · exact .inl hg
      · exact .inr (.inl hg)
    have hlen : (extend l t).length ≤ places := by
      have := hroom _ hnd' sub
      rwa [List.length_map] at this
    obtain ⟨next, hlink, hnext⟩ := holds_link h t hlen
    obtain ⟨final, hrun, hfinal⟩ := ih hnext hnd' fun ks hks hsub => by
      refine hroom ks hks fun g hg => ?_
      rcases List.mem_append.1 (hsub hg) with hg | hg
      · exact sub hg
      · exact List.mem_append_right _ (List.mem_cons_of_mem _ hg)
    refine ⟨final, ?_, hfinal⟩
    rw [List.foldlM_cons, hlink]
    exact hrun

end Products

/-! ## Meaning -/

section Meaning

variable [NonUnitalNonAssocSemiring S]

/-- Row `i` of the block of a listed face, applied to the values `w` on the faces. -/
def pull (w : Fin nf → Fin n → S) (i : Fin n) (e : Fin nf × Dense S n n) : S :=
  ∑ j, e.2.entry i j * w e.1 j

theorem sum_extend (w : Fin nf → Fin n → S) (i : Fin n) (l : List (Fin nf × Dense S n n))
    (t : LinkedProduct S nf m n) :
    ((extend l t).map (pull w i)).sum = (l.map (pull w i)).sum +
      ∑ j, (∑ p, t.left.entry p i * t.right.entry p j) * w t.face j := by
  have grown : ∀ b : Dense S n n, pull w i (t.face, t.left.addTransposeProduct t.right b) =
      pull w i (t.face, b) + ∑ j, (∑ p, t.left.entry p i * t.right.entry p j) * w t.face j := by
    intro b
    simp only [pull, Dense.entry_addTransposeProduct, add_mul, Finset.sum_add_distrib]
  induction l with
  | nil =>
    have hzero : pull w i (t.face, (.zero : Dense S n n)) = 0 := by simp [pull]
    simp [extend, grown, hzero]
  | cons e rest ih =>
    unfold extend
    by_cases he : e.1 = t.face
    · rw [if_pos he, List.map_cons, List.sum_cons, grown, List.map_cons, List.sum_cons, ← he,
        add_right_comm]
    · rw [if_neg he, List.map_cons, List.sum_cons, ih, List.map_cons, List.sum_cons, add_assoc]

/-- **Meaning**: weighted and added up, the listed blocks are the products that were linked. -/
theorem sum_linked (w : Fin nf → Fin n → S) (i : Fin n) (products : List (LinkedProduct S nf m n)) :
    ((products.foldl extend []).map (pull w i)).sum = (products.map fun t =>
      ∑ j, (∑ p, t.left.entry p i * t.right.entry p j) * w t.face j).sum := by
  have all : ∀ l : List (Fin nf × Dense S n n),
      ((products.foldl extend l).map (pull w i)).sum = (l.map (pull w i)).sum +
        (products.map fun t =>
          ∑ j, (∑ p, t.left.entry p i * t.right.entry p j) * w t.face j).sum := by
    induction products with
    | nil => simp
    | cons t rest ih =>
      intro l
      rw [List.foldl_cons, ih, sum_extend, List.map_cons, List.sum_cons, add_assoc]
  simpa using all []

end Meaning

end FaceLinks

/-! ## All faces -/

namespace Coupling

variable {disc : Discretization S}

/-- What is linked to face `f`, side after side. -/
def products (c presolved : Coupling disc) (f : Fin disc.nf) :
    List (LinkedProduct S disc.nf disc.m disc.n) :=
  (disc.adjacency.faces.get f).localSides.flatMap fun side =>
    (facesOf disc side.element).map fun other =>
      ⟨other.2, c.block side, presolved.block other.1⟩

theorem faces_products (c presolved : Coupling disc) (f : Fin disc.nf) :
    (products c presolved f).map (·.face) = besides disc f := by
  simp [products, besides, List.map_flatMap, Function.comp_def]

variable [Zero S] [Add S] [Mul S]

/-- The faces coupled to face `f`, each once, with their blocks. -/
def coupled (c presolved : Coupling disc) (f : Fin disc.nf) :
    List (Fin disc.nf × Dense S disc.n disc.n) :=
  (products c presolved f).foldl FaceLinks.extend []

/-- No face is listed twice among those coupled to a face. -/
theorem nodup_coupled (c presolved : Coupling disc) (f : Fin disc.nf) :
    ((coupled c presolved f).map Prod.fst).Nodup :=
  FaceLinks.nodup_foldl_extend (by simp) _

theorem linksOf_eq {places : Nat} (c presolved : Coupling disc) (f : Fin disc.nf) :
    (linksOf c presolved f : Option (FaceLinks S disc.nf disc.n places)) =
      (products c presolved f).foldlM (fun links t => links.link t.face t.left t.right) .free := by
  unfold linksOf products
  generalize (FaceLinks.free : FaceLinks S disc.nf disc.n places) = links
  induction (disc.adjacency.faces.get f).localSides generalizing links with
  | nil => rfl
  | cons side rest ih =>
    rw [List.foldlM_cons, List.flatMap_cons, List.foldlM_append, List.foldlM_map]
    exact bind_congr fun next => ih next

/-- **Room**: the places suffice for every face. -/
theorem holds_linksOf {places : Nat} (hplaces : 2 * disc.fpe - 1 ≤ places)
    (c presolved : Coupling disc) (f : Fin disc.nf) :
    ∃ links : FaceLinks S disc.nf disc.n places, linksOf c presolved f = some links ∧
      links.Holds (coupled c presolved f) := by
  rw [linksOf_eq]
  refine FaceLinks.holds_foldlM_link FaceLinks.holds_free (by simp) _ fun ks hnd hsub => ?_
  rw [faces_products] at hsub
  exact le_trans (length_besides_le f ks hnd hsub) hplaces

/-- A collected graph has the places of two elements but one, and the links of every face. -/
theorem of_faceGraph {c presolved : Coupling disc} {s : Schedule}
    {graph : FaceGraph S disc.nf disc.n} (h : c.faceGraph s presolved = .ok graph) :
    graph.places = 2 * disc.fpe - 1 ∧ ∀ f, linksOf c presolved f = some (graph.faces.get f) := by
  unfold faceGraph at h
  obtain ⟨places, hplaces, h⟩ := Outcome.bind_eq_ok_iff.1 h
  obtain ⟨area, -, h⟩ := Outcome.bind_eq_ok_iff.1 h
  obtain ⟨scalars, -, h⟩ := Outcome.bind_eq_ok_iff.1 h
  obtain ⟨-, -, h⟩ := Outcome.bind_eq_ok_iff.1 h
  obtain ⟨-, -, h⟩ := Outcome.bind_eq_ok_iff.1 h
  obtain ⟨found, hfound, h⟩ := Outcome.bind_eq_ok_iff.1 h
  obtain ⟨faces, hfaces, h⟩ := Outcome.bind_eq_ok_iff.1 h
  obtain rfl : (⟨places, faces⟩ : FaceGraph S disc.nf disc.n) = graph := by simpa using h
  refine ⟨Mesh.placesPerFace_eq hplaces, fun f => ?_⟩
  have hlinks : linksOf c presolved f = found.get f := by
    simpa using s.each_eq_ok_iff.1 hfound f
  rw [hlinks]
  exact Outcome.orFault_eq_ok_iff.1 (Outcome.tabulate_eq_ok_iff.1 hfaces f)

/-- What a collected graph holds at every face. -/
theorem holds_faceGraph {c presolved : Coupling disc} {s : Schedule}
    {graph : FaceGraph S disc.nf disc.n} (h : c.faceGraph s presolved = .ok graph)
    (f : Fin disc.nf) : (graph.faces.get f).Holds (coupled c presolved f) := by
  obtain ⟨hplaces, hlinks⟩ := of_faceGraph h
  obtain ⟨links, hsome, holds⟩ := holds_linksOf hplaces.ge c presolved f
  obtain rfl : links = graph.faces.get f := Option.some.inj (hsome.symm.trans (hlinks f))
  exact holds

/-- There is room in memory for the blocks of all faces, and their numbers stay in range. -/
structure RoomForLinks (disc : Discretization S) : Prop where
  faces : 2 * disc.fpe < Size.limit
  one : (2 * disc.fpe - 1) * (disc.n * disc.n) < Size.limit
  all : disc.nf * (2 * disc.fpe - 1) * (disc.n * disc.n) < Size.tableLimit

/-- With room for the blocks, the graph is collected. -/
theorem faceGraph_returns (hroom : RoomForLinks disc) (hpos : 0 < disc.fpe)
    (c presolved : Coupling disc) (s : Schedule) :
    ∃ graph, c.faceGraph s presolved = .ok graph := by
  obtain ⟨hfaces, hone, hall⟩ := hroom
  have hn := disc.trace.dofsPerFace_pos
  have hplaces : disc.mesh.placesPerFace = .ok (2 * disc.fpe - 1) :=
    Mesh.placesPerFace_returns hpos hfaces
  -- the partial products lie below the complete ones
  have hp : 0 < 2 * disc.fpe - 1 := by omega
  have hnn : 0 < disc.n * disc.n := Nat.mul_pos hn hn
  have h1 : disc.n ≤ disc.n * disc.n := Nat.le_mul_of_pos_left _ hn
  have h2 : disc.n * disc.n ≤ (2 * disc.fpe - 1) * (disc.n * disc.n) :=
    Nat.le_mul_of_pos_left _ hp
  have h3 : disc.nf ≤ disc.nf * (2 * disc.fpe - 1) := Nat.le_mul_of_pos_right _ hp
  have h4 : disc.nf * (2 * disc.fpe - 1) ≤ disc.nf * (2 * disc.fpe - 1) * (disc.n * disc.n) :=
    Nat.le_mul_of_pos_right _ hnn
  have h5 : 2 * disc.fpe - 1 ≤ (2 * disc.fpe - 1) * (disc.n * disc.n) :=
    Nat.le_mul_of_pos_right _ hnn
  have hlimits : Size.tableLimit < Size.limit := by decide
  have harea : Size.product [disc.n, disc.n] = .ok (disc.n * disc.n) :=
    Size.product_eq_ok_iff.2 (by simp [Size.InRange]; omega)
  have hscalars : Size.product [disc.nf, 2 * disc.fpe - 1, disc.n * disc.n] =
      .ok (disc.nf * (2 * disc.fpe - 1) * (disc.n * disc.n)) :=
    Size.product_eq_ok_iff.2 (by simp [Size.InRange]; omega)
  have hblock : Size.product [2 * disc.fpe - 1, disc.n * disc.n] =
      .ok ((2 * disc.fpe - 1) * (disc.n * disc.n)) :=
    Size.product_eq_ok_iff.2 (by simp [Size.InRange]; omega)
  have htable : Size.table (disc.nf * (2 * disc.fpe - 1) * (disc.n * disc.n)) = .ok () :=
    Outcome.check_eq_ok_iff.2 hall
  choose links hlinks _ using holds_linksOf (le_refl (2 * disc.fpe - 1)) c presolved
  have hcollect : Outcome.tabulate (fun f : Fin disc.nf =>
      Outcome.orFault (.tooManyNeighbors f (2 * disc.fpe - 1))
        ((Vector.ofFn fun f => linksOf c presolved f).get f)) = .ok (Vector.ofFn links) :=
    Outcome.tabulate_eq_ok_iff.2 fun f => by
      rw [Vector.get_ofFn_eq, Vector.get_ofFn_eq, Outcome.orFault_eq_ok_iff]
      exact hlinks f
  refine ⟨⟨2 * disc.fpe - 1, Vector.ofFn links⟩, ?_⟩
  unfold faceGraph
  rw [hplaces, Outcome.ok_bind, harea, Outcome.ok_bind, hscalars, Outcome.ok_bind, htable,
    Outcome.ok_bind, hblock, Outcome.ok_bind]
  dsimp only
  rw [s.each_pure, Outcome.ok_bind, hcollect]
  rfl

end Coupling

end Condensation
