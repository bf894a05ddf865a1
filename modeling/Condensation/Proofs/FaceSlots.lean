/-
  Face slots — walking over the faces of an element, and over the sides of a face.

  A slot with face `g` in an element, and a local side of face `g` on the element, are the same
  thing, since the two maps of an adjacency are inverse to each other.  So a sum over the faces of
  an element can be taken over all faces and their sides on the element (`sum_facesOf`), and the
  face itself occurs among the faces of each of its elements, which bounds how many faces can be
  beside it (`length_besides_le`).
-/
import Condensation.Interface.FaceGraph
import Mathlib.Algebra.BigOperators.Fin
import Mathlib.Data.List.Nodup
import Mathlib.Data.List.Perm.Subperm

namespace Condensation

variable {S : Type} {disc : Discretization S}

/-- The slots that face `g` has on element `e`. -/
def sidesOn (disc : Discretization S) (e : Fin disc.ne) (g : Fin disc.nf) :
    List (Slot disc.ne disc.fpe) :=
  (disc.adjacency.faces.get g).localSides.filter fun side => side.element = e

namespace Coupling

/-- The faces of an element are those with a side on it. -/
theorem mem_facesOf {e : Fin disc.ne} {side : Slot disc.ne disc.fpe} {g : Fin disc.nf} :
    (side, g) ∈ facesOf disc e ↔
      side.element = e ∧ side ∈ (disc.adjacency.faces.get g).localSides := by
  rw [← disc.adjacency.slot_iff]
  unfold facesOf
  simp only [List.mem_filterMap, List.mem_finRange, true_and, Option.map_eq_some_iff, Prod.mk.injEq,
    Adjacency.elementFaces, Pairing.get_part]
  constructor
  · rintro ⟨fi, a, ha, rfl, rfl⟩
    exact ⟨rfl, ha⟩
  · rintro ⟨rfl, h⟩
    exact ⟨side.localFace, g, h, rfl, rfl⟩

theorem nodup_facesOf (e : Fin disc.ne) : (facesOf disc e).Nodup := by
  refine List.Nodup.filterMap ?_ (List.nodup_finRange _)
  intro fi fi' x hx hx'
  simp only [Option.mem_def, Option.map_eq_some_iff] at hx hx'
  obtain ⟨g, -, rfl⟩ := hx
  obtain ⟨g', -, h⟩ := hx'
  have := congrArg (·.1.localFace) h
  exact this.symm

theorem length_facesOf_le (e : Fin disc.ne) : (facesOf disc e).length ≤ disc.fpe := by
  have := List.length_filterMap_le (fun fi => ((disc.adjacency.elementFaces e).get fi).map
    fun g => ((⟨e, fi⟩ : Slot disc.ne disc.fpe), g)) (List.finRange disc.fpe)
  rwa [List.length_finRange] at this

/-- The faces of an element, found from the side of the faces. -/
theorem facesOf_perm (e : Fin disc.ne) :
    (facesOf disc e).Perm
      ((List.finRange disc.nf).flatMap fun g => (sidesOn disc e g).map fun side => (side, g)) := by
  refine (List.perm_ext_iff_of_nodup (nodup_facesOf e) ?_).2 fun x => ?_
  · refine List.nodup_flatMap.2 ⟨fun g _ => ?_, ?_⟩
    · refine ((disc.adjacency.sides_nodup g).filter _).map ?_
      intro a b h
      exact congrArg Prod.fst h
    · refine (List.nodup_finRange _).imp fun {g g'} hne => ?_
      intro x hx hx'
      obtain ⟨a, -, rfl⟩ := List.mem_map.1 hx
      obtain ⟨b, -, h⟩ := List.mem_map.1 hx'
      exact hne (congrArg Prod.snd h).symm
  · obtain ⟨side, g⟩ := x
    rw [mem_facesOf, List.mem_flatMap]
    simp only [List.mem_finRange, true_and, List.mem_map, Prod.mk.injEq, sidesOn, List.mem_filter,
      decide_eq_true_eq]
    constructor
    · rintro ⟨he, hs⟩
      exact ⟨g, side, ⟨hs, he⟩, rfl, rfl⟩
    · rintro ⟨g', side', ⟨hs, he⟩, rfl, rfl⟩
      exact ⟨he, hs⟩

/-- **Walks**: a sum over the faces of an element is a sum over all faces and their sides on it. -/
theorem sum_facesOf {M : Type} [AddCommMonoid M] (e : Fin disc.ne)
    (F : Slot disc.ne disc.fpe → Fin disc.nf → M) :
    ((facesOf disc e).map fun x => F x.1 x.2).sum =
      ∑ g, ((sidesOn disc e g).map fun side => F side g).sum := by
  rw [((facesOf_perm e).map _).sum_eq, List.map_flatMap, List.flatMap, List.sum_flatten,
    List.map_map, ← List.ofFn_eq_map, List.sum_ofFn]
  simp [Function.comp_def]

/-- All faces in the elements of a face, element by element. -/
def besides (disc : Discretization S) (f : Fin disc.nf) : List (Fin disc.nf) :=
  (disc.adjacency.faces.get f).localSides.flatMap fun side =>
    (facesOf disc side.element).map Prod.snd

/-- The face itself is beside it once for each of its sides, so all of them repeat one. -/
theorem length_besides_le (f : Fin disc.nf) (ks : List (Fin disc.nf)) (hnd : ks.Nodup)
    (hsub : ks ⊆ besides disc f) : ks.length ≤ 2 * disc.fpe - 1 := by
  have own : ∀ side ∈ (disc.adjacency.faces.get f).localSides,
      f ∈ (facesOf disc side.element).map Prod.snd := fun side hs =>
    List.mem_map.2 ⟨(side, f), mem_facesOf.2 ⟨rfl, hs⟩, rfl⟩
  have len : ∀ side : Slot disc.ne disc.fpe,
      ((facesOf disc side.element).map Prod.snd).length ≤ disc.fpe := fun side => by
    rw [List.length_map]
    exact length_facesOf_le _
  unfold besides at hsub
  unfold Face.localSides at own hsub
  cases hsecond : (disc.adjacency.faces.get f).second with
  | remote e fi =>
    rw [hsecond] at own hsub
    have hpos : 0 < disc.fpe := (disc.adjacency.faces.get f).first.localFace.pos
    have hle := (hnd.subperm hsub).length_le
    have := len (disc.adjacency.faces.get f).first
    simp only [List.flatMap_cons, List.flatMap_nil, List.append_nil] at hle
    omega
  | inside t =>
    rw [hsecond] at own hsub
    simp only [List.flatMap_cons, List.flatMap_nil, List.append_nil] at hsub
    have hfirst := own (disc.adjacency.faces.get f).first (by simp)
    have hsecond := own t (by simp)
    -- without the second occurrence of the face the list still has all members
    have hsub' : ks ⊆ (facesOf disc (disc.adjacency.faces.get f).first.element).map Prod.snd ++
        ((facesOf disc t.element).map Prod.snd).erase f := by
      intro g hg
      rw [List.mem_append]
      by_cases hgf : g = f
      · exact .inl (hgf ▸ hfirst)
      · rcases List.mem_append.1 (hsub hg) with h | h
        · exact .inl h
        · exact .inr ((List.mem_erase_of_ne hgf).2 h)
    have hle := (hnd.subperm hsub').length_le
    have h1 := len (disc.adjacency.faces.get f).first
    have h2 := len t
    have hpos := List.length_pos_of_mem hsecond
    rw [List.length_append, List.length_erase_of_mem hsecond] at hle
    omega

end Coupling

end Condensation
