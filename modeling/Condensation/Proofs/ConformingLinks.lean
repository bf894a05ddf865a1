/-
  Conforming links — every local degree of freedom is a signed copy of one true one.

  1. **The table** — `conforming` refuses a local degree of freedom without a true one
     (`ne_none_of_foldlM`), so the whole table names true degrees of freedom.

  2. **The prolongation (`conforms_of_conforming`)** — row `k` of `P` holds the orientation of the
     `k`-th entry in the column of its true degree of freedom, and nothing else.

  3. **Copies (`CopiesTrue`)** — that entry is the only one stored in the row, and the restriction
     reads each owned true degree of freedom from a row that copies it.
-/
import Condensation.Dofs.TraceSpace
import Condensation.Proofs.SharedProducts
import Condensation.Proofs.TripletSums

namespace Condensation

variable {S : Type} {l : Nat}

open Triplet

@[simp] theorem Orientation.factor_mul_self [Ring S] (o : Orientation) :
    (o.factor : S) * o.factor = 1 := by
  cases o <;> simp [factor]

namespace TrueDofs

/-- What the entry of a table says about row `k` of a prolongation. -/
def CopiesEntry [Zero S] [One S] [Add S] [Neg S] (link : TrueDofs S l) (k : Fin l)
    (g : Signed Nat) : Prop :=
  ∀ t, link.prolongation.valueAt k t = if g.index = t then g.orientation.factor else 0

/-- The link was made by `conforming` for a space with `l` degrees of freedom. -/
def MadeConforming [Add S] [One S] [Neg S] (link : TrueDofs S l) (table : Array GatherEntry)
    (owned offset global : Nat) : Prop :=
  ∃ made, conforming table owned offset global = .ok made ∧
    forSpace .traceProlongationRows l (some ⟨table.size, made⟩) = .ok (some link)

/-- A link whose local degrees of freedom copy the true ones that a table names. -/
structure Conforms [Zero S] [One S] [Add S] [Neg S] (link : TrueDofs S l)
    (table : Array GatherEntry) (owned offset global : Nat) : Prop where
  owned_eq : link.numOwned = owned
  offset_eq : link.offset = offset
  global_eq : link.numGlobal = global
  small : offset + owned < Size.limit
  copies : ∀ k : Fin l, ∃ g, table.getD k none = some g ∧ link.CopiesEntry k g

/-- What holds of every link that `conforming` makes from a table holds of the one that a space has
    taken over. -/
theorem MadeConforming.transport [Add S] [One S] [Neg S] {link : TrueDofs S l}
    {table : Array GatherEntry} {owned offset global : Nat}
    {motive : ∀ {l : Nat}, TrueDofs S l → Prop}
    (h : link.MadeConforming table owned offset global)
    (hmade : ∀ made, conforming table owned offset global = .ok made → motive made) :
    motive link := by
  obtain ⟨made, hconforming, hspace⟩ := h
  simp only [forSpace] at hspace
  split at hspace
  · next hsize =>
    subst hsize
    obtain rfl : made = link := by simpa using hspace
    exact hmade made hconforming
  · simp at hspace

/-! ## The table -/

/-- The numbered entries of a table are its entries. -/
theorem getD_of_mem_zipIdx {table : Array GatherEntry} {e : GatherEntry × Nat}
    (he : e ∈ table.toList.zipIdx) : table.getD e.2 none = e.1 := by
  have hget := List.mem_zipIdx_iff_getElem?.1 he
  rw [Array.getElem?_toList] at hget
  rw [Array.getD_eq_getD_getElem?, hget]
  rfl

theorem ne_none_of_foldlM {numOwned offset : Nat} {entries : List (GatherEntry × Nat)}
    {copies final : Vector GatherEntry numOwned}
    (h : entries.foldlM (takeCopy offset) copies = .ok final) : ∀ e ∈ entries, e.1 ≠ none := by
  induction entries generalizing copies with
  | nil => simp
  | cons e rest ih =>
    rw [List.foldlM_cons] at h
    obtain ⟨next, hnext, h⟩ := Outcome.bind_eq_ok_iff.1 h
    intro e' he'
    rcases List.mem_cons.1 he' with rfl | he'
    · obtain ⟨entry, k⟩ := e'
      rintro rfl
      simp [takeCopy] at hnext
    · exact ih h e' he'

/-- The triplets of a table without gaps. -/
theorem copyTriplets_eq [One S] [Neg S] {table : Array GatherEntry}
    {trueOf : Fin table.size → Signed Nat} (h : ∀ k, table[k] = some (trueOf k)) :
    (table.toList.zipIdx.filterMap fun e =>
      e.1.map fun g => (⟨e.2, g.index, g.orientation.factor⟩ : Triplet S)) =
        List.ofFn fun k => ⟨k, (trueOf k).index, (trueOf k).orientation.factor⟩ := by
  have hzip : table.toList.zipIdx = List.ofFn fun k => (some (trueOf k), k.val) := by
    refine List.ext_getElem (by simp) fun k h1 h2 => ?_
    have hk : k < table.size := by simpa using h2
    have := h ⟨k, hk⟩
    simpa using this
  rw [hzip, List.ofFn_eq_map, List.filterMap_map, List.ofFn_eq_map]
  exact congrFun (List.filterMap_eq_map (f := fun k : Fin table.size =>
    (⟨k, (trueOf k).index, (trueOf k).orientation.factor⟩ : Triplet S))) _

/-! ## The prolongation -/

/-- A table without gaps gives every row one entry. -/
theorem sumAt_copyTriplets [AddCommMonoid S] [One S] [Neg S] (trueOf : Fin l → Signed Nat)
    (k : Fin l) (t : Nat) :
    sumAt (keyed (List.ofFn fun k : Fin l =>
      (⟨k, (trueOf k).index, (trueOf k).orientation.factor⟩ : Triplet S))) (k.val, t) =
        if (trueOf k).index = t then (trueOf k).orientation.factor else 0 := by
  have hterm : ∀ j : Fin l, (if (j.val, (trueOf j).index) = (k.val, t)
      then ((trueOf j).orientation.factor : S) else 0) =
        if j = k then (if (trueOf k).index = t then (trueOf k).orientation.factor else 0) else 0 := by
    intro j
    by_cases hj : j = k
    · subst hj
      simp
    · have hval : ¬ j.val = k.val := fun e => hj (Fin.ext e)
      simp [hj, hval]
  rw [keyed, List.map_ofFn, sumAt_eq_sum, List.map_ofFn, List.sum_ofFn]
  refine (Finset.sum_congr rfl fun j _ => hterm j).trans ?_
  simp

/-- **The prolongation**: row `k` copies the true degree of freedom that the table names for `k`. -/
theorem conforms_of_conforming [NonAssocRing S] {table : Array GatherEntry}
    {owned offset global : Nat} {link : TrueDofs S table.size}
    (h : conforming table owned offset global = .ok link) :
    link.Conforms table owned offset global := by
  unfold conforming at h
  obtain ⟨_, -, h⟩ := Outcome.bind_eq_ok_iff.1 h
  obtain ⟨copies, hcopies, h⟩ := Outcome.bind_eq_ok_iff.1 h
  split at h
  · simp at h
  obtain ⟨P, hP, h⟩ := Outcome.bind_eq_ok_iff.1 h
  obtain ⟨hsmall, restriction, fits, rfl⟩ := ofProlongation_eq h
  have hsome : ∀ k : Fin table.size, ∃ g, table[k] = some g := by
    intro k
    refine Option.ne_none_iff_exists'.1 (ne_none_of_foldlM hcopies (table[k], k.val) ?_)
    rw [List.mem_zipIdx_iff_getElem?]
    simp
  choose trueOf htable using hsome
  rw [copyTriplets_eq htable] at hP
  refine ⟨by simp, rfl, rfl, by simpa using hsmall, fun k => ⟨trueOf k, ?_, fun t => ?_⟩⟩
  · exact (Array.getElem_eq_getD none).symm.trans (htable k)
  · show P.valueAt k t = _
    rw [Csr.valueAt_of_ofTriplets hP, sumAt_copyTriplets]

/-- So it is for the link that the space holds. -/
theorem MadeConforming.conforms [NonAssocRing S] {link : TrueDofs S l} {table : Array GatherEntry}
    {owned offset global : Nat} (h : link.MadeConforming table owned offset global) :
    link.Conforms table owned offset global :=
  h.transport (motive := fun link => link.Conforms table owned offset global)
    fun _ hmade => conforms_of_conforming hmade

/-! ## Copies -/

/-- Every local degree of freedom is a signed copy of one true one, and every owned true one is read
    from such a copy of it. -/
structure CopiesTrue [One S] [Neg S] (link : TrueDofs S l) : Prop where
  row : ∀ k, ∃ (j : Fin link.numGlobal) (o : Orientation),
    link.prolongation.row k = [(j, o.factor)]
  restricted : ∀ t : Fin link.numOwned, ∃ j : Fin link.numGlobal, j.val = link.offset + t ∧
    link.prolongation.row (link.restriction.get t).index =
      [(j, (link.restriction.get t).orientation.factor)]

/-- What was found so far are copies of the owned true degrees of freedom. -/
theorem copies_of_foldlM {table : Array GatherEntry} {numOwned offset : Nat}
    {entries : List (GatherEntry × Nat)} {copies final : Vector GatherEntry numOwned}
    (hentries : ∀ e ∈ entries, table.getD e.2 none = e.1)
    (hcopies : ∀ t g, copies.get t = some g →
      table.getD g.index none = some ⟨offset + t.val, g.orientation⟩)
    (h : entries.foldlM (takeCopy offset) copies = .ok final) :
    ∀ t g, final.get t = some g →
      table.getD g.index none = some ⟨offset + t.val, g.orientation⟩ := by
  induction entries generalizing copies with
  | nil =>
    obtain rfl : copies = final := by simpa using h
    exact hcopies
  | cons e rest ih =>
    rw [List.foldlM_cons] at h
    obtain ⟨next, hnext, h⟩ := Outcome.bind_eq_ok_iff.1 h
    refine ih (fun e' he' => hentries e' (by simp [he'])) ?_ h
    obtain ⟨entry, k⟩ := e
    have hk : table.getD k none = entry := hentries (entry, k) (by simp)
    cases entry with
    | none => simp [takeCopy] at hnext
    | some g =>
      obtain ⟨_, -, hnext⟩ := Outcome.bind_eq_ok_iff.1 hnext
      split at hnext
      · next howned =>
        dsimp only at hnext
        split at hnext
        · obtain rfl := Outcome.ok.inj hnext
          intro t g' hg'
          by_cases ht : ⟨g.index - offset, by omega⟩ = t
          · subst ht
            obtain rfl : ⟨k, g.orientation⟩ = g' := by simpa using hg'
            rw [hk]
            have hindex : offset + (g.index - offset) = g.index := Nat.add_sub_cancel' howned.1
            simp only [hindex]
          · rw [Vector.get_put_of_ne _ _ ht] at hg'
            exact hcopies t g' hg'
        · obtain rfl := Outcome.ok.inj hnext
          exact hcopies
      · obtain rfl := Outcome.ok.inj hnext
        exact hcopies

/-- The restriction of a link is the one that it was made from. -/
theorem restriction_of_ofProlongation {g : Nat} {P : Csr S l g} {restriction : Array GatherEntry}
    {offset : Nat} {link : TrueDofs S l} (h : ofProlongation P restriction offset = .ok link)
    (t : Fin link.numOwned) :
    restriction.getD t none =
      some ⟨(link.restriction.get t).index, (link.restriction.get t).orientation⟩ := by
  obtain ⟨last, -, h⟩ := Outcome.bind_eq_ok_iff.1 h
  split at h
  · obtain ⟨table, htable, h⟩ := Outcome.bind_eq_ok_iff.1 h
    obtain rfl := Outcome.ok.inj h
    change Fin restriction.size at t
    have hwithin := Outcome.orFault_eq_ok_iff.1 (Outcome.tabulate_eq_ok_iff.1 htable t)
    exact (Array.getElem_eq_getD none).symm.trans (GatherEntry.within_eq_some_iff.1 hwithin)
  · simp at h

/-- Row `k` of a conforming link stores one entry, for the true degree of freedom that the table
    names. -/
theorem row_of_conforming [Add S] [One S] [Neg S] {table : Array GatherEntry}
    {owned offset global : Nat} {link : TrueDofs S table.size}
    (h : conforming table owned offset global = .ok link) (k : Fin table.size) :
    ∃ g : Signed Nat, table.getD k none = some g ∧ ∃ j : Fin link.numGlobal, j.val = g.index ∧
      link.prolongation.row k = [(j, g.orientation.factor)] := by
  unfold conforming at h
  obtain ⟨_, -, h⟩ := Outcome.bind_eq_ok_iff.1 h
  obtain ⟨copies, hcopies, h⟩ := Outcome.bind_eq_ok_iff.1 h
  split at h
  · simp at h
  obtain ⟨P, hP, h⟩ := Outcome.bind_eq_ok_iff.1 h
  obtain ⟨-, restriction, fits, rfl⟩ := ofProlongation_eq h
  have hsome : ∀ k : Fin table.size, ∃ g, table[k] = some g := by
    intro k
    refine Option.ne_none_iff_exists'.1 (ne_none_of_foldlM hcopies (table[k], k.val) ?_)
    rw [List.mem_zipIdx_iff_getElem?]
    simp
  choose trueOf htable using hsome
  rw [copyTriplets_eq htable] at hP
  have hrows : (List.ofFn fun k : Fin table.size =>
      (⟨k, (trueOf k).index, (trueOf k).orientation.factor⟩ : Triplet S)).Pairwise
        fun a b => a.row ≠ b.row := by
    rw [List.pairwise_ofFn]
    intro i j hij
    exact fun hrow => absurd (Fin.ext hrow) (ne_of_lt hij)
  refine ⟨trueOf k, ?_, Csr.row_of_ofTriplets hP hrows ((List.mem_ofFn' _ _).2 ⟨k, rfl⟩) rfl⟩
  exact (Array.getElem_eq_getD none).symm.trans (htable k)

/-- The range of a conforming link is the one that it was made for. -/
theorem range_of_conforming [Add S] [One S] [Neg S] {table : Array GatherEntry}
    {owned offset global : Nat} {link : TrueDofs S table.size}
    (h : conforming table owned offset global = .ok link) :
    link.numOwned = owned ∧ link.offset = offset ∧ link.numGlobal = global ∧
      offset + owned < Size.limit := by
  unfold conforming at h
  obtain ⟨_, -, h⟩ := Outcome.bind_eq_ok_iff.1 h
  obtain ⟨copies, -, h⟩ := Outcome.bind_eq_ok_iff.1 h
  split at h
  · simp at h
  obtain ⟨P, -, h⟩ := Outcome.bind_eq_ok_iff.1 h
  obtain ⟨hsmall, restriction, fits, rfl⟩ := ofProlongation_eq h
  exact ⟨by simp, rfl, rfl, by simpa using hsmall⟩

/-- **Copies**: a conforming link has signed copies only. -/
theorem copiesTrue_of_conforming [Add S] [One S] [Neg S] {table : Array GatherEntry}
    {owned offset global : Nat} {link : TrueDofs S table.size}
    (h : conforming table owned offset global = .ok link) : link.CopiesTrue := by
  have hrow := row_of_conforming h
  unfold conforming at h
  obtain ⟨_, -, h⟩ := Outcome.bind_eq_ok_iff.1 h
  obtain ⟨copies, hcopies, h⟩ := Outcome.bind_eq_ok_iff.1 h
  split at h
  · simp at h
  obtain ⟨P, hP, h⟩ := Outcome.bind_eq_ok_iff.1 h
  have hrestriction := restriction_of_ofProlongation h
  have hchosen := copies_of_foldlM (fun e => getD_of_mem_zipIdx) (by simp) hcopies
  obtain ⟨-, restriction, fits, rfl⟩ := ofProlongation_eq h
  refine ⟨fun k => ?_, fun t => ?_⟩
  · obtain ⟨g, -, j, -, hj⟩ := hrow k
    exact ⟨j, g.orientation, hj⟩
  · have howned : t.val < owned := by simpa using t.isLt
    have hget : copies.get ⟨t.val, howned⟩ = copies.toArray.getD t none := by
      rw [Vector.get, Array.getD_eq_getD_getElem?, Array.getElem?_eq_getElem (by simpa using howned)]
      rfl
    have hcopy := hchosen ⟨t.val, howned⟩ _ (hget.trans (hrestriction t))
    obtain ⟨g, hg, j, hj, hP⟩ := hrow (restriction.get t).index
    obtain rfl : g = ⟨offset + t.val, (restriction.get t).orientation⟩ :=
      Option.some.inj (hg.symm.trans hcopy)
    exact ⟨j, hj, hP⟩

/-- So has the link that the space holds. -/
theorem MadeConforming.copiesTrue [Add S] [One S] [Neg S] {link : TrueDofs S l}
    {table : Array GatherEntry} {owned offset global : Nat}
    (h : link.MadeConforming table owned offset global) : link.CopiesTrue :=
  h.transport (motive := fun link => link.CopiesTrue)
    fun _ hmade => copiesTrue_of_conforming hmade

/-- Its range is the one that it was made for. -/
theorem MadeConforming.range [Add S] [One S] [Neg S] {link : TrueDofs S l}
    {table : Array GatherEntry} {owned offset global : Nat}
    (h : link.MadeConforming table owned offset global) :
    link.numOwned = owned ∧ link.offset = offset ∧ link.numGlobal = global ∧
      offset + owned < Size.limit :=
  h.transport (motive := fun link => link.numOwned = owned ∧ link.offset = offset ∧
    link.numGlobal = global ∧ offset + owned < Size.limit)
    fun _ hmade => range_of_conforming hmade

/-- And its rows store the true degrees of freedom that the table names. -/
theorem MadeConforming.row [Add S] [One S] [Neg S] {link : TrueDofs S l}
    {table : Array GatherEntry} {owned offset global : Nat}
    (h : link.MadeConforming table owned offset global) (k : Fin l) :
    ∃ g : Signed Nat, table.getD k none = some g ∧ ∃ j : Fin link.numGlobal, j.val = g.index ∧
      link.prolongation.row k = [(j, g.orientation.factor)] :=
  h.transport (motive := fun {l} link => ∀ k : Fin l, ∃ g : Signed Nat,
    table.getD k none = some g ∧ ∃ j : Fin link.numGlobal, j.val = g.index ∧
      link.prolongation.row k = [(j, g.orientation.factor)])
    (fun _ hmade => row_of_conforming hmade) k

end TrueDofs

end Condensation
