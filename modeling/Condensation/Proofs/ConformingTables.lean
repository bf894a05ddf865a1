/-
  Conforming tables — which tables make a conforming link, and what it reads back.

  1. **Slots (`foldlM_takeCopy`)** — while the table is gone through, every owned true degree of
     freedom has a slot for its first copy.  A slot is filled just if some entry names its true
     degree of freedom.

  2. **Acceptance (`conforming_eq_ok_iff`)** — a table is refused for an entry without a true degree
     of freedom or with one out of range, for an owned range that sticks out, and for an owned true
     one that no entry names: for nothing else.

  3. **The result (`conforming_tables`)** — a rank that copies values from wherever they are owned
     and then reads its own ones back has them as they were, since every sign meets itself.
-/
import Condensation.Proofs.GlobalProlongation
import Condensation.Proofs.OverwrittenValues

namespace Condensation

variable {S : Type} {n l : Nat}

namespace TrueDofs

/-! ## Slots -/

section Slots

variable {numOwned offset : Nat}

/-- One entry fills the slot of the true degree of freedom that it names, if there is one. -/
theorem takeCopy_some (hsmall : offset + numOwned < Size.limit) (copies : Vector GatherEntry numOwned)
    (g : Signed Nat) (k : Nat) :
    ∃ next, takeCopy offset copies (some g, k) = .ok next ∧
      ∀ t, (next.get t).isSome ↔ (copies.get t).isSome ∨ g.index = offset + t := by
  have hsum : Size.sum offset numOwned = .ok (offset + numOwned) := if_pos hsmall
  simp only [takeCopy, hsum, Outcome.ok_bind]
  by_cases howned : offset ≤ g.index ∧ g.index < offset + numOwned
  · rw [dif_pos howned]
    refine ⟨_, rfl, ?_⟩
    intro t
    have hslot : (⟨g.index - offset, by omega⟩ : Fin numOwned) = t ↔ g.index = offset + t := by
      rw [Fin.ext_iff]
      show g.index - offset = t.val ↔ _
      omega
    split
    · by_cases ht : g.index = offset + t
      · obtain rfl := hslot.2 ht
        rw [Vector.get_put_self]
        exact ⟨fun _ => .inr ht, fun _ => rfl⟩
      · rw [Vector.get_put_of_ne _ _ (mt hslot.1 ht)]
        simp [ht]
    · next hfilled =>
      constructor
      · exact Or.inl
      · rintro (hsome | ht)
        · exact hsome
        · obtain rfl := hslot.2 ht
          exact Option.isSome_iff_ne_none.2 (by simpa using hfilled)
  · rw [dif_neg howned]
    refine ⟨copies, rfl, ?_⟩
    intro t
    have ht : ¬ g.index = offset + t := by
      have := t.isLt
      omega
    simp [ht]

/-- **Slots**: entries that name something are all taken up, and a slot is filled just if one of
    them names its true degree of freedom. -/
theorem foldlM_takeCopy (hsmall : offset + numOwned < Size.limit)
    {entries : List (GatherEntry × Nat)} (hnamed : ∀ e ∈ entries, e.1 ≠ none)
    (copies : Vector GatherEntry numOwned) :
    ∃ final, entries.foldlM (takeCopy offset) copies = .ok final ∧
      ∀ t, (final.get t).isSome ↔
        (copies.get t).isSome ∨ ∃ e ∈ entries, ∃ g, e.1 = some g ∧ g.index = offset + t := by
  induction entries generalizing copies with
  | nil => exact ⟨copies, rfl, by simp⟩
  | cons e rest ih =>
    obtain ⟨entry, k⟩ := e
    obtain ⟨g, rfl⟩ : ∃ g, entry = some g :=
      Option.ne_none_iff_exists'.1 (hnamed (entry, k) (by simp))
    obtain ⟨next, hnext, hstep⟩ := takeCopy_some hsmall copies g k
    obtain ⟨final, hfinal, hrest⟩ := ih (fun e he => hnamed e (.tail _ he)) next
    refine ⟨final, ?_, ?_⟩
    · rw [List.foldlM_cons, hnext]
      exact hfinal
    · intro t
      rw [hrest, hstep, or_assoc]
      simp

end Slots

/-! ## Acceptance -/

/-- Every entry of the table names a true degree of freedom, the owned range lies among the true
    ones, and every owned one has a copy. -/
structure Acceptable (table : Array GatherEntry) (owned offset global : Nat) : Prop where
  named : ∀ e ∈ table, ∃ g ∈ e, g.index < global
  fits : offset + owned ≤ global
  copied : ∀ t < owned, ∃ e ∈ table, ∃ g ∈ e, g.index = offset + t

instance (table : Array GatherEntry) (owned offset global : Nat) :
    Decidable (Acceptable table owned offset global) :=
  decidable_of_iff ((∀ e ∈ table, ∃ g ∈ e, g.index < global) ∧ offset + owned ≤ global ∧
      ∀ t < owned, ∃ e ∈ table, ∃ g ∈ e, g.index = offset + t)
    ⟨fun h => ⟨h.1, h.2.1, h.2.2⟩, fun h => ⟨h.named, h.fits, h.copied⟩⟩

/-- A prolongation with room for the owned range and a restriction from local degrees of freedom are
    never refused. -/
theorem ofProlongation_returns {g : Nat} (P : Csr S l g) {restriction : Array GatherEntry}
    {offset : Nat} (hsmall : offset + restriction.size < Size.limit)
    (hfits : offset + restriction.size ≤ g)
    (hinside : ∀ t < restriction.size, ∃ place, (restriction.getD t none).within l = some place) :
    ∃ link, ofProlongation P restriction offset = .ok link := by
  have hplaces : ∀ t : Fin restriction.size, ∃ place, restriction[t].within l = some place := by
    intro t
    obtain ⟨place, hplace⟩ := hinside t t.isLt
    exact ⟨place, (congrArg _ (Array.getElem_eq_getD none)).trans hplace⟩
  choose place hplace using hplaces
  have hsum : Size.sum offset restriction.size = .ok (offset + restriction.size) := if_pos hsmall
  have htable : (Outcome.tabulate fun t : Fin restriction.size =>
      Outcome.orFault (.badNumbering (.trueDof t restriction[t] l)) (restriction[t].within l)) =
        .ok (.ofFn place) := by
    rw [Outcome.tabulate_eq_ok_iff]
    intro t
    rw [Outcome.orFault_eq_ok_iff, hplace, Vector.get_ofFn_eq]
  refine ⟨⟨restriction.size, g, offset, P, .ofFn place, hfits⟩, ?_⟩
  rw [ofProlongation, hsum, Outcome.ok_bind, dif_pos hfits, htable]
  rfl

section Tables

variable {table : Array GatherEntry} {owned offset global : Nat}

theorem Acceptable.copy (h : Acceptable table owned offset global) (t : Fin owned) :
    ∃ (k : Fin table.size) (g : Signed Nat),
      table.getD k none = some g ∧ g.index = offset + t := by
  obtain ⟨e, he, g, hg, hindex⟩ := h.copied t t.isLt
  obtain ⟨k, hk, rfl⟩ := Array.getElem_of_mem he
  exact ⟨⟨k, hk⟩, g, (Array.getElem_eq_getD none).symm.trans hg, hindex⟩

/-- There are as many copies as owned true degrees of freedom, or more. -/
theorem Acceptable.owned_le (h : Acceptable table owned offset global) : owned ≤ table.size := by
  choose copy g hg hindex using h.copy
  have hinjective : Function.Injective copy := by
    intro t t' heq
    have hsame : g t = g t' := Option.some.inj ((hg t).symm.trans (heq ▸ hg t'))
    have := hindex t
    have := hindex t'
    rw [hsame] at *
    exact Fin.ext (by omega)
  simpa using Fintype.card_le_of_injective copy hinjective

/-- All slots of an acceptable table are filled, with local degrees of freedom. -/
theorem Acceptable.slots (h : Acceptable table owned offset global)
    (hsmall : offset + owned < Size.limit) :
    ∃ copies, table.toList.zipIdx.foldlM (takeCopy offset)
        (Vector.replicate owned (none : GatherEntry)) = .ok copies ∧
      ∀ t, ∃ place : Signed (Fin table.size),
        copies.get t = some ⟨place.index, place.orientation⟩ := by
  have hnamed : ∀ e ∈ table.toList.zipIdx, e.1 ≠ none := by
    rintro ⟨entry, k⟩ he rfl
    have hget := List.mem_zipIdx_iff_getElem?.1 he
    rw [Array.getElem?_toList] at hget
    obtain ⟨g, hg, -⟩ := h.named none (Array.mem_of_getElem? hget)
    exact Option.some_ne_none g hg.symm
  obtain ⟨copies, hcopies, hfilled⟩ :=
    foldlM_takeCopy hsmall hnamed (Vector.replicate owned (none : GatherEntry))
  have hchosen := copies_of_foldlM (fun e => getD_of_mem_zipIdx) (by simp) hcopies
  refine ⟨copies, hcopies, ?_⟩
  intro t
  have hsome : (copies.get t).isSome := by
    rw [hfilled]
    obtain ⟨k, g, hk, hg⟩ := h.copy t
    refine .inr ⟨(some g, k.val), ?_, g, rfl, hg⟩
    rw [List.mem_zipIdx_iff_getElem?, ← hk, Array.getD_eq_getD_getElem?]
    simp
  obtain ⟨g, hg⟩ := Option.isSome_iff_exists.1 hsome
  have hcopy := hchosen t g hg
  have hlt : g.index < table.size := by
    by_contra hge
    simp [Array.getD_eq_getD_getElem?, hge] at hcopy
  exact ⟨⟨⟨g.index, hlt⟩, g.orientation⟩, hg⟩

/-- What an acceptable table names comes to a link. -/
theorem Acceptable.conforming [AddCommMonoid S] [One S] [Neg S]
    (h : Acceptable table owned offset global) (hglobal : global < Size.limit) :
    ∃ link : TrueDofs S table.size, conforming table owned offset global = .ok link := by
  have hsmall : offset + owned < Size.limit := Nat.lt_of_le_of_lt h.fits hglobal
  have hroom : Size.table (owned - table.size) = .ok () :=
    Outcome.check_eq_ok_iff.2 (by rw [Nat.sub_eq_zero_of_le h.owned_le]; decide)
  obtain ⟨copies, hcopies, hplaces⟩ := h.slots hsmall
  have hall : copies.toList.findIdx? (·.isNone) = none := by
    rw [List.findIdx?_eq_none_iff]
    intro entry hentry
    obtain ⟨t, ht, rfl⟩ := List.getElem_of_mem hentry
    obtain ⟨place, hplace⟩ := hplaces ⟨t, by simpa using ht⟩
    have hsome := congrArg Option.isSome hplace
    simpa [Vector.get] using hsome
  have hentry : ∀ k : Fin table.size, ∃ g, table[k] = some g ∧ g.index < global :=
    fun k => h.named table[k] (Array.getElem_mem k.isLt)
  choose trueOf htable hindex using hentry
  have hinside : ∀ t ∈ (List.ofFn fun k =>
      (⟨k, (trueOf k).index, (trueOf k).orientation.factor⟩ : Triplet S)),
        t.Inside table.size global := by
    intro t ht
    obtain ⟨k, rfl⟩ := (List.mem_ofFn' _ _).1 ht
    exact ⟨k.isLt, hindex k⟩
  obtain ⟨P, hP, -⟩ := Csr.ofTriplets_returns hinside
  have hwithin : ∀ t < copies.toArray.size, ∃ place,
      (copies.toArray.getD t none).within table.size = some place := by
    intro t ht
    obtain ⟨place, hplace⟩ := hplaces ⟨t, by simpa using ht⟩
    exact ⟨place, GatherEntry.within_eq_some_iff.2 ((Array.getElem_eq_getD none).symm.trans hplace)⟩
  have hsize : copies.toArray.size = owned := copies.size_toArray
  obtain ⟨link, hlink⟩ :=
    ofProlongation_returns P (hsize.symm ▸ hsmall) (hsize.symm ▸ h.fits) hwithin
  refine ⟨link, ?_⟩
  rw [TrueDofs.conforming, hroom, Outcome.ok_bind, hcopies, Outcome.ok_bind, hall,
    copyTriplets_eq htable]
  show (Csr.ofTriplets table.size global _ >>= fun P => ofProlongation P copies.toArray offset) = _
  rw [hP]
  exact hlink

/-- A table that came to a link is acceptable. -/
theorem acceptable_of_conforming [Add S] [One S] [Neg S] {link : TrueDofs S table.size}
    (h : conforming table owned offset global = .ok link) :
    Acceptable table owned offset global := by
  obtain ⟨howned, hoffset, hglobal, -⟩ := range_of_conforming h
  have hrow : ∀ k : Fin table.size, ∃ g, table[k] = some g ∧ ∃ j : Fin link.numGlobal,
      j.val = g.index ∧ link.prolongation.row k = [(j, g.orientation.factor)] := by
    intro k
    obtain ⟨g, hg, hj⟩ := row_of_conforming h k
    exact ⟨g, (Array.getElem_eq_getD none).trans hg, hj⟩
  constructor
  case named =>
    intro e he
    obtain ⟨k, hk, rfl⟩ := Array.getElem_of_mem he
    obtain ⟨g, hg, j, hj, -⟩ := hrow ⟨k, hk⟩
    exact ⟨g, hg, by rw [← hj, ← hglobal]; exact j.isLt⟩
  case fits => rw [← howned, ← hoffset, ← hglobal]; exact link.fits
  case copied =>
    intro t ht
    -- the copy that it is read from
    obtain ⟨j, hj, hread⟩ := (copiesTrue_of_conforming h).restricted ⟨t, howned.symm ▸ ht⟩
    obtain ⟨g, hg, j', hj', hcopy⟩ := hrow _
    obtain rfl : j = j' :=
      congrArg Prod.fst (List.head_eq_of_cons_eq (hread.symm.trans hcopy))
    exact ⟨_, Array.getElem_mem _, g, hg, by rw [← hj', hj, hoffset]⟩

/-- **Acceptance**: a table makes a link just if it is acceptable. -/
theorem conforming_eq_ok_iff [AddCommMonoid S] [One S] [Neg S] (hglobal : global < Size.limit) :
    (∃ link : TrueDofs S table.size, conforming table owned offset global = .ok link) ↔
      Acceptable table owned offset global := by
  constructor
  · rintro ⟨link, h⟩
    exact acceptable_of_conforming h
  · intro h
    exact h.conforming hglobal

end Tables

/-! ## Reading back -/

/-- An owned true value that was copied is read back. -/
theorem CopiesTrue.restrictVec_eq [Ring S] {link : TrueDofs S l} (h : link.CopiesTrue)
    {value : Nat → S} {x : Vector S l}
    (hx : ∀ i, x.get i = ∑ j, link.prolongation.entry i j * value j.val) :
    link.restrictVec x = .ofFn fun k => value (link.offset + k) := by
  apply Vector.ext_get
  intro k
  obtain ⟨j, hj, hrow⟩ := h.restricted k
  rw [get_restrictVec, Vector.get_ofFn_eq, hx, ← Csr.sum_row, hrow, ← hj]
  simp [← mul_assoc]

/-- **The result**: for any number of ranks and any tables, a rank has a conforming link just if its
    table is acceptable.  For links whose ranges tile the true space, `prolong` ends on all ranks,
    and `restrict` then gives every rank the true values back that it owns. -/
theorem conforming_tables [Ring S] (table : Fin n → Array GatherEntry) (owned offset : Fin n → Nat)
    {global : Nat} (hglobal : global < Size.limit) :
    (∀ r, (∃ link : TrueDofs S (table r).size,
      conforming (table r) (owned r) (offset r) global = .ok link) ↔
        Acceptable (table r) (owned r) (offset r) global) ∧
    ∀ link : ∀ r, TrueDofs S (table r).size,
      (∀ r, conforming (table r) (owned r) (offset r) global = .ok (link r)) →
      (∀ r : Fin n, offset r = (tiling owned).start r) → (tiling owned).globalSize = global →
      2 * n < Size.limit →
      ∀ t into onto : Fin n → Array S, (∀ r, (t r).size = owned r) →
        (∀ r, (into r).size = (table r).size) → (∀ r, (onto r).size = owned r) →
        ∃ x : Fin n → Array S,
          Together (fun r : Fin n => (link r).prolong ⟨r, n⟩ (t r) (into r)) x ∧
          (∀ r, (link r).restrict (x r) (onto r) = .ok (t r)) ∧
          (n = 1 → ∀ r, ((link r).prolong .alone (t r) (into r)).runAlone = .ok (x r)) := by
  refine ⟨fun r => conforming_eq_ok_iff hglobal, ?_⟩
  intro link hlink hoffset hcover hranks t into onto ht hinto honto
  have hrange := fun r => range_of_conforming (hlink r)
  obtain rfl : (fun r => (link r).numOwned) = owned := funext fun r => (hrange r).1
  have tiled : Tiled link := by
    constructor
    case offset_eq => exact fun r => (hrange r).2.1.trans (hoffset r)
    case global_eq => exact fun r => (hrange r).2.2.1.trans hcover.symm
    case small => exact hcover ▸ hglobal
    case ranks => exact hranks
  obtain ⟨value, hvalue⟩ := exists_spread ht
  let x : ∀ r, Vector S (table r).size := fun r =>
    .ofFn fun i => ∑ j, (link r).prolongation.entry i j * value j.val
  have htogether : Together (fun r : Fin n => (link r).prolong ⟨r, n⟩ (t r) (into r))
      fun r => (x r).toArray :=
    Together.of_bind_done (prolong_then tiled hvalue hinto (Together.done _))
  refine ⟨fun r => (x r).toArray, htogether, ?_, ?_⟩
  · intro r
    have hback : (link r).restrictVec (x r) = .ofFn fun k => value ((link r).offset + k) :=
      (copiesTrue_of_conforming (hlink r)).restrictVec_eq fun i => Vector.get_ofFn_eq _ i
    have hlength : Outcome.sameLength .ownedTrueVector (link r).numOwned (onto r).size = .ok () :=
      Outcome.require_eq_ok_iff.2 (honto r).symm
    rw [restrict, Outcome.sized_toArray, Outcome.ok_bind, hlength, Outcome.ok_bind, hback,
      Outcome.pure_eq]
    congr 1
    rw [← Array.toList_inj, hvalue r, tiled.offset_eq r]
    exact Vector.toList_ofFn
  · rintro rfl r
    obtain rfl : r = 0 := Subsingleton.elim _ _
    refine htogether.alone (orderly_prolong _ ?_ _ _)
    rw [(hrange 0).2.2.1]
    exact hglobal

/-! ### Two ranks with turned copies -/

/-- The first rank copies the true degrees of freedom 1, 0 and 2, the second one 0, 2 and 2, -/
def turnedTable : Fin 2 → Array GatherEntry
  | 0 => #[some (.minus 1), some (.plus 0), some (.minus 2)]
  | 1 => #[some (.minus 0), some (.minus 2), some (.plus 2)]

/-- and they own the first two and the last one. -/
def turnedOwned : Fin 2 → Nat
  | 0 => 2
  | 1 => 1

/-- So it is for these two ranks: the turned copies of 5 and 6 come back unturned. -/
theorem conforming_tables_turned :
    ∃ link : ∀ r : Fin 2, TrueDofs Int (turnedTable r).size,
      (∀ r, conforming (turnedTable r) (turnedOwned r) (2 * r) 3 = .ok (link r)) ∧
      ∃ x : Fin 2 → Array Int,
        Together (fun r : Fin 2 => (link r).prolong ⟨r, 2⟩
          (if r = 0 then #[4, 5] else #[6]) #[0, 0, 0]) x ∧
        (link 0).restrict (x 0) #[0, 0] = .ok #[4, 5] ∧ (link 1).restrict (x 1) #[0] = .ok #[6] := by
  have hglobal : 3 < Size.limit := by decide
  obtain ⟨haccept, hback⟩ :=
    conforming_tables (S := Int) turnedTable turnedOwned (fun r => 2 * r) hglobal
  have hacceptable : ∀ r : Fin 2, Acceptable (turnedTable r) (turnedOwned r) (2 * r) 3 := by decide
  choose link hlink using fun r => (haccept r).2 (hacceptable r)
  obtain ⟨x, hx, hread, -⟩ := hback link hlink (by decide) (by decide) (by decide)
    (fun r => if r = 0 then #[4, 5] else #[6]) (fun _ => #[0, 0, 0])
    (fun r => if r = 0 then #[0, 0] else #[0]) (by decide) (by decide) (by decide)
  exact ⟨link, hlink, x, hx, hread 0, hread 1⟩

end TrueDofs

end Condensation
