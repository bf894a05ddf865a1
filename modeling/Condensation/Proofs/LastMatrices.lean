/-
  Last matrices — a store is determined by the last matrix that it accepted for every element.

  1. **Offers** — matrices are offered for one element, or for all of them back to back.  A store
     accepts an offer just if the element and the lengths are right, whatever it holds (`take_cases`);
     an offer that is refused leaves it as it is.

  2. **The crux (`slot_after`)** — after a history of offers, refused ones and repetitions among
     them, the slot of an element is the one that its last accepted matrix gives, or the one it had
     before.  One offer is one case (`slot_of_take`); the history follows by induction from its end.

  3. **Comparison (`after_congr`)** — so two histories with the same last matrices lead to the same
     store, and a batch to the same one as its slices in any order.

  4. **The result (`last_matrices_determine`)** — against a new store, and for the interface matrix
     of a session.  Nothing is asked of the arithmetic, so the stores are the same bit for bit.
-/
import Condensation.Proofs.ElementSolves
import Condensation.Proofs.Composition
import Condensation.Proofs.Histories

namespace Condensation

variable {S : Type} {ne m : Nat}

/-! ## Offers -/

/-- Matrices offered to a store: that of one element, or those of all elements back to back. -/
inductive Offer (S : Type) where
  | one (e : Nat) (matrix : Array S)
  | all (s : Schedule) (batch : Array S)

namespace Offer

/-- The offer as a request to a session. -/
def request : Offer S → Operation S
  | one e matrix => .assemble e matrix
  | all s batch => .assembleAll s batch

/-- The entries of element `e` in a batch. -/
def slice (m e : Nat) (batch : Array S) : Array S :=
  batch.extract (e * (m * m)) (e * (m * m) + m * m)

/-- The slices of a batch one by one, in a given order. -/
def slices (m : Nat) (batch : Array S) (order : List (Fin ne)) : List (Offer S) :=
  order.map fun e : Fin ne => .one e (slice m e batch)

/-- The matrix that the offer has for element `e`. -/
def matrixFor (m e : Nat) : Offer S → Option (Array S)
  | one e' matrix => if e' = e then some matrix else none
  | all _ batch => some (slice m e batch)

/-- The element and the lengths are those of a store of `ne` elements. -/
def Fits (ne m : Nat) (marked : Array Bool) : Offer S → Prop
  | one e matrix => e < ne ∧ matrix.size = m * m ∧ marked.size = ne * m
  | all _ batch => batch.size = ne * (m * m) ∧ marked.size = ne * m

instance (ne m : Nat) (marked : Array Bool) : (o : Offer S) → Decidable (o.Fits ne m marked)
  | one .. => inferInstanceAs (Decidable (_ ∧ _))
  | all .. => inferInstanceAs (Decidable (_ ∧ _))

/-- The last matrix for element `e` among the offers that fit. -/
def lastFor (ne m : Nat) (marked : Array Bool) (e : Nat) (offers : List (Offer S)) :
    Option (Array S) :=
  (offers.filter fun o => o.Fits ne m marked).reverse.findSome? (matrixFor m e)

theorem lastFor_append {marked : Array Bool} {e : Nat} (offers : List (Offer S)) (o : Offer S) :
    lastFor ne m marked e (offers ++ [o]) =
      if o.Fits ne m marked then (o.matrixFor m e).or (lastFor ne m marked e offers)
      else lastFor ne m marked e offers := by
  unfold lastFor
  by_cases ho : o.Fits ne m marked
  · rw [if_pos ho, List.filter_append, List.filter_singleton, decide_eq_true ho, cond_true,
      List.reverse_append, List.reverse_singleton, List.singleton_append, List.findSome?_cons]
    cases o.matrixFor m e <;> rfl
  · rw [if_neg ho, List.filter_append, List.filter_singleton, decide_eq_false ho, cond_false,
      List.append_nil]

/-- The slice of a batch is the part of its element. -/
theorem slice_toArray (batch : Vector S (ne * (m * m))) (e : Fin ne) :
    slice m e batch.toArray = (Pairing.part batch e).toArray := by
  have hroom : e.val * (m * m) + m * m ≤ ne * (m * m) := by
    rw [← Nat.succ_mul]
    exact Nat.mul_le_mul_right _ e.isLt
  apply Array.ext
  · simp only [slice, Array.size_extract, Vector.size_toArray]
    omega
  · intro i hi hi'
    have hpart : i < m * m := by simpa using hi'
    simp only [slice, Array.getElem_extract]
    exact (Pairing.get_part batch e ⟨i, hpart⟩).symm

section Slices

variable {marked : Array Bool} {batch : Array S} {order : List (Fin ne)} {e : Fin ne}

/-- The slices of a batch are accepted one by one if the batch is. -/
theorem fits_of_mem_slices (hbatch : batch.size = ne * (m * m)) (hmarked : marked.size = ne * m)
    {o : Offer S} (ho : o ∈ slices m batch order) : o.Fits ne m marked := by
  obtain ⟨f, -, rfl⟩ := List.mem_map.1 ho
  refine ⟨f.isLt, ?_, hmarked⟩
  show (slice m f (⟨batch, hbatch⟩ : Vector S (ne * (m * m))).toArray).size = m * m
  rw [slice_toArray]
  exact Vector.size_toArray _

/-- Whichever of the slices for an element stands last, it is the one in the batch. -/
theorem findSome?_slices (he : e ∈ order) :
    (slices m batch order).reverse.findSome? (matrixFor m e) = some (slice m e batch) := by
  cases hlast : (slices m batch order).reverse.findSome? (matrixFor m e) with
  | none =>
    rw [List.findSome?_eq_none_iff] at hlast
    have hmem : Offer.one e (slice m e batch) ∈ slices m batch order :=
      List.mem_map.2 ⟨e, he, rfl⟩
    have hmissed := hlast _ (List.mem_reverse.2 hmem)
    rw [matrixFor, if_pos rfl] at hmissed
    cases hmissed
  | some a =>
    obtain ⟨o, ho, ha⟩ := List.exists_of_findSome?_eq_some hlast
    obtain ⟨f, -, rfl⟩ := List.mem_map.1 (List.mem_reverse.1 ho)
    by_cases hfe : f.val = e.val
    · rw [matrixFor, if_pos hfe] at ha
      rw [← ha, hfe]
    · rw [matrixFor, if_neg hfe] at ha
      cases ha

/-- With a marker of another length nothing is accepted. -/
theorem lastFor_eq_none (hmarked : marked.size ≠ ne * m) (offers : List (Offer S)) :
    lastFor ne m marked e offers = none := by
  have hnone : ∀ o : Offer S, ¬ o.Fits ne m marked := by
    rintro (_ | _) h
    · exact hmarked h.2.2
    · exact hmarked h.2
  simp [lastFor, hnone]

/-- A batch and its slices, in an order that leaves none out, have the same last matrices. -/
theorem lastFor_slices (s : Schedule) (hbatch : batch.size = ne * (m * m)) (he : e ∈ order) :
    lastFor ne m marked e [.all s batch] = lastFor ne m marked e (slices m batch order) := by
  by_cases hmarked : marked.size = ne * m
  · have hall : (Offer.all s batch).Fits ne m marked := ⟨hbatch, hmarked⟩
    have hones : ∀ o ∈ slices m batch order, decide (o.Fits ne m marked) = true :=
      fun o ho => decide_eq_true (fits_of_mem_slices hbatch hmarked ho)
    rw [lastFor, List.filter_singleton, decide_eq_true hall, cond_true, lastFor,
      List.filter_eq_self.2 hones, findSome?_slices he]
    rfl
  · rw [lastFor_eq_none hmarked, lastFor_eq_none hmarked]

end Slices

end Offer

namespace ElementStore

open Offer

variable [Zero S] [One S] [Neg S] [LT S] [DecidableLT S] [Sub S] [Mul S] [Div S]
  {marked : Array Bool}

/-- What a store makes of an offer. -/
def take (store : ElementStore S ne m) (marked : Array Bool) :
    Offer S → Outcome (ElementStore S ne m)
  | .one e matrix => store.assemble e matrix marked
  | .all s batch => store.assembleAll s batch marked

/-- The store after an offer; one that is refused leaves it as it is. -/
def afterOffer (marked : Array Bool) (store : ElementStore S ne m) (o : Offer S) :
    ElementStore S ne m :=
  match store.take marked o with
  | .ok next => next
  | .fault _ | .abort => store

/-- The store after a history of offers. -/
def afterOffers (store : ElementStore S ne m) (marked : Array Bool) (offers : List (Offer S)) :
    ElementStore S ne m :=
  offers.foldl (afterOffer marked) store

theorem afterOffers_append (store : ElementStore S ne m) (offers : List (Offer S)) (o : Offer S) :
    store.afterOffers marked (offers ++ [o]) = (store.afterOffers marked offers).afterOffer marked o :=
  List.foldl_append

/-- An offer is accepted just if it fits, and refused otherwise. -/
theorem take_cases (store : ElementStore S ne m) (marked : Array Bool) (o : Offer S) :
    (o.Fits ne m marked ∧ ∃ next, store.take marked o = .ok next) ∨
      (¬ o.Fits ne m marked ∧ ∃ why, store.take marked o = .fault why) := by
  cases o with
  | one e matrix =>
    simp only [take, assemble, element, Outcome.sized, Fits]
    split_ifs <;> simp [*]
  | all s batch =>
    by_cases hbatch : batch.size = ne * (m * m)
    · by_cases hmarked : marked.size = ne * m
      · exact .inl ⟨⟨hbatch, hmarked⟩, _, assembleAll_eq store s ⟨batch, hbatch⟩ ⟨marked, hmarked⟩⟩
      · refine .inr ⟨fun h => hmarked h.2, ?_⟩
        simp [take, assembleAll, Outcome.sized, hbatch, hmarked]
    · refine .inr ⟨fun h => hbatch h.1, ?_⟩
      simp [take, assembleAll, Outcome.sized, hbatch]

/-! ## Slots -/

/-- The slot is the one that matrix `a` gives for element `e`. -/
def Gives (marked : Array Bool) (e : Fin ne) (a : Array S) (slot : ElementSlot S m) : Prop :=
  ∃ (matrix : Dense S m m) (marks : Vector Bool (ne * m)),
    matrix.data.toArray = a ∧ marks.toArray = marked ∧ slot = slotOf matrix (Pairing.part marks e)

/-- The slot is the one that the matrix gives, and without a matrix the one from before. -/
def Follows (marked : Array Bool) (e : Fin ne) (before : ElementSlot S m) (slot : ElementSlot S m) :
    Option (Array S) → Prop
  | some a => Gives marked e a slot
  | none => slot = before

theorem Gives.unique {e : Fin ne} {a : Array S} {slot slot' : ElementSlot S m}
    (h : Gives marked e a slot) (h' : Gives marked e a slot') : slot = slot' := by
  obtain ⟨matrix, marks, hmatrix, hmarks, rfl⟩ := h
  obtain ⟨matrix', marks', hmatrix', hmarks', rfl⟩ := h'
  obtain rfl : marks = marks' := Vector.toArray_inj.1 (hmarks.trans hmarks'.symm)
  have hdata : matrix.data = matrix'.data := Vector.toArray_inj.1 (hmatrix.trans hmatrix'.symm)
  cases matrix
  cases matrix'
  cases hdata
  rfl

/-- Every store gets this slot from the matrix alone. -/
theorem Gives.alone {e : Fin ne} {a : Array S} {slot : ElementSlot S m}
    (h : Gives marked e a slot) (store : ElementStore S ne m) :
    ∃ single, store.assemble e a marked = .ok single ∧ single.slots.get e = slot := by
  obtain ⟨matrix, marks, rfl, rfl, rfl⟩ := h
  exact ⟨_, store.assemble_eq e matrix marks, Vector.get_put_self _ _ _⟩

theorem Gives.assembled {e : Fin ne} {a : Array S} {slot : ElementSlot S m}
    (h : Gives marked e a slot) : slot.assembled = true := by
  obtain ⟨matrix, marks, -, -, rfl⟩ := h
  rfl

theorem Follows.unique {e : Fin ne} {before slot slot' : ElementSlot S m}
    {last : Option (Array S)} (h : Follows marked e before slot last)
    (h' : Follows marked e before slot' last) : slot = slot' := by
  cases last with
  | none => exact h.trans h'.symm
  | some a => exact Gives.unique h h'

/-- A later matrix takes the place of an earlier one. -/
theorem Follows.later {e : Fin ne} {before slot slot' : ElementSlot S m}
    {last new : Option (Array S)} (h : Follows marked e before slot last)
    (h' : Follows marked e slot slot' new) : Follows marked e before slot' (new.or last) := by
  cases new with
  | none =>
    obtain rfl : slot' = slot := h'
    exact h
  | some a => exact h'

/-- **One offer** replaces the slots of the elements it has a matrix for. -/
theorem slot_of_take {store next : ElementStore S ne m} {o : Offer S}
    (h : store.take marked o = .ok next) (e : Fin ne) :
    Follows marked e (store.slots.get e) (next.slots.get e) (o.matrixFor m e) := by
  cases o with
  | one e' matrix =>
    obtain ⟨f, a, marks, rfl, rfl, rfl, rfl⟩ := of_assemble h
    by_cases hef : f = e
    · subst hef
      rw [matrixFor, if_pos rfl]
      exact ⟨a, marks, rfl, rfl, Vector.get_put_self _ _ _⟩
    · rw [matrixFor, if_neg fun he => hef (Fin.ext he)]
      exact Vector.get_put_of_ne _ _ hef
  | all s batch =>
    obtain ⟨data, marks, rfl, rfl, rfl⟩ := of_assembleAll h
    exact ⟨⟨Pairing.part data e⟩, marks, (slice_toArray data e).symm, rfl,
      Vector.get_ofFn_eq _ e⟩

/-- **The crux**: after a history of offers the slot of an element is the one that its last
    accepted matrix gives. -/
theorem slot_after (store : ElementStore S ne m) (marked : Array Bool) (offers : List (Offer S))
    (e : Fin ne) :
    Follows marked e (store.slots.get e) ((store.afterOffers marked offers).slots.get e)
      (lastFor ne m marked e offers) := by
  induction offers using List.reverseRecOn with
  | nil => rfl
  | append_singleton offers o ih =>
    rw [afterOffers_append, lastFor_append, afterOffer]
    rcases take_cases (store.afterOffers marked offers) marked o with
      ⟨hfits, next, hnext⟩ | ⟨hfits, why, hwhy⟩
    · rw [if_pos hfits, hnext]
      exact ih.later (slot_of_take hnext e)
    · rw [if_neg hfits, hwhy]
      exact ih

/-! ## Comparison -/

/-- **Comparison**: histories with the same last matrices lead to the same store. -/
theorem after_congr {offers offers' : List (Offer S)}
    (h : ∀ e : Fin ne, lastFor ne m marked e offers = lastFor ne m marked e offers')
    (store : ElementStore S ne m) :
    store.afterOffers marked offers = store.afterOffers marked offers' := by
  apply congrArg ElementStore.mk
  apply Vector.ext_get
  intro e
  have hslot := store.slot_after marked offers e
  rw [h e] at hslot
  exact hslot.unique (store.slot_after marked offers' e)

/-! ## The first element without a matrix -/

/-- In a new store the elements without a matrix are those without an accepted one. -/
theorem missing_after {fresh : ElementStore S ne m} (hfresh : empty? ne m = .ok fresh)
    (offers : List (Offer S)) (e : Fin ne) :
    (fresh.afterOffers marked offers).missing = some e ↔
      lastFor ne m marked e offers = none ∧
        ∀ f : Fin ne, f < e → lastFor ne m marked f offers ≠ none := by
  have hslot : ∀ f : Fin ne, ((fresh.afterOffers marked offers).slots.get f).assembled =
      (lastFor ne m marked f offers).isSome := by
    intro f
    have hf := fresh.slot_after marked offers f
    cases hlast : lastFor ne m marked f offers with
    | none =>
      rw [hlast] at hf
      have hsame : (fresh.afterOffers marked offers).slots.get f = fresh.slots.get f := hf
      rw [hsame, slot_of_empty hfresh]
      rfl
    | some a =>
      rw [hlast] at hf
      exact Gives.assembled hf
  rw [missing, ← Fin.find?_eq_find?_finRange, Fin.find?_eq_some_iff]
  simp [hslot, Option.isSome_iff_ne_none]

end ElementStore

/-! ## Sessions -/

namespace Session

variable [Zero S] [One S] [Add S] [Sub S] [Mul S] [Div S] [Neg S] [BEq S] [LT S] [DecidableLT S]

/-- An offer to a prepared session is one to its store. -/
theorem perform_request (session : Session S) {reduction : Reduction session.disc}
    (h : session.reduction = some reduction) (o : Offer S) :
    (session.perform o.request).1 = match reduction.store.take reduction.essential.toArray o with
      | .ok store => session.holding { reduction with store := store }
      | .fault _ | .abort => session := by
  cases o with
  | one e matrix =>
    simp only [Offer.request, perform, begin, assemble, prepared, h, Outcome.orFault,
      Outcome.ok_bind, ElementStore.take]
    cases reduction.store.assemble e matrix reduction.essential.toArray <;> rfl
  | all s batch =>
    simp only [Offer.request, perform, begin, assembleAll, prepared, h, Outcome.orFault,
      Outcome.ok_bind, ElementStore.take]
    cases reduction.store.assembleAll s batch reduction.essential.toArray <;> rfl

/-- A history of offers changes nothing of a prepared session but its store and its interface
    matrix. -/
theorem after_requests (session : Session S) {reduction : Reduction session.disc}
    (h : session.reduction = some reduction) (offers : List (Offer S)) :
    ∃ matrix, session.after (offers.map Offer.request) =
      { session with
        reduction := some { reduction with
          store := reduction.store.afterOffers reduction.essential.toArray offers }
        matrix := matrix } := by
  induction offers generalizing session with
  | nil =>
    refine ⟨session.matrix, ?_⟩
    show session = { session with reduction := some reduction }
    rw [← h]
  | cons o rest ih =>
    show ∃ matrix, (session.perform o.request).1.after (rest.map Offer.request) =
      { session with
        reduction := some { reduction with
          store := (ElementStore.afterOffer reduction.essential.toArray reduction.store
            o).afterOffers reduction.essential.toArray rest }
        matrix := matrix }
    rw [session.perform_request h o, ElementStore.afterOffer]
    cases reduction.store.take reduction.essential.toArray o with
    | ok store => exact ih (session.holding { reduction with store := store }) rfl
    | fault why => exact ih session h
    | abort => exact ih session h

end Session

/-! ## The result -/

namespace ElementStore

open Offer

variable [Zero S] [One S] [Add S] [Sub S] [Mul S] [Div S] [Neg S] [BEq S] [LT S] [DecidableLT S]

/-- **The result**: an offer is accepted just if it fits; after any history of offers to a new store
    every element is as if it had been given its last accepted matrix and nothing else, and one
    without such a matrix is as it was; the first of these is the one that is missing.  So a batch
    does what its slices do in any order, and after histories with the same last matrices a session
    is finalized in the same way. -/
theorem last_matrices_determine {fresh : ElementStore S ne m} (hfresh : empty? ne m = .ok fresh)
    (marked : Array Bool) :
    (∀ (store : ElementStore S ne m) (o : Offer S),
      (o.Fits ne m marked ∧ ∃ next, store.take marked o = .ok next) ∨
        (¬ o.Fits ne m marked ∧ ∃ why, store.take marked o = .fault why)) ∧
    (∀ (offers : List (Offer S)) (e : Fin ne),
      match lastFor ne m marked e offers with
      | some a => ∃ single, fresh.assemble e a marked = .ok single ∧
          (fresh.afterOffers marked offers).slots.get e = single.slots.get e
      | none => (fresh.afterOffers marked offers).slots.get e = fresh.slots.get e ∧
          ((fresh.afterOffers marked offers).slots.get e).assembled = false) ∧
    (∀ (offers : List (Offer S)) (e : Fin ne), (fresh.afterOffers marked offers).missing = some e ↔
      lastFor ne m marked e offers = none ∧
        ∀ f : Fin ne, f < e → lastFor ne m marked f offers ≠ none) ∧
    (∀ (store : ElementStore S ne m) (s : Schedule) (batch : Array S) (order : List (Fin ne)),
      batch.size = ne * (m * m) → (∀ e, e ∈ order) →
        store.afterOffers marked [.all s batch] =
          store.afterOffers marked (slices m batch order)) ∧
    (∀ (session : Session S) (reduction : Reduction session.disc) (offers offers' : List (Offer S)),
      session.reduction = some reduction →
      (∀ e : Fin session.disc.ne,
        lastFor session.disc.ne session.disc.m reduction.essential.toArray e offers =
          lastFor session.disc.ne session.disc.m reduction.essential.toArray e offers') →
        ∀ (s : Schedule) (place : Place),
          (session.after (offers.map request)).finalizeProgram s place =
            (session.after (offers'.map request)).finalizeProgram s place) := by
  refine ⟨fun store o => store.take_cases marked o, ?_, missing_after hfresh, ?_, ?_⟩
  · intro offers e
    have hslot := fresh.slot_after marked offers e
    cases hlast : lastFor ne m marked e offers with
    | some a =>
      rw [hlast] at hslot
      obtain ⟨single, hsingle, hget⟩ := Gives.alone hslot fresh
      exact ⟨single, hsingle, hget.symm⟩
    | none =>
      rw [hlast] at hslot
      have hsame : (fresh.afterOffers marked offers).slots.get e = fresh.slots.get e := hslot
      refine ⟨hsame, ?_⟩
      rw [hsame, slot_of_empty hfresh]
  · intro store s batch order hbatch horder
    exact store.after_congr fun e => lastFor_slices s hbatch (horder e)
  · intro session reduction offers offers' hreduction hlast s place
    obtain ⟨matrix, hafter⟩ := session.after_requests hreduction offers
    obtain ⟨matrix', hafter'⟩ := session.after_requests hreduction offers'
    -- the two sessions differ in the matrix they hold, and finalizing does not look at it
    rw [hafter, hafter', reduction.store.after_congr hlast]
    rfl

/-- A matrix and then a batch, two offers that are refused, and one of the matrices again. -/
def repeatedOffers : List (Offer ℚ) :=
  [.one 0 #[9, 9, 9, 9], .all .backwards #[2, 1, 1, 3, 0, 1, 1, 0], .all .inOrder #[1, 2, 3],
    .one 2 #[1, 0, 0, 1], .one 0 #[0, 2, 3, 4]]

/-- So it is for two elements with two degrees of freedom each, and for a session in which one of
    two elements had a matrix. -/
theorem last_matrices_determine_repeated :
    ∃ fresh : ElementStore ℚ 2 2, empty? 2 2 = .ok fresh ∧
      (∃ single, fresh.assemble 0 #[0, 2, 3, 4] #[false, true, false, false] = .ok single ∧
        (fresh.afterOffers #[false, true, false, false] repeatedOffers).slots.get 0 =
          single.slots.get 0) ∧
      (∃ single, fresh.assemble 1 #[0, 1, 1, 0] #[false, true, false, false] = .ok single ∧
        (fresh.afterOffers #[false, true, false, false] repeatedOffers).slots.get 1 =
          single.slots.get 1) ∧
      (fresh.afterOffers #[false, true, false, false]
        [.one 1 #[0, 1, 1, 0], .one 0 #[]]).missing = some 0 ∧
      (fresh.afterOffers #[false, true, false, false] [.all .inOrder #[2, 1, 1, 3, 0, 1, 1, 0]] =
        fresh.afterOffers #[false, true, false, false]
          [.one 1 #[0, 1, 1, 0], .one 0 #[2, 1, 1, 3]]) ∧
      let session : Session Rat := ⟨twoElements, {}, [], some oneAssembled, none⟩
      ((session.after [.assemble 1 #[5], .assembleAll .inOrder #[2, 3]]).finalizeProgram .inOrder
          .alone =
        (session.after [.assemble 0 #[2], .assemble 7 #[1], .assemble 1 #[3]]).finalizeProgram
          .inOrder .alone) := by
  have hfresh : (empty? 2 2 : Outcome (ElementStore ℚ 2 2)) =
      .ok ⟨Vector.replicate 2 ⟨.blank, false⟩⟩ := rfl
  obtain ⟨-, hslots, hmissing, hbatch, hsession⟩ :=
    last_matrices_determine hfresh #[false, true, false, false]
  refine ⟨_, hfresh, hslots repeatedOffers 0, hslots repeatedOffers 1,
    (hmissing _ 0).2 (by decide), ?_, ?_⟩
  · exact hbatch _ .inOrder #[2, 1, 1, 3, 0, 1, 1, 0] [1, 0] rfl (by decide)
  · exact hsession ⟨twoElements, {}, [], some oneAssembled, none⟩ oneAssembled
      [.one 1 #[5], .all .inOrder #[2, 3]] [.one 0 #[2], .one 7 #[1], .one 1 #[3]] rfl (by decide)
      .inOrder .alone

end ElementStore

end Condensation
