/-
  Faithful pulls — the owner's value, or no value.

  A rank cuts its list of wanted indices by counts alone: so many indices for every owner, in the
  order of the list.  In a list that does not ascend, an index may so travel to a rank that does not
  own it.

  1. **Cutting (`exists_parts`)** — whatever the order of the list, the counts of the owners add up
     to its length, so every index travels to some rank.

  2. **Answering (`owned_of_mapM_lookup`)** — a rank answers for indices of its own range only, each
     with the value that it owns there.

  3. **Returning (`forall₂_flatten_parts`)** — the answers come back bucket by bucket, in the order
     in which the requests were cut.

  **The crux (`owned_of_pull`)**: so all ranks have values only where every index went to its owner,
  and then they have the owner's values, in the order of the requests.
-/
import Condensation.Proofs.Delivery
import Condensation.Proofs.SharedProducts
import Mathlib.Data.List.SplitLengths
import Mathlib.Algebra.BigOperators.Fin
import Mathlib.Data.Multiset.Count

namespace Condensation

variable {S α : Type} {n : Nat} {len : Fin n → Nat}

/-! ## Cutting -/

/-- Everything is in one of the classes. -/
theorem sum_length_classes {β : Type} {m : Nat} {key : β → Nat} {L : List β}
    (hlt : ∀ b ∈ L, key b < m) : ((classes m key L).map List.length).sum = L.length := by
  have hcount : ∀ r : Nat, (L.filter fun b => key b = r).length = (L.map key).count r := by
    intro r
    rw [List.count_eq_countP, List.countP_map, List.countP_eq_length_filter]
    rfl
  have hall : ∀ a ∈ (L.map key : Multiset Nat), a ∈ Finset.range m := by
    intro a ha
    obtain ⟨b, hb, rfl⟩ := List.mem_map.1 (Multiset.mem_coe.1 ha)
    exact Finset.mem_range.2 (hlt b hb)
  calc ((classes m key L).map List.length).sum
      = ∑ r : Fin m, (L.map key).count r.val := by
        rw [classes_eq_ofFn, List.map_ofFn, List.sum_ofFn]
        exact Finset.sum_congr rfl fun r _ => hcount r
    _ = ∑ r ∈ Finset.range m, (L.map key : Multiset Nat).count r := by
        simp only [Multiset.coe_count]
        exact Fin.sum_univ_eq_sum_range (fun r => (L.map key).count r) m
    _ = L.length := by
        rw [Multiset.sum_count_eq_card hall, Multiset.coe_card, List.length_map]

/-- A list is cut into parts of any lengths that add up to its own. -/
theorem exists_parts {β : Type} (L : List β) {counts : List Nat} (hn : counts.length = n)
    (hsum : counts.sum = L.length) :
    ∃ parts : Fin n → List β, L = (List.ofFn parts).flatten ∧
      counts = (List.ofFn parts).map List.length := by
  subst hn
  have hparts : List.ofFn (fun r : Fin counts.length =>
      (counts.splitLengths L).get (r.cast (by simp))) = counts.splitLengths L := by
    refine List.ext_getElem (by simp) fun r h1 h2 => ?_
    rw [List.getElem_ofFn]
    rfl
  refine ⟨fun r => (counts.splitLengths L).get (r.cast (by simp)), ?_, ?_⟩
  · rw [hparts, List.flatten_splitLengths _ _ (by omega)]
  · rw [hparts, List.map_splitLengths_length _ _ (by omega)]

namespace Exchange

/-- Items that carry indices, in any order, are cut at the counts of the owners. -/
theorem exists_requests {β : Type} (len : Fin n → Nat) (hn : 0 < n) (index : β → Nat)
    (L : List β) :
    ∃ parts : Fin n → List β, L = (List.ofFn parts).flatten ∧
      (tiling len).countsPerOwner (L.map index) = .ok ((List.ofFn parts).map List.length) := by
  -- beyond the end of the space, the last rank is asked
  have hrank : ∀ b ∈ L, (tiling len).rankOf (index b) < n := by
    intro b _
    rw [Ownership.rankOf, Ownership.numRanks_tiling]
    omega
  have hnumber : ((classes n (fun b => (tiling len).rankOf (index b)) L).map
      List.length).length = n := by
    simp [classes]
  obtain ⟨parts, hflat, hlens⟩ := exists_parts L hnumber (sum_length_classes hrank)
  exact ⟨parts, hflat, by rw [Ownership.countsPerOwner_eq hn, hlens]⟩

/-! ## Answering -/

/-- The value `v` is the one that the owner of index `g` holds there. -/
def OwnersValue (len : Fin n → Nat) (owned : ∀ r, Vector S (len r)) (g : Nat) (v : S) : Prop :=
  ∃ (q : Fin n) (i : Fin (len q)), g = (tiling len).start q + i ∧ v = (owned q).get i

/-- A rank answers for its own indices only, with the value it owns. -/
theorem owned_of_lookup {owned : ∀ r, Vector S (len r)} {r : Fin n} {g : Nat} {v : S}
    (h : lookup ((tiling len).range r) (owned r).toList g = .ok v) :
    OwnersValue len owned g v := by
  unfold lookup at h
  split at h
  · next hholds =>
    obtain ⟨hle, hlt⟩ := hholds
    have hfirst : ((tiling len).range r).first = (tiling len).start r := rfl
    have hlast : ((tiling len).range r).last = (tiling len).start r + len r :=
      Ownership.start_succ len r
    have hplace : g - (tiling len).start r < len r := by omega
    have hvalue := Outcome.ofOption_eq_ok_iff.1 h
    rw [hfirst, List.getElem?_eq_getElem (by simpa using hplace)] at hvalue
    refine ⟨r, ⟨g - (tiling len).start r, hplace⟩, ?_, ?_⟩
    · show g = (tiling len).start r + (g - (tiling len).start r)
      omega
    · rw [← Option.some.inj hvalue]
      simp [Vector.get]
  · simp at h

/-- So do its answers to a list of requests. -/
theorem owned_of_mapM_lookup {owned : ∀ r, Vector S (len r)} {r : Fin n} {requests : List Nat}
    {answers : List S}
    (h : requests.mapM (lookup ((tiling len).range r) (owned r).toList) = .ok answers) :
    List.Forall₂ (OwnersValue len owned) requests answers := by
  induction requests generalizing answers with
  | nil =>
    obtain rfl : [] = answers := by simpa using h
    exact .nil
  | cons g rest ih =>
    rw [List.mapM_cons] at h
    obtain ⟨v, hv, h⟩ := Outcome.bind_eq_ok_iff.1 h
    obtain ⟨vs, hvs, h⟩ := Outcome.bind_eq_ok_iff.1 h
    obtain rfl : v :: vs = answers := by simpa using h
    exact .cons (owned_of_lookup hv) (ih hvs)

/-! ## Returning -/

/-- Answers to two lists of requests, apart. -/
theorem exists_append_of_forall₂ {β γ : Type} {R : β → γ → Prop} {L M : List β} {N : List γ}
    (h : List.Forall₂ R (L ++ M) N) :
    ∃ L' M', N = L' ++ M' ∧ List.Forall₂ R L L' ∧ List.Forall₂ R M M' := by
  induction L generalizing N with
  | nil => exact ⟨[], N, rfl, .nil, h⟩
  | cons b rest ih =>
    cases h with
    | cons hb h =>
      obtain ⟨L', M', rfl, hL, hM⟩ := ih h
      exact ⟨_ :: L', M', rfl, .cons hb hL, hM⟩

/-- Answers to the requests of all ranks, apart. -/
theorem exists_answers {β γ : Type} {R : β → γ → Prop} (parts : Fin n → List β) {N : List γ}
    (h : List.Forall₂ R (List.ofFn parts).flatten N) :
    ∃ answers : Fin n → List γ, N = (List.ofFn answers).flatten ∧
      ∀ s, List.Forall₂ R (parts s) (answers s) := by
  induction n generalizing N with
  | zero =>
    cases h
    exact ⟨fun s => s.elim0, rfl, fun s => s.elim0⟩
  | succ n ih =>
    rw [List.ofFn_succ, List.flatten_cons] at h
    obtain ⟨first, later, rfl, hfirst, hlater⟩ := exists_append_of_forall₂ h
    obtain ⟨answers, rfl, hrest⟩ := ih (fun s => parts s.succ) hlater
    refine ⟨Fin.cons first answers, ?_, fun s => ?_⟩
    · rw [List.ofFn_succ, List.flatten_cons]
      rfl
    · cases s using Fin.cases with
      | zero => exact hfirst
      | succ s => exact hrest s

/-- Answers to every part are answers to the whole. -/
theorem forall₂_flatten_parts {β γ : Type} {R : β → γ → Prop} {parts : Fin n → List β}
    {answers : Fin n → List γ} (h : ∀ s, List.Forall₂ R (parts s) (answers s)) :
    List.Forall₂ R (List.ofFn parts).flatten (List.ofFn answers).flatten := by
  refine List.rel_flatten (List.forall₂_iff_get.2 ⟨by simp, fun s h1 h2 => ?_⟩)
  simp only [List.get_eq_getElem, List.getElem_ofFn]
  exact h _

/-- **The crux**: where all ranks have values, they are the owner's values. -/
theorem owned_of_pull {owned : ∀ r, Vector S (len r)} {wanted : Fin n → List Nat}
    {values : Fin n → List S}
    (h : Together (fun r : Fin n => pull ⟨r, n⟩ (tiling len) (owned r).toList (wanted r)) values)
    (r : Fin n) : List.Forall₂ (OwnersValue len owned) (wanted r) (values r) := by
  have hlen : ∀ r : Fin n, Outcome.sameLength .ownedValues ((tiling len).range r).length
      (owned r).toList.length = .ok () :=
    fun r => Outcome.require_eq_ok_iff.2 (by rw [Ownership.length_range, Vector.length_toList])
  by_cases hn : n = 1
  · subst hn
    simp only [pull, Ownership.rangeAt_tiling, hlen, if_true, Program.ofOutcome, Program.liftM_eq,
      Program.done_ok_bind] at h
    exact owned_of_mapM_lookup (h.of_done rfl)
  · choose parts hparts hcounts using fun r => exists_requests len r.pos id (wanted r)
    simp only [List.map_id] at hcounts
    simp only [pull, Ownership.rangeAt_tiling, hlen, if_neg hn, Program.ofOutcome, Program.liftM_eq,
      Program.done_ok_bind, hcounts, Program.allToAllIndices, Program.allToAllValues,
      Program.allToAll, Program.exchange_bind] at h
    have hsend : (List.ofFn fun s => (wanted s, (List.ofFn (parts s)).map List.length)) =
        List.ofFn fun s => ((List.ofFn (parts s)).flatten, (List.ofFn (parts s)).map List.length) :=
      congrArg List.ofFn (funext fun s => Prod.ext (hparts s) rfl)
    rw [Together.exchange_iff, hsend] at h
    simp only [delivered_ofFn] at h
    -- rank `r` has got part `r` of every list, and has an answer to all of it
    obtain ⟨replies, hreplies, h⟩ := Together.of_lift_bind h
    choose answers hanswers howned using fun r =>
      exists_answers (fun s => parts s r) (owned_of_mapM_lookup (hreplies r))
    have hback : ∀ r : Fin n, (List.ofFn fun s => (parts s r).length) =
        (List.ofFn (answers r)).map List.length := by
      intro r
      rw [List.map_ofFn]
      exact congrArg List.ofFn (funext fun s => (howned r s).length_eq)
    simp only [hanswers, hback] at h
    rw [Together.exchange_iff] at h
    simp only [delivered_ofFn] at h
    obtain ⟨_, -, h⟩ := Together.of_lift_bind h
    have hvalues : (List.ofFn fun s => answers s r).flatten = values r :=
      Outcome.ok.inj (h.of_done rfl)
    rw [hparts r, ← hvalues]
    exact forall₂_flatten_parts fun s => howned s r

/-- **Faithful pulls**: ascending lists of indices of the space are answered on all ranks, with the
    owners' values; and whatever the lists, where all ranks have values, each of them is the value
    that the owner of the index holds. -/
theorem pull_faithful [Zero S] (len : Fin n → Nat) (owned : ∀ r, Vector S (len r))
    (wanted : Fin n → List Nat) :
    ((∀ r, (wanted r).Pairwise (· ≤ ·)) → (∀ r, ∀ g ∈ wanted r, g < (tiling len).globalSize) →
      ∃ values : Fin n → List S,
        Together (fun r : Fin n => pull ⟨r, n⟩ (tiling len) (owned r).toList (wanted r)) values ∧
          ∀ r, List.Forall₂ (OwnersValue len owned) (wanted r) (values r)) ∧
    ∀ values : Fin n → List S,
      Together (fun r : Fin n => pull ⟨r, n⟩ (tiling len) (owned r).toList (wanted r)) values →
        ∀ r, List.Forall₂ (OwnersValue len owned) (wanted r) (values r) := by
  refine ⟨fun hsorted hin => ?_, fun values h => owned_of_pull h⟩
  obtain ⟨value, hvalue⟩ : ∃ value, Spread len value fun r => (owned r).toArray :=
    exists_spread fun r => (owned r).size_toArray
  have hvalues : Together (fun r : Fin n => pull ⟨r, n⟩ (tiling len) (owned r).toList (wanted r))
      fun r => (wanted r).map value := by
    refine Together.of_bind_done ?_
    have howned : ∀ r, (owned r).toList = _ := hvalue
    simp only [howned]
    exact pull_then (k := fun _ found => .done (.ok found)) hsorted hin (Together.done _)
  exact ⟨_, hvalues, owned_of_pull hvalues⟩

/-- Three ranks, the second of which owns nothing. -/
def gapLengths : Fin 3 → Nat := ![2, 0, 1]

/-- They own ten times every index. -/
def gapOwned (r : Fin 3) : Vector Int (gapLengths r) :=
  Vector.ofFn fun i => 10 * ((tiling gapLengths).start r + i)

/-- Ascending lists, with repetitions. -/
def gapAscending : Fin 3 → List Nat := ![[0, 2], [0, 0, 1], []]

/-- Lists out of order that still go to the owners: the first rank asks itself for its values in
    reverse. -/
def gapReversed : Fin 3 → List Nat := ![[1, 0, 2], [], [1, 0]]

/-- So it is for three ranks, one without an index of its own. -/
theorem pull_faithful_gap :
    (∃ values : Fin 3 → List Int,
      Together (fun r : Fin 3 => pull ⟨r, 3⟩ (tiling gapLengths) (gapOwned r).toList
        (gapAscending r)) values ∧
      ∀ r, List.Forall₂ (OwnersValue gapLengths gapOwned) (gapAscending r) (values r)) ∧
    Together (fun r : Fin 3 => pull ⟨r, 3⟩ (tiling gapLengths) (gapOwned r).toList (gapReversed r))
      ![[10, 0, 20], [], [10, 0]] ∧
    ∀ r, List.Forall₂ (OwnersValue gapLengths gapOwned) (gapReversed r)
      (![[10, 0, 20], [], [10, 0]] r) := by
  have hvalues : Together (fun r : Fin 3 =>
      pull ⟨r, 3⟩ (tiling gapLengths) (gapOwned r).toList (gapReversed r))
      ![[10, 0, 20], [], [10, 0]] := rfl
  exact ⟨(pull_faithful gapLengths gapOwned gapAscending).1 (by decide) (by decide), hvalues,
    (pull_faithful gapLengths gapOwned gapReversed).2 _ hvalues⟩

end Exchange

end Condensation
