/-
  Delivery — what arrives when all ranks exchange.

  Each of the three exchanges is followed from the calls to the results of all ranks, for any number
  of ranks and for ranges that may be empty.  A single rank makes no call, and gets the same.

  1. **Pulling (`pull_then`)** — every rank gets the values at the indices it asked for.

  2. **Pushing (`push_then`)** — every rank gets, at each of its indices, the sum of what all ranks
     contribute there.

  3. **Routing (`toRowOwners_then`)** — every rank gets `arriving`, the triplets of all ranks whose
     rows it owns (`arriving_perm`).

  **The crux** is the same each time: indices in ascending order are in the order of their owners,
  so the counts of the owners cut them into exactly the parts that are meant for the ranks.
-/
import Condensation.Proofs.SparseEntries
import Condensation.Proofs.Tiling
import Condensation.Ranks.Exchange

namespace Condensation

variable {S α : Type} {n : Nat} {len : Fin n → Nat}

namespace Exchange

/-- The part of a list that goes to rank `r`. -/
def partOf {β : Type} (len : Fin n → Nat) (index : β → Nat) (L : List β) (r : Nat) : List β :=
  L.filter fun b => (tiling len).rankOf (index b) = r

/-- What goes to rank `r` lies in its range. -/
theorem holds_of_mem_partOf {β : Type} (index : β → Nat) {L : List β}
    (hin : ∀ b ∈ L, index b < (tiling len).globalSize) {r : Fin n} {b : β}
    (hb : b ∈ partOf len index L r) : ((tiling len).range r).Holds (index b) := by
  obtain ⟨hmem, howner⟩ := List.mem_filter.1 hb
  exact (Ownership.rankOf_eq_iff (hin b hmem) r).1 (by simpa using howner)

/-- What all ranks send to rank `r`. -/
def arrived {β : Type} (len : Fin n → Nat) (index : β → Nat) (L : Fin n → List β) (r : Nat) :
    List β :=
  (List.ofFn fun s => partOf len index (L s) r).flatten

theorem mem_of_mem_arrived {β : Type} {index : β → Nat} {L : Fin n → List β} {r : Nat} {b : β}
    (hb : b ∈ arrived len index L r) : ∃ s, b ∈ partOf len index (L s) r := by
  obtain ⟨part, hpart, hb⟩ := List.mem_flatten.1 hb
  obtain ⟨s, rfl⟩ := (List.mem_ofFn' _ _).1 hpart
  exact ⟨s, hb⟩

theorem holds_of_mem_arrived {β : Type} (index : β → Nat) {L : Fin n → List β}
    (hin : ∀ s, ∀ b ∈ L s, index b < (tiling len).globalSize) {r : Fin n} {b : β}
    (hb : b ∈ arrived len index L r) : ((tiling len).range r).Holds (index b) := by
  obtain ⟨s, hb⟩ := mem_of_mem_arrived hb
  exact holds_of_mem_partOf index (hin s) hb

/-- A single rank owns everything. -/
theorem partOf_alone {β : Type} {len : Fin 1 → Nat} (index : β → Nat) {L : List β}
    (hin : ∀ b ∈ L, index b < (tiling len).globalSize) (r : Fin 1) :
    partOf len index L r = L := by
  refine List.filter_eq_self.2 fun b hb => ?_
  have := Ownership.rankOf_lt (hin b hb)
  have hr := r.isLt
  simp only [decide_eq_true_eq]
  omega

/-- So it gets what it has. -/
theorem arrived_alone {β : Type} {len : Fin 1 → Nat} (index : β → Nat) {L : Fin 1 → List β}
    (hin : ∀ r, ∀ b ∈ L r, index b < (tiling len).globalSize) (r : Fin 1) :
    arrived len index L r = L r := by
  have hr : r = 0 := Subsingleton.elim _ _
  subst hr
  rw [arrived, List.ofFn_succ, List.ofFn_zero, List.flatten_cons, List.flatten_nil,
    List.append_nil]
  exact partOf_alone index (hin 0) 0

/-- What is done to every element is done to every part. -/
theorem flatten_ofFn_map {β γ : Type} (parts : Fin n → List β) (f : β → γ) :
    (List.ofFn fun s => (parts s).map f).flatten = (List.ofFn parts).flatten.map f := by
  rw [List.map_flatten, List.map_ofFn]
  rfl

/-- What is done to every element leaves the lengths of the parts. -/
theorem lengths_ofFn_map {β γ : Type} (parts : Fin n → List β) (f : β → γ) :
    (List.ofFn parts).map List.length = (List.ofFn fun s => (parts s).map f).map List.length := by
  rw [List.map_ofFn, List.map_ofFn]
  simp [Function.comp_def]

/-- Ascending indices are cut into the parts of the ranks. -/
theorem flatten_parts {β : Type} {index : β → Nat} {L : List β}
    (hsorted : L.Pairwise fun a b => index a ≤ index b)
    (hin : ∀ b ∈ L, index b < (tiling len).globalSize) :
    (List.ofFn fun r : Fin n => partOf len index L r).flatten = L := by
  have howners : L.Pairwise fun a b =>
      (tiling len).rankOf (index a) ≤ (tiling len).rankOf (index b) :=
    hsorted.imp fun hab => Ownership.rankOf_mono _ hab
  have hlt : ∀ b ∈ L, (tiling len).rankOf (index b) < n :=
    fun b hb => Ownership.rankOf_lt (hin b hb)
  exact (congrArg List.flatten (classes_eq_ofFn n _ L)).symm.trans
    (flatten_classes howners hlt)

/-- The counts of the owners are the lengths of the parts. -/
theorem countsPerOwner_parts {β : Type} (hn : 0 < n) (index : β → Nat) (L : List β) :
    (tiling len).countsPerOwner (L.map index) =
      .ok ((List.ofFn fun r : Fin n => partOf len index L r).map List.length) := by
  rw [Ownership.countsPerOwner_eq hn, classes_eq_ofFn]
  rfl

/-! ## Pulling -/

theorem lookup_eq {value : Nat → S} {r : Fin n} {g : Nat}
    (h : ((tiling len).range r).Holds g) :
    lookup ((tiling len).range r)
      (List.ofFn fun i : Fin (len r) => value ((tiling len).start r + i)) g = .ok (value g) := by
  obtain ⟨hle, hlt⟩ := h
  have hfirst : ((tiling len).range r).first = (tiling len).start r := rfl
  have hlast : ((tiling len).range r).last = (tiling len).start r + len r :=
    Ownership.start_succ len r
  have hplace : g - (tiling len).start r < len r := by omega
  rw [lookup, if_pos ⟨hle, hlt⟩, hfirst, List.getElem?_ofFn, dif_pos hplace]
  exact congrArg (fun g => Outcome.ok (value g)) (Nat.add_sub_cancel' hle)

theorem mapM_lookup {value : Nat → S} {r : Fin n} {wanted : List Nat}
    (h : ∀ g ∈ wanted, ((tiling len).range r).Holds g) :
    wanted.mapM (lookup ((tiling len).range r)
      (List.ofFn fun i : Fin (len r) => value ((tiling len).start r + i))) =
        .ok (wanted.map value) :=
  Outcome.mapM_eq_ok fun g hg => lookup_eq (h g hg)

/-- **Pulling**: every rank gets the values at the indices it asked for. -/
theorem pull_then {value : Nat → S} {wanted : Fin n → List Nat} {k : Fin n → List S → Program S α}
    {a : Fin n → α} (hsorted : ∀ r, (wanted r).Pairwise (· ≤ ·))
    (hin : ∀ r, ∀ g ∈ wanted r, g < (tiling len).globalSize)
    (h : Together (fun r => k r ((wanted r).map value)) a) :
    Together (fun r : Fin n => pull ⟨r, n⟩ (tiling len)
      (List.ofFn fun i : Fin (len r) => value ((tiling len).start r + i)) (wanted r) >>= k r) a := by
  have hlen : ∀ r : Fin n, Outcome.sameLength .ownedValues ((tiling len).range r).length
      (List.ofFn fun i : Fin (len r) => value ((tiling len).start r + i)).length = .ok () :=
    fun r => Outcome.require_eq_ok_iff.2 (by rw [Ownership.length_range, List.length_ofFn])
  by_cases hn : n = 1
  · subst hn
    have hall : ∀ r : Fin 1, ∀ g ∈ wanted r, ((tiling len).range r).Holds g := by
      intro r g hg
      refine holds_of_mem_partOf id (hin r) ?_
      rwa [partOf_alone id (hin r)]
    have hvalues : ∀ r : Fin 1, (wanted r).mapM (lookup ((tiling len).range r)
        (List.ofFn fun i : Fin (len r) => value ((tiling len).start r + i))) =
          .ok ((wanted r).map value) :=
      fun r => mapM_lookup (hall r)
    simp only [pull, Ownership.rangeAt_tiling, hlen, if_true, Program.ofOutcome, Program.liftM_eq,
      Program.done_ok_bind, hvalues]
    exact h
  · have hcounts : ∀ r : Fin n, (tiling len).countsPerOwner (wanted r) =
        .ok ((List.ofFn fun s : Fin n => partOf len id (wanted r) s).map List.length) := by
      intro r
      have hparts := @countsPerOwner_parts n len _ r.pos id (wanted r)
      rwa [List.map_id] at hparts
    simp only [pull, Ownership.rangeAt_tiling, hlen, if_neg hn, Program.ofOutcome, Program.liftM_eq,
      Program.done_ok_bind, hcounts, Program.allToAllIndices, Program.allToAllValues,
      Program.allToAll, Program.exchange_bind]
    have hcut : ∀ r : Fin n, (List.ofFn fun s : Fin n => partOf len id (wanted r) s).flatten =
        wanted r := fun r => flatten_parts (hsorted r) (hin r)
    refine Together.exchange_of_parts .indices (fun r s => partOf len id (wanted r) s)
      (fun r => (hcut r).symm) (fun r => rfl) ?_
    -- what is asked of rank `r` lies in its range, so every request is answered
    have hreplies : ∀ r : Fin n, (List.ofFn fun s => partOf len id (wanted s) r).flatten.mapM
        (lookup ((tiling len).range r)
          (List.ofFn fun i : Fin (len r) => value ((tiling len).start r + i))) =
        .ok ((List.ofFn fun s => partOf len id (wanted s) r).flatten.map value) :=
      fun r => mapM_lookup fun g hg => holds_of_mem_arrived id hin hg
    simp only [Program.done_ok_bind, hreplies, Program.exchange_bind]
    refine Together.exchange_of_parts .values (fun r s => (partOf len id (wanted s) r).map value)
      (fun r => (flatten_ofFn_map _ _).symm)
      (fun r => by rw [← lengths_ofFn_map, List.map_ofFn]; rfl) ?_
    have hfetched : ∀ r : Fin n, Outcome.sameLength .fetchedValues (wanted r).length
        ((wanted r).map value).length = .ok () :=
      fun r => Outcome.require_eq_ok_iff.2 (List.length_map _).symm
    simp only [Program.done_ok_bind, flatten_ofFn_map, hcut, hfetched, Program.pure_eq]
    exact h

/-! ## Pushing -/

section Push

variable [AddCommMonoid S]

theorem addOwned_eq {r : Fin n} {c : Nat × S} (f : Fin (len r) → S)
    (h : ((tiling len).range r).Holds c.1) :
    addOwned ((tiling len).range r) (List.ofFn f) c =
      .ok (List.ofFn fun i => f i + if c.1 = (tiling len).start r + i then c.2 else 0) := by
  have hle : (tiling len).start r ≤ c.1 := h.1
  have hfirst : ((tiling len).range r).first = (tiling len).start r := rfl
  rw [addOwned, if_pos h, hfirst]
  congr 1
  refine List.ext_getElem (by simp) fun i h1 h2 => ?_
  rw [List.getElem_modify, List.getElem_ofFn, List.getElem_ofFn]
  by_cases hi : c.1 - (tiling len).start r = i
  · have : c.1 = (tiling len).start r + i := by omega
    rw [if_pos hi, if_pos this]
  · have : ¬ c.1 = (tiling len).start r + i := by omega
    rw [if_neg hi, if_neg this, add_zero]

theorem foldlM_addOwned {r : Fin n} {cs : List (Nat × S)}
    (h : ∀ c ∈ cs, ((tiling len).range r).Holds c.1) (f : Fin (len r) → S) :
    cs.foldlM (addOwned ((tiling len).range r)) (List.ofFn f) =
      .ok (List.ofFn fun i => f i + sumAt cs ((tiling len).start r + i)) := by
  induction cs generalizing f with
  | nil => simp
  | cons c rest ih =>
    rw [List.foldlM_cons, addOwned_eq f (h c (by simp)), Outcome.ok_bind,
      ih fun c' hc' => h c' (by simp [hc'])]
    simp only [sumAt_cons, add_assoc]

/-- What all ranks hold under a key arrives at the rank that holds the index of this key. -/
theorem sumAt_arrived {ι : Type} [DecidableEq ι] (index : ι → Nat) (L : Fin n → List (ι × S))
    {r : Fin n} {i : ι} (h : ((tiling len).range r).Holds (index i)) :
    sumAt (arrived len (fun e => index e.1) L r) i = ∑ s, sumAt (L s) i := by
  have hpart : ∀ s, sumAt (partOf len (fun e => index e.1) (L s) r) i = sumAt (L s) i := by
    intro s
    refine sumAt_filter fun e _ he => ?_
    simp only [he, Ownership.rankOf_of_holds h, decide_true]
  rw [arrived, sumAt_flatten, List.map_ofFn, List.sum_ofFn]
  exact Finset.sum_congr rfl fun s _ => hpart s

/-- Whatever way the contributions came, they are added up. -/
theorem foldlM_arrived {contributions : Fin n → List (Nat × S)}
    (hin : ∀ r, ∀ c ∈ contributions r, c.1 < (tiling len).globalSize) (r : Fin n) :
    (arrived len (·.1) contributions r).foldlM (addOwned ((tiling len).range r))
      (List.replicate ((tiling len).range r).length 0) =
      .ok (List.ofFn fun i : Fin (len r) =>
        ∑ s, sumAt (contributions s) ((tiling len).start r + i)) := by
  have hzeros : List.replicate ((tiling len).range r).length (0 : S) =
      List.ofFn fun _ : Fin (len r) => (0 : S) := by
    rw [Ownership.length_range, List.ofFn_const]
  have hheld : ∀ c ∈ arrived len (·.1) contributions r, ((tiling len).range r).Holds c.1 :=
    fun c hc => holds_of_mem_arrived _ hin hc
  rw [hzeros, foldlM_addOwned hheld]
  congr 2
  funext i
  exact (zero_add _).trans
    (sumAt_arrived id contributions (Ownership.holds_start_add len r i))

/-- **Pushing**: every rank gets the sums, over all ranks, at its own indices. -/
theorem push_then {contributions : Fin n → List (Nat × S)} {k : Fin n → List S → Program S α}
    {a : Fin n → α}
    (hsorted : ∀ r, (contributions r).Pairwise fun c d => c.1 ≤ d.1)
    (hin : ∀ r, ∀ c ∈ contributions r, c.1 < (tiling len).globalSize)
    (h : Together (fun r => k r (List.ofFn fun i : Fin (len r) =>
      ∑ s, sumAt (contributions s) ((tiling len).start r + i))) a) :
    Together (fun r : Fin n => push ⟨r, n⟩ (tiling len) ((contributions r).map (·.1))
      ((contributions r).map (·.2)) >>= k r) a := by
  have hlen : ∀ r : Fin n, Outcome.sameLength .contributions ((contributions r).map (·.1)).length
      ((contributions r).map (·.2)).length = .ok () :=
    fun r => Outcome.require_eq_ok_iff.2 (by rw [List.length_map, List.length_map])
  have hzip : ∀ l : List (Nat × S), (l.map (·.1)).zip (l.map (·.2)) = l := by
    intro l
    rw [List.zip_map']
    simp
  by_cases hn : n = 1
  · subst hn
    have hall : ∀ r : Fin 1, arrived len (·.1) contributions r = contributions r :=
      arrived_alone _ hin
    have hsums := fun r => foldlM_arrived hin r
    simp only [hall] at hsums
    simp only [push, hlen, Ownership.rangeAt_tiling, if_true, Program.ofOutcome, Program.liftM_eq,
      Program.done_ok_bind, hzip, hsums]
    exact h
  · have hcounts : ∀ r : Fin n, (tiling len).countsPerOwner ((contributions r).map (·.1)) =
        .ok ((List.ofFn fun s : Fin n => partOf len (·.1) (contributions r) s).map List.length) :=
      fun r => countsPerOwner_parts r.pos _ _
    have hcut : ∀ r : Fin n,
        (List.ofFn fun s : Fin n => partOf len (·.1) (contributions r) s).flatten =
        contributions r := fun r => flatten_parts (hsorted r) (hin r)
    simp only [push, hlen, Ownership.rangeAt_tiling, if_neg hn, Program.ofOutcome, Program.liftM_eq,
      Program.done_ok_bind, hcounts, Program.allToAllIndices, Program.allToAllValues,
      Program.allToAll, Program.exchange_bind]
    refine Together.exchange_of_parts .indices
      (fun r s => (partOf len (·.1) (contributions r) s).map (·.1))
      (fun r => by rw [flatten_ofFn_map, hcut])
      (fun r => lengths_ofFn_map _ _) ?_
    refine Together.exchange_of_parts .values
      (fun r s => (partOf len (·.1) (contributions r) s).map (·.2))
      (fun r => by rw [flatten_ofFn_map, hcut])
      (fun r => lengths_ofFn_map _ _) ?_
    have hreceived : ∀ r : Fin n, Outcome.sameLength .receivedContributions
        ((arrived len (·.1) contributions r).map (·.1)).length
        ((arrived len (·.1) contributions r).map (·.2)).length = .ok () :=
      fun r => Outcome.require_eq_ok_iff.2 (by rw [List.length_map, List.length_map])
    have hsums := fun r => foldlM_arrived hin r
    simp only [arrived] at hreceived hsums
    simp only [flatten_ofFn_map, hreceived, hzip, hsums, Program.done_ok_bind]
    exact h

end Push

/-! ## Routing -/

/-- The order in which a rank sends its triplets. -/
def byRow (triplets : List (Triplet S)) : List (Triplet S) :=
  triplets.mergeSort fun a b => decide (a.row ≤ b.row)

theorem byRow_perm (triplets : List (Triplet S)) : (byRow triplets).Perm triplets :=
  List.mergeSort_perm _ _

theorem pairwise_byRow (triplets : List (Triplet S)) :
    (byRow triplets).Pairwise fun a b => a.row ≤ b.row := by
  have := @List.pairwise_mergeSort _ (fun a b : Triplet S => decide (a.row ≤ b.row))
    (by intro a b d hab hbd; simp only [decide_eq_true_eq] at *; exact le_trans hab hbd)
    (by intro a b; simp only [Bool.or_eq_true, decide_eq_true_eq]; exact le_total _ _) triplets
  exact this.imp fun h => by simpa using h

/-- The triplets that rank `r` gets, in the order in which they arrive. -/
def arriving (len : Fin n → Nat) (triplets : Fin n → List (Triplet S)) (r : Fin n) :
    List (Triplet S) :=
  if n = 1 then triplets r else arrived len (·.row) (fun s => byRow (triplets s)) r

/-- **Routing** loses nothing and adds nothing: what arrives at rank `r` are the triplets of all
    ranks in the rows of rank `r`. -/
theorem arriving_perm {triplets : Fin n → List (Triplet S)}
    (hin : ∀ s, ∀ t ∈ triplets s, t.row < (tiling len).globalSize) (r : Fin n) :
    (arriving len triplets r).Perm (arrived len (·.row) triplets r) := by
  unfold arriving
  split
  · next hn =>
    subst hn
    rw [arrived_alone _ hin]
  · refine List.Perm.flatten_congr ?_
    rw [List.forall₂_iff_get]
    refine ⟨by simp, fun s h1 h2 => ?_⟩
    simp only [List.get_eq_getElem, List.getElem_ofFn]
    exact (byRow_perm _).filter _

theorem pairUp_flatMap (triplets : List (Triplet S)) :
    pairUp (triplets.flatMap fun t => [t.row, t.column]) (triplets.map (·.value)) = triplets := by
  induction triplets with
  | nil => rfl
  | cons t rest ih =>
    show pairUp (t.row :: t.column :: rest.flatMap fun t => [t.row, t.column])
      (t.value :: rest.map (·.value)) = _
    rw [pairUp, ih]

theorem length_pairs (triplets : List (Triplet S)) :
    (triplets.flatMap fun t => [t.row, t.column]).length = 2 * triplets.length := by
  induction triplets with
  | nil => rfl
  | cons t rest ih =>
    rw [List.flatMap_cons, List.length_append, ih, List.length_cons]
    simp only [List.length_cons, List.length_nil]
    omega

theorem flatten_ofFn_flatMap {β γ : Type} (parts : Fin n → List β) (f : β → List γ) :
    (List.ofFn fun s => (parts s).flatMap f).flatten = (List.ofFn parts).flatten.flatMap f := by
  rw [List.flatMap, List.map_flatten, List.flatten_flatten, List.map_map, List.map_ofFn]
  rfl

/-- **Routing**: every rank gets the triplets of all ranks whose rows it owns. -/
theorem toRowOwners_then {triplets : Fin n → List (Triplet S)}
    {k : Fin n → List (Triplet S) → Program S α} {a : Fin n → α}
    (hin : ∀ s, ∀ t ∈ triplets s, t.row < (tiling len).globalSize)
    (h : Together (fun r => k r (arriving len triplets r)) a) :
    Together (fun r : Fin n => toRowOwners ⟨r, n⟩ (tiling len) (triplets r) >>= k r) a := by
  by_cases hn : n = 1
  · simp only [arriving, if_pos hn] at h
    simp only [toRowOwners, if_pos hn, Program.pure_eq, Program.done_ok_bind]
    exact h
  · simp only [arriving, if_neg hn] at h
    have hsorted : ∀ r, ∀ t ∈ byRow (triplets r), t.row < (tiling len).globalSize :=
      fun r t ht => hin r t ((byRow_perm _).mem_iff.1 ht)
    have hcounts : ∀ r : Fin n, (tiling len).countsPerOwner ((byRow (triplets r)).map (·.row)) =
        .ok ((List.ofFn fun s : Fin n =>
          partOf len (·.row) (byRow (triplets r)) s).map List.length) :=
      fun r => countsPerOwner_parts r.pos _ _
    have hcut : ∀ r : Fin n, (List.ofFn fun s : Fin n =>
        partOf len (·.row) (byRow (triplets r)) s).flatten = byRow (triplets r) :=
      fun r => flatten_parts (pairwise_byRow _) (hsorted r)
    simp only [byRow] at hcounts hcut
    simp only [toRowOwners, if_neg hn, Program.liftM_eq, Program.done_ok_bind, hcounts,
      Program.allToAllIndices, Program.allToAllValues, Program.allToAll, Program.exchange_bind]
    -- two indices travel with every value, so both exchanges cut at the same triplets
    refine Together.exchange_of_parts .indices (fun r s =>
        (partOf len (·.row) (byRow (triplets r)) s).flatMap fun t => [t.row, t.column])
      (fun r => by rw [flatten_ofFn_flatMap]; exact congrArg _ (hcut r).symm)
      (fun r => by
        rw [List.map_ofFn, List.map_ofFn, List.map_ofFn]
        simp only [Function.comp_def, length_pairs, byRow]) ?_
    refine Together.exchange_of_parts .values (fun r s =>
        (partOf len (·.row) (byRow (triplets r)) s).map (·.value))
      (fun r => by rw [flatten_ofFn_map]; exact congrArg _ (hcut r).symm)
      (fun r => lengths_ofFn_map _ _) ?_
    have hpaired : ∀ (l : List (Triplet S)) (why : Fault), Outcome.require
        ((l.flatMap fun t => [t.row, t.column]).length = 2 * (l.map (·.value)).length) why =
          .ok () :=
      fun l why => Outcome.require_eq_ok_iff.2 (by rw [length_pairs, List.length_map])
    simp only [flatten_ofFn_flatMap, flatten_ofFn_map, hpaired, pairUp_flatMap, Program.done_ok_bind,
      Program.pure_eq]
    exact h

end Exchange

end Condensation
