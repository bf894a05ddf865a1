/-
  Faithful sums — every contribution is added once, by the owner of its index, or not at all.

  Indices and values travel in two exchanges that are cut at the same counts, and are paired up again
  by their places.  In a list that does not ascend, the counts may send an index to a rank that does
  not own it.

  1. **Refusing (`holds_of_foldlM_addOwned`)** — a rank adds up only what lies in its own range, so
     where it has sums, nothing else has reached it.

  2. **Owning (`sumAt_cut`)** — where every part of a list went to a rank that owns it, what the
     list holds at an index is what its part for the owner holds there.

  3. **One rank (`push_alone_eq`)** — a single rank that leaves out the exchanges gets what it
     would have got from them.

  **The crux (`sums_of_push`)**: so where all ranks have sums, nothing was lost, doubled or added to
  another index, in whatever order the lists were.
-/
import Condensation.Proofs.Endings
import Condensation.Proofs.FaithfulPulls

namespace Condensation

variable {S : Type} {n : Nat} {len : Fin n → Nat}

namespace Exchange

variable [AddCommMonoid S]

/-- What the ranks have are the sums of all contributions: every rank has one for each index of its
    range. -/
structure SumsOf (len : Fin n → Nat) (indices : Fin n → List Nat) (values sums : Fin n → List S) :
    Prop where
  length_eq : ∀ r, (sums r).length = len r
  sum_eq : ∀ (r : Fin n) (g : Nat), ((tiling len).range r).Holds g →
    (sums r)[g - (tiling len).start r]? = some (∑ s, sumAt ((indices s).zip (values s)) g)

/-- Sums listed in the order of the indices. -/
theorem sumsOf_ofFn {indices : Fin n → List Nat} {values sums : Fin n → List S}
    (h : ∀ r : Fin n, sums r = List.ofFn fun i : Fin (len r) =>
      ∑ s, sumAt ((indices s).zip (values s)) ((tiling len).start r + i)) :
    SumsOf len indices values sums := by
  refine ⟨fun r => by rw [h, List.length_ofFn], fun r g hg => ?_⟩
  obtain ⟨hle, hlt⟩ := hg
  have hfirst : ((tiling len).range r).first = (tiling len).start r := rfl
  have hlast : ((tiling len).range r).last = (tiling len).start r + len r :=
    Ownership.start_succ len r
  have hplace : g - (tiling len).start r < len r := by omega
  have hindex : (tiling len).start r + (g - (tiling len).start r) = g := by omega
  rw [h, List.getElem?_ofFn, dif_pos hplace]
  simp only [hindex]

/-! ## Refusing -/

/-- What was added was owned. -/
theorem holds_of_foldlM_addOwned {mine : IndexRange} {cs : List (Nat × S)} {sums final : List S}
    (h : cs.foldlM (addOwned mine) sums = .ok final) : ∀ c ∈ cs, mine.Holds c.1 := by
  induction cs generalizing sums with
  | nil => simp
  | cons c rest ih =>
    rw [List.foldlM_cons] at h
    obtain ⟨next, hnext, h⟩ := Outcome.bind_eq_ok_iff.1 h
    have hc : mine.Holds c.1 := by
      by_contra hforeign
      rw [addOwned, if_neg hforeign] at hnext
      simp at hnext
    intro c' hc'
    rcases List.mem_cons.1 hc' with rfl | hc'
    · exact hc
    · exact ih h c' hc'

/-- What was added up, starting from zeros. -/
theorem eq_of_foldlM_addOwned {r : Fin n} {cs : List (Nat × S)} {sums : List S}
    (h : cs.foldlM (addOwned ((tiling len).range r))
      (List.replicate ((tiling len).range r).length 0) = .ok sums) :
    sums = List.ofFn fun i : Fin (len r) => sumAt cs ((tiling len).start r + i) := by
  have hzeros : List.replicate ((tiling len).range r).length (0 : S) =
      List.ofFn fun _ : Fin (len r) => (0 : S) := by
    rw [Ownership.length_range, List.ofFn_const]
  have hheld := holds_of_foldlM_addOwned h
  rw [hzeros, foldlM_addOwned hheld] at h
  simpa only [zero_add] using (Outcome.ok.inj h).symm

/-! ## Owning -/

/-- An index of rank `r` is in no part that went to another rank. -/
theorem sumAt_cut {parts : Fin n → List (Nat × S)}
    (hheld : ∀ q, ∀ c ∈ parts q, ((tiling len).range q).Holds c.1) {r : Fin n} {g : Nat}
    (hg : ((tiling len).range r).Holds g) :
    sumAt (List.ofFn parts).flatten g = sumAt (parts r) g := by
  rw [sumAt_flatten, List.map_ofFn, List.sum_ofFn]
  refine Finset.sum_eq_single r (fun q _ hq => sumAt_eq_zero fun c hc heq => hq ?_) (by simp)
  have hc := hheld q c hc
  rw [heq] at hc
  exact Fin.ext (Size.part_unique (tiling len).start_mono hc hg)

/-- What rank `r` was sent of all lists holds what the lists hold. -/
theorem sumAt_sent {parts : Fin n → Fin n → List (Nat × S)}
    (hheld : ∀ s q, ∀ c ∈ parts s q, ((tiling len).range q).Holds c.1) {r : Fin n} {g : Nat}
    (hg : ((tiling len).range r).Holds g) :
    sumAt (List.ofFn fun s => parts s r).flatten g =
      ∑ s, sumAt (List.ofFn (parts s)).flatten g := by
  rw [sumAt_flatten, List.map_ofFn, List.sum_ofFn]
  exact Finset.sum_congr rfl fun s _ => (sumAt_cut (hheld s) hg).symm

/-- Where all ranks have sums, the pairs of every list were cut into parts, and each rank added up
    its part of every list, index and value together. -/
theorem added_of_push {indices : Fin n → List Nat} {values sums : Fin n → List S}
    (hlen : ∀ r, (indices r).length = (values r).length)
    (h : Together (fun r : Fin n => push ⟨r, n⟩ (tiling len) (indices r) (values r)) sums) :
    ∃ parts : Fin n → Fin n → List (Nat × S),
      (∀ s, (indices s).zip (values s) = (List.ofFn (parts s)).flatten) ∧
      ∀ r : Fin n, (List.ofFn fun s => parts s r).flatten.foldlM (addOwned ((tiling len).range r))
        (List.replicate ((tiling len).range r).length 0) = .ok (sums r) := by
  have hsame : ∀ r : Fin n, Outcome.sameLength .contributions (indices r).length
      (values r).length = .ok () := fun r => Outcome.require_eq_ok_iff.2 (hlen r)
  by_cases hn : n = 1
  · subst hn
    simp only [push, hsame, Ownership.rangeAt_tiling, if_true, Program.ofOutcome, Program.liftM_eq,
      Program.done_ok_bind] at h
    refine ⟨fun s _ => (indices s).zip (values s), fun s => by simp, fun r => ?_⟩
    obtain rfl : r = 0 := Subsingleton.elim r 0
    simpa using h.of_done (r := 0) rfl
  · choose parts hparts hcounts using fun s =>
      exists_requests len s.pos (·.1) ((indices s).zip (values s))
    have hfst : ∀ s, ((indices s).zip (values s)).map (·.1) = indices s :=
      fun s => List.map_fst_zip (hlen s).le
    have hsnd : ∀ s, ((indices s).zip (values s)).map (·.2) = values s :=
      fun s => List.map_snd_zip (hlen s).ge
    -- both exchanges are cut at the same pairs
    have hindices : (List.ofFn fun s => (indices s, (List.ofFn (parts s)).map List.length)) =
        List.ofFn fun s => ((List.ofFn fun q => (parts s q).map (·.1)).flatten,
          (List.ofFn fun q => (parts s q).map (·.1)).map List.length) := by
      congr 1
      funext s
      rw [flatten_ofFn_map, ← hparts, hfst, lengths_ofFn_map]
    have hvalues : (List.ofFn fun s => (values s, (List.ofFn (parts s)).map List.length)) =
        List.ofFn fun s => ((List.ofFn fun q => (parts s q).map (·.2)).flatten,
          (List.ofFn fun q => (parts s q).map (·.2)).map List.length) := by
      congr 1
      funext s
      rw [flatten_ofFn_map, ← hparts, hsnd, lengths_ofFn_map]
    simp only [hfst] at hcounts
    simp only [push, hsame, Ownership.rangeAt_tiling, if_neg hn, Program.ofOutcome, Program.liftM_eq,
      Program.done_ok_bind, hcounts, Program.allToAllIndices, Program.allToAllValues,
      Program.allToAll, Program.exchange_bind] at h
    rw [Together.exchange_iff, hindices] at h
    simp only [delivered_ofFn] at h
    rw [Together.exchange_iff, hvalues] at h
    simp only [delivered_ofFn] at h
    obtain ⟨_, -, h⟩ := Together.of_lift_bind h
    have hzip : ∀ l : List (Nat × S), (l.map (·.1)).zip (l.map (·.2)) = l := by
      intro l
      rw [List.zip_map']
      simp
    simp only [flatten_ofFn_map, hzip] at h
    exact ⟨parts, hparts, fun r => h.of_done rfl⟩

/-- **The crux**: where all ranks have sums, they are the sums of all contributions. -/
theorem sums_of_push {indices : Fin n → List Nat} {values sums : Fin n → List S}
    (hlen : ∀ r, (indices r).length = (values r).length)
    (h : Together (fun r : Fin n => push ⟨r, n⟩ (tiling len) (indices r) (values r)) sums) :
    SumsOf len indices values sums := by
  obtain ⟨parts, hparts, hsums⟩ := added_of_push hlen h
  -- rank `r` did not refuse its parts, so all of them were its own
  have hheld : ∀ s q, ∀ c ∈ parts s q, ((tiling len).range q).Holds c.1 := fun s q c hc =>
    holds_of_foldlM_addOwned (hsums q) c (List.mem_flatten_of_mem
      ((List.mem_ofFn' _ _).2 ⟨s, rfl⟩) hc)
  refine sumsOf_ofFn fun r => (eq_of_foldlM_addOwned (hsums r)).trans ?_
  congr 1
  funext i
  rw [sumAt_sent hheld (Ownership.holds_start_add len r i)]
  simp only [hparts]

/-! ## One rank -/

/-- Pushing through the exchanges, however many ranks there are. -/
def pushThrough (place : Place) (o : Ownership) (indices : List Nat) (values : List S) :
    Program S (List S) := do
  Outcome.sameLength .contributions indices.length values.length
  let mine ← o.rangeAt place.rank
  let counts ← o.countsPerOwner indices
  let (got, _) ← Program.allToAllIndices indices counts
  let (gotValues, _) ← Program.allToAllValues values counts
  Outcome.sameLength .receivedContributions got.length gotValues.length
  Program.ofOutcome ((got.zip gotValues).foldlM (addOwned mine) (List.replicate mine.length 0))

theorem push_eq_pushThrough {place : Place} (h : place.size ≠ 1) (o : Ownership)
    (indices : List Nat) (values : List S) :
    push place o indices values = pushThrough place o indices values := by
  simp only [push, pushThrough, if_neg h]

/-- A single rank owns every index, in range or not. -/
theorem countsPerOwner_alone (len : Fin 1 → Nat) (indices : List Nat) :
    (tiling len).countsPerOwner indices = .ok [indices.length] := by
  obtain ⟨parts, hparts, hcounts⟩ := exists_requests len Nat.one_pos id indices
  rw [List.map_id] at hcounts
  rw [hcounts, hparts]
  simp

/-- **One rank**: leaving out the exchanges changes nothing, whatever the lists are. -/
theorem push_alone_eq (len : Fin 1 → Nat) (r : Fin 1) (indices : List Nat) (values : List S) :
    (push ⟨r, 1⟩ (tiling len) indices values).runAlone =
      (pushThrough ⟨r, 1⟩ (tiling len) indices values).runAlone := by
  by_cases hlen : indices.length = values.length
  · have hsame : ∀ what, Outcome.sameLength what indices.length values.length = .ok () :=
      fun what => Outcome.require_eq_ok_iff.2 hlen
    simp only [push, pushThrough, hsame, Ownership.rangeAt_tiling, countsPerOwner_alone, if_true,
      Program.allToAllIndices, Program.allToAllValues, Program.allToAll, Program.exchange_bind,
      Program.liftM_eq, Program.done_ok_bind, Program.runAlone]
    rw [if_pos (by rw [hlen])]
  · have hsame : ∀ what, Outcome.sameLength what indices.length values.length = .fault
        (.wrongLength what indices.length values.length) := fun what => if_neg hlen
    simp only [push, pushThrough, hsame, Program.liftM_eq, Program.done_fault_bind]

/-- So all ranks end as they would have ended with the exchanges, be it with sums or not. -/
theorem runTogether_push_eq (len : Fin n → Nat) (indices : Fin n → List Nat)
    (values : Fin n → List S) :
    Program.runTogether (List.ofFn fun r : Fin n =>
      push ⟨r, n⟩ (tiling len) (indices r) (values r)) =
    Program.runTogether (List.ofFn fun r : Fin n =>
      pushThrough ⟨r, n⟩ (tiling len) (indices r) (values r)) := by
  by_cases hn : n = 1
  · subst hn
    have hwhole : tiling len = ⟨[len 0]⟩ := by simp [tiling]
    have halone := push_alone_eq len 0 (indices 0) (values 0)
    have hends : (push ⟨(0 : Fin 1), 1⟩ (tiling len) (indices 0) (values 0)).runAlone ≠ .abort := by
      rw [hwhole]
      exact (orderly_push (len 0) (indices 0) (values 0)).ne_abort
    simp only [List.ofFn_succ, List.ofFn_zero, Program.runTogether]
    rw [Program.runFirst_nil hends, Program.runFirst_nil (halone ▸ hends), halone]
  · have hsame : ∀ r : Fin n, push ⟨r, n⟩ (tiling len) (indices r) (values r) =
        pushThrough ⟨r, n⟩ (tiling len) (indices r) (values r) :=
      fun r => push_eq_pushThrough hn _ _ _
    simp only [hsame]

/-! ## The result -/

/-- **Faithful sums**: ascending lists of indices of the space, with repetitions, are added up on all
    ranks, to the sums of all contributions; whatever the lists, where all ranks have sums, these
    are the sums of all contributions; and a single rank ends as it would with the exchanges. -/
theorem push_faithful (len : Fin n → Nat) (indices : Fin n → List Nat) (values : Fin n → List S)
    (hlen : ∀ r, (indices r).length = (values r).length) :
    ((∀ r, (indices r).Pairwise (· ≤ ·)) → (∀ r, ∀ g ∈ indices r, g < (tiling len).globalSize) →
      ∃ sums : Fin n → List S,
        Together (fun r : Fin n => push ⟨r, n⟩ (tiling len) (indices r) (values r)) sums ∧
          SumsOf len indices values sums) ∧
    (∀ sums : Fin n → List S,
      Together (fun r : Fin n => push ⟨r, n⟩ (tiling len) (indices r) (values r)) sums →
        SumsOf len indices values sums) ∧
    Program.runTogether (List.ofFn fun r : Fin n =>
      push ⟨r, n⟩ (tiling len) (indices r) (values r)) =
      Program.runTogether (List.ofFn fun r : Fin n =>
        pushThrough ⟨r, n⟩ (tiling len) (indices r) (values r)) ∧
    (n = 1 → ∀ r : Fin n, (push ⟨r, n⟩ (tiling len) (indices r) (values r)).runAlone =
      (pushThrough ⟨r, n⟩ (tiling len) (indices r) (values r)).runAlone) := by
  refine ⟨fun hsorted hin => ?_, fun sums h => sums_of_push hlen h,
    runTogether_push_eq len indices values, ?_⟩
  · let contributions (r : Fin n) : List (Nat × S) := (indices r).zip (values r)
    have hfst : ∀ r, (contributions r).map (·.1) = indices r :=
      fun r => List.map_fst_zip (hlen r).le
    have hsnd : ∀ r, (contributions r).map (·.2) = values r :=
      fun r => List.map_snd_zip (hlen r).ge
    have hascending : ∀ r, (contributions r).Pairwise fun c d => c.1 ≤ d.1 := by
      intro r
      refine List.pairwise_map.1 (?_ : ((contributions r).map (·.1)).Pairwise (· ≤ ·))
      rw [hfst]
      exact hsorted r
    have hinside : ∀ r, ∀ c ∈ contributions r, c.1 < (tiling len).globalSize := by
      intro r c hc
      refine hin r c.1 ?_
      rw [← hfst]
      exact List.mem_map_of_mem hc
    have hsums := push_then (k := fun _ sums => Program.done (.ok sums)) hascending hinside
      (Together.done _)
    simp only [hfst, hsnd] at hsums
    exact ⟨_, Together.of_bind_done hsums, sumsOf_ofFn fun r => rfl⟩
  · rintro rfl r
    exact push_alone_eq len r (indices r) (values r)

/-- Lists for the three ranks, the second of which owns nothing: two ranks add to the first index,
    one of them twice. -/
def gapIndices : Fin 3 → List Nat := ![[0, 0, 2], [], [0, 1]]

/-- What they add. -/
def gapValues : Fin 3 → List Int := ![[1, 2, 3], [], [4, 5]]

/-- The same in another order, in which every index still goes to its owner. -/
def gapDescending : Fin 3 → List Nat := ![[0, 0, 2], [], [1, 0]]

/-- So it is for three ranks, one without an index of its own, and for a single one. -/
theorem push_faithful_gap :
    (∃ sums : Fin 3 → List Int,
      Together (fun r : Fin 3 => push ⟨r, 3⟩ (tiling gapLengths) (gapIndices r) (gapValues r)) sums ∧
      (sums 0)[0]? = some 7) ∧
    Together (fun r : Fin 3 => push ⟨r, 3⟩ (tiling gapLengths) (gapDescending r) (gapValues r))
      ![[8, 4], [], [3]] ∧
    SumsOf gapLengths gapDescending gapValues ![[8, 4], [], [3]] ∧
    (push (S := Int) ⟨(0 : Fin 1), 1⟩ (tiling fun _ : Fin 1 => 4) [0, 2, 2] [2, 2, 1]).runAlone =
      (pushThrough ⟨(0 : Fin 1), 1⟩ (tiling fun _ : Fin 1 => 4) [0, 2, 2] [2, 2, 1]).runAlone := by
  obtain ⟨sums, hpush, hsums⟩ :=
    (push_faithful gapLengths gapIndices gapValues (by decide)).1 (by decide) (by decide)
  have hdescending : Together (fun r : Fin 3 =>
      push ⟨r, 3⟩ (tiling gapLengths) (gapDescending r) (gapValues r)) ![[8, 4], [], [3]] := rfl
  refine ⟨⟨sums, hpush, ?_⟩, hdescending,
    (push_faithful gapLengths gapDescending gapValues (by decide)).2.1 _ hdescending,
    (push_faithful (fun _ : Fin 1 => 4) (fun _ => [0, 2, 2]) (fun _ => ([2, 2, 1] : List Int))
      (by decide)).2.2.2 rfl 0⟩
  exact (hsums.sum_eq 0 0 (by decide)).trans (by decide)

end Exchange

end Condensation
