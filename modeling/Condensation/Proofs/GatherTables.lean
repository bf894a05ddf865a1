/-
  Gather tables — which tables make a trace space, and the way back through the owners.

  1. **Places (`laidOut_ofTargets`)** — the sort lays every number down where the cursor of its target
     stands.  That place lies in the list of the target and is never written again, so the number is
     found there at the end; hence the places of any two numbers are different.

  2. **Lists (`count_lists`)** — the list of a target holds the numbers with that target, so all lists
     together hold every number once.

  3. **Acceptance (`exists_ofGather_iff`)** — a table that splits into faces and stays below the number
     of interface degrees of freedom makes a space, if there is room for the offsets of the lists.

  4. **Refusals (`ofGather_eq_fault_iff`)** — every other table is refused, and the first entry that is
     too large is named.

  5. **The result (`owners_invert_gather`)** — the owners in an accepted space are the inverse of the
     table that it was made from.
-/
import Condensation.Proofs.Grouping
import Condensation.Proofs.Sizes
import Mathlib.Order.Nat

namespace Condensation

namespace OwnerTable

variable {K L : Nat}

/-! ## Places -/

/-- The place of number `k`: where the cursor of its target stands when it is laid down. -/
def placeOf (targets : Vector (Fin L) K) (k : Fin K) : Nat :=
  (((List.finRange K).take k).foldl (place targets) (unplaced targets)).1.get (targets.get k)

/-- It is behind the numbers with a smaller target, and the earlier ones with the same target. -/
theorem placeOf_eq (targets : Vector (Fin L) K) (k : Fin K) :
    placeOf targets k =
      before targets (targets.get k) + (group targets k (targets.get k)).length :=
  (laidDown_take targets (Nat.le_of_lt k.isLt)).cursor _

theorem group_isPrefix (targets : Vector (Fin L) K) {k m : Nat} (h : k ≤ m) (r : Fin L) :
    group targets k r <+: group targets m r :=
  (List.take_prefix_take_left h).filter _

/-- A number stays where it was laid down. -/
theorem getElem?_placeOf (targets : Vector (Fin L) K) (k : Fin K) :
    (ofTargets targets).owners[placeOf targets k]? = some k := by
  have done := laidDown_take targets le_rfl
  rw [List.take_of_length_le (by simp)] at done
  -- the list of the target grows by the number, and after that only behind it
  have hnext : group targets (k + 1) (targets.get k) = group targets k (targets.get k) ++ [k] := by
    rw [group_succ, if_pos rfl]
  have hgrow := group_isPrefix targets (Nat.succ_le_of_lt k.isLt) (targets.get k)
  rw [Nat.succ_eq_add_one, hnext] at hgrow
  obtain ⟨later, hall⟩ := hgrow
  have hlist : (group targets K (targets.get k))[(group targets k (targets.get k)).length]? =
      some k := by
    rw [← hall]
    simp
  have hlt := (List.getElem?_eq_some_iff.1 hlist).1
  rw [placeOf_eq, ← hlist]
  exact done.listed _ _ hlt

/-- The sort keeps inside its table: the lists follow each other from its front to its end, and every
    number is laid down in the list of its target, where it stays. -/
structure LaidOut (targets : Vector (Fin L) K) : Prop where
  front : (ofTargets targets).offsets.get 0 = 0
  stop : (ofTargets targets).offsets.get (Fin.last L) = K
  follow : ∀ r : Fin L,
    (ofTargets targets).offsets.get r.castSucc ≤ (ofTargets targets).offsets.get r.succ
  within : ∀ k : Fin K,
    (ofTargets targets).offsets.get (targets.get k).castSucc ≤ placeOf targets k ∧
      placeOf targets k < (ofTargets targets).offsets.get (targets.get k).succ
  stays : ∀ k : Fin K, (ofTargets targets).owners[placeOf targets k]? = some k

/-- **Places**: so it does, for all targets. -/
theorem laidOut_ofTargets (targets : Vector (Fin L) K) : LaidOut targets where
  front := by rw [get_offsets, Fin.val_zero, before_zero]
  stop := by
    rw [get_offsets, Fin.val_last, before]
    have hall : ∀ k ∈ List.finRange K, decide ((targets.get k).val < L) = true := by simp
    rw [List.countP_eq_length.2 hall, List.length_finRange]
  follow r := (slice_inside targets r).1
  within k := by
    have hend := before_succ targets (targets.get k)
    have hroom := length_group_lt targets k
    rw [get_offsets, get_offsets, Fin.val_succ, Fin.val_castSucc, placeOf_eq]
    omega
  stays := getElem?_placeOf targets

/-! ## Lists -/

/-- **Lists**: all of them together hold every number once. -/
theorem count_lists (targets : Vector (Fin L) K) (k : Fin K) :
    ((List.finRange L).flatMap (ofTargets targets).of).count k = 1 := by
  refine List.count_eq_one_of_mem (List.nodup_flatMap.2 ⟨fun r _ => ?_, ?_⟩) ?_
  · exact (pairwise_list targets r).imp ne_of_lt
  · refine (List.nodup_finRange L).imp fun {r q} hrq k hr hq => ?_
    exact hrq ((mem_list.1 hr).symm.trans (mem_list.1 hq))
  · exact List.mem_flatMap.2 ⟨targets.get k, List.mem_finRange _, mem_list.2 rfl⟩

end OwnerTable

namespace TraceSpace

variable {S : Type} {nf n numLocal : Nat} {gather : Array Nat}
  {link : Option ((l : Nat) × TrueDofs S l)}

/-! ## Acceptance -/

/-- The table splits into faces of `n` entries, and all of them are below `numLocal`. -/
structure Gathers (n numLocal : Nat) (gather : Array Nat) : Prop where
  pos : 0 < n
  whole : n ∣ gather.size
  below : ∀ r ∈ gather, r < numLocal

instance (n numLocal : Nat) (gather : Array Nat) : Decidable (Gathers n numLocal gather) :=
  if h : 0 < n ∧ n ∣ gather.size ∧ ∀ r ∈ gather, r < numLocal then
    .isTrue ⟨h.1, h.2.1, h.2.2⟩
  else .isFalse fun g => h ⟨g.pos, g.whole, g.below⟩

/-- What becomes of an entry `r` at place `k`, -/
theorem reading_eq_ok_iff {k r : Nat} {t : Fin numLocal} :
    Outcome.orFault (.badNumbering (.faceDof k r numLocal))
        (if hr : r < numLocal then some (⟨r, hr⟩ : Fin numLocal) else none) = .ok t ↔ r = t := by
  rw [Outcome.orFault_eq_ok_iff]
  split
  · simp [Fin.ext_iff]
  · next hr =>
    constructor
    · intro h
      cases h
    · rintro rfl
      exact absurd t.isLt hr

/-- and when it is refused. -/
theorem reading_eq_fault_iff {k r : Nat} {why : Fault} :
    Outcome.orFault (.badNumbering (.faceDof k r numLocal))
        (if hr : r < numLocal then some (⟨r, hr⟩ : Fin numLocal) else none) = .fault why ↔
      numLocal ≤ r ∧ why = .badNumbering (.faceDof k r numLocal) := by
  rw [Outcome.orFault_eq_fault_iff, eq_comm (b := why)]
  refine and_congr_left fun _ => ?_
  split
  · next hr => simp [hr]
  · next hr => simpa using hr

/-- There is room for a table with one place more than `a`. -/
theorem room_iff {a : Nat} :
    (∃ rows, Size.sum a 1 = .ok rows ∧ Size.table rows = .ok ()) ↔ a + 1 < Size.tableLimit := by
  constructor
  · rintro ⟨rows, hrows, htable⟩
    unfold Size.sum at hrows
    split at hrows
    · obtain rfl := Outcome.ok.inj hrows
      exact Outcome.check_eq_ok_iff.1 htable
    · cases hrows
  · intro room
    exact ⟨_, if_pos (Size.lt_limit room), Outcome.check_eq_ok_iff.2 room⟩

/-- A lack of room is not a refusal. -/
theorem room_ne_fault {α : Type} (a : Nat) (made : α) (why : Fault) :
    (Size.sum a 1 >>= fun rows => Size.table rows >>= fun _ => .ok made) ≠ .fault why := by
  unfold Size.sum Size.table Outcome.check
  split
  · rw [Outcome.ok_bind]
    split <;> simp
  · simp

/-- What is made from a gather table has the sizes that were asked for. -/
theorem of_ofGather {made : (nf : Nat) × TraceSpace S nf}
    (h : ofGather n numLocal gather link = .ok made) :
    ∃ (nf : Nat) (table : Vector (Fin numLocal) (nf * n)) (trueDofs : Option (TrueDofs S numLocal))
      (hn : 0 < n), made = ⟨nf, n, numLocal, table, trueDofs, hn⟩ := by
  unfold ofGather at h
  split at h
  · next hsizes =>
    obtain ⟨table, -, h⟩ := Outcome.bind_eq_ok_iff.1 h
    obtain ⟨trueDofs, -, h⟩ := Outcome.bind_eq_ok_iff.1 h
    obtain ⟨_, -, h⟩ := Outcome.bind_eq_ok_iff.1 h
    obtain ⟨_, -, h⟩ := Outcome.bind_eq_ok_iff.1 h
    exact ⟨_, table, trueDofs, hsizes.1, (Outcome.ok.inj h).symm⟩
  · cases h

/-- The entries are those of the table, which has `n` for every face. -/
theorem ofGather_eq_ok_iff {table : Vector (Fin numLocal) (nf * n)}
    {trueDofs : Option (TrueDofs S numLocal)} {hn : 0 < n} :
    ofGather n numLocal gather link = .ok ⟨nf, n, numLocal, table, trueDofs, hn⟩ ↔
      gather.size = nf * n ∧ (∀ k : Fin (nf * n), gather[k.val]? = some (table.get k).val) ∧
        TrueDofs.forSpace .traceProlongationRows numLocal link = .ok trueDofs ∧
          numLocal + 1 < Size.tableLimit := by
  constructor
  · intro h
    unfold ofGather at h
    split at h
    · next hsizes =>
      obtain ⟨found, hfound, h⟩ := Outcome.bind_eq_ok_iff.1 h
      obtain ⟨linked, hlinked, h⟩ := Outcome.bind_eq_ok_iff.1 h
      obtain ⟨rows, hrows, h⟩ := Outcome.bind_eq_ok_iff.1 h
      obtain ⟨_, htable, h⟩ := Outcome.bind_eq_ok_iff.1 h
      obtain ⟨rfl, h⟩ := Sigma.mk.inj (Outcome.ok.inj h)
      obtain ⟨-, -, hsame, hlink⟩ := TraceSpace.mk.inj (eq_of_heq h)
      obtain rfl := eq_of_heq hsame
      obtain rfl := eq_of_heq hlink
      have hsize : gather.size = gather.size / n * n :=
        (Nat.div_mul_cancel (Nat.dvd_of_mod_eq_zero hsizes.2)).symm
      refine ⟨hsize, fun k => ?_, hlinked, room_iff.1 ⟨rows, hrows, htable⟩⟩
      have hk : k.val < gather.size := Nat.lt_of_lt_of_eq k.isLt hsize.symm
      have hentry := reading_eq_ok_iff.1 (Outcome.tabulate_eq_ok_iff.1 hfound k)
      rw [Array.getElem?_eq_getElem hk, hentry]
    · cases h
  · rintro ⟨hsize, hentries, hlink, room⟩
    obtain ⟨rows, hrows, htable⟩ := room_iff.2 room
    obtain rfl : nf = gather.size / n := by rw [hsize, Nat.mul_div_cancel _ hn]
    have hsizes : 0 < n ∧ gather.size % n = 0 := ⟨hn, by rw [hsize, Nat.mul_mod_left]⟩
    have hfound : (Outcome.tabulate fun k : Fin (gather.size / n * n) =>
        have inside : k.val < gather.size :=
          Nat.lt_of_lt_of_le k.isLt (Nat.div_mul_le_self gather.size n)
        let r := gather[k.val]
        Outcome.orFault (.badNumbering (.faceDof k r numLocal))
          (if hr : r < numLocal then some ⟨r, hr⟩ else none)) = .ok table := by
      refine Outcome.tabulate_eq_ok_iff.2 fun k => reading_eq_ok_iff.2 ?_
      exact (Array.getElem?_eq_some_iff.1 (hentries k)).2
    rw [ofGather, dif_pos hsizes, hfound, Outcome.ok_bind, hlink, Outcome.ok_bind, hrows,
      Outcome.ok_bind, htable]
    rfl

/-- **Acceptance** of a table, if the degrees of freedom are not linked to those of other ranks. -/
theorem exists_ofGather_iff :
    (∃ made : (nf : Nat) × TraceSpace S nf, ofGather n numLocal gather none = .ok made) ↔
      numLocal + 1 < Size.tableLimit ∧ Gathers n numLocal gather := by
  constructor
  · rintro ⟨made, h⟩
    obtain ⟨nf, table, _, hn, rfl⟩ := of_ofGather h
    obtain ⟨hsize, hentries, -, room⟩ := ofGather_eq_ok_iff.1 h
    refine ⟨room, hn, ⟨nf, by rw [hsize, Nat.mul_comm]⟩, fun r hr => ?_⟩
    obtain ⟨k, hk⟩ := Array.mem_iff_getElem?.1 hr
    have hlt : k < nf * n := hsize ▸ (Array.getElem?_eq_some_iff.1 hk).1
    have hentry := hentries ⟨k, hlt⟩
    rw [hk, Option.some.injEq] at hentry
    exact hentry ▸ (table.get ⟨k, hlt⟩).isLt
  · rintro ⟨room, hn, ⟨nf, hsize⟩, hbelow⟩
    rw [Nat.mul_comm] at hsize
    have inside : ∀ k : Fin (nf * n), k.val < gather.size := fun k => hsize.symm ▸ k.isLt
    let table : Vector (Fin numLocal) (nf * n) := Vector.ofFn fun k =>
      have hk := inside k
      ⟨gather[k.val], hbelow _ (Array.getElem_mem hk)⟩
    refine ⟨⟨nf, n, numLocal, table, none, hn⟩,
      ofGather_eq_ok_iff.2 ⟨hsize, fun k => ?_, rfl, room⟩⟩
    rw [Vector.get_ofFn_eq, Array.getElem?_eq_getElem (inside k)]

/-! ## Refusals -/

/-- Why a table makes no space: it does not split into faces, or it does, and one entry, and none
    before it, names no interface degree of freedom. -/
inductive Misgathers (n numLocal : Nat) (gather : Array Nat) : NumberingFault → Prop
  | uneven (sizes : ¬ (0 < n ∧ n ∣ gather.size)) :
      Misgathers n numLocal gather (.unevenFaces gather.size n)
  | outside (k r : Nat) (sizes : 0 < n ∧ n ∣ gather.size) (here : gather[k]? = some r)
      (large : numLocal ≤ r) (before : ∀ j < k, ∀ q, gather[j]? = some q → q < numLocal) :
      Misgathers n numLocal gather (.faceDof k r numLocal)

theorem Misgathers.not_gathers {cause : NumberingFault} (h : Misgathers n numLocal gather cause) :
    ¬ Gathers n numLocal gather := by
  intro g
  cases h with
  | uneven sizes => exact sizes ⟨g.pos, g.whole⟩
  | outside k r _ here large =>
    have := g.below r (Array.mem_of_getElem? here)
    omega

/-- One of the two is there in every other table. -/
theorem exists_misgathers (h : ¬ Gathers n numLocal gather) :
    ∃ cause, Misgathers n numLocal gather cause := by
  classical
  by_cases sizes : 0 < n ∧ n ∣ gather.size
  · -- some entry is too large, so there is a first one
    have hlarge : ∃ k r : Nat, gather[k]? = some r ∧ numLocal ≤ r := by
      by_contra hnone
      refine h ⟨sizes.1, sizes.2, fun r hr => ?_⟩
      obtain ⟨k, hk⟩ := Array.mem_iff_getElem?.1 hr
      exact Nat.lt_of_not_le fun hle => hnone ⟨k, r, hk, hle⟩
    obtain ⟨r, here, large⟩ := Nat.find_spec hlarge
    refine ⟨_, .outside _ r sizes here large fun j hj q hq => ?_⟩
    exact Nat.lt_of_not_le fun hle => Nat.find_min hlarge hj ⟨q, hq, hle⟩
  · exact ⟨_, .uneven sizes⟩

theorem ofGather_of_uneven (sizes : ¬ (0 < n ∧ n ∣ gather.size)) :
    (ofGather n numLocal gather link : Outcome ((nf : Nat) × TraceSpace S nf)) =
      .fault (.badNumbering (.unevenFaces gather.size n)) :=
  dif_neg fun h => sizes ⟨h.1, Nat.dvd_of_mod_eq_zero h.2⟩

/-- **Refusals**: only the table is a cause, and what is wrong with it is named. -/
theorem ofGather_eq_fault_iff {why : Fault} :
    (ofGather n numLocal gather none : Outcome ((nf : Nat) × TraceSpace S nf)) = .fault why ↔
      ∃ cause, Misgathers n numLocal gather cause ∧ why = .badNumbering cause := by
  by_cases sizes : 0 < n ∧ n ∣ gather.size
  · have hsizes : 0 < n ∧ gather.size % n = 0 := ⟨sizes.1, Nat.mod_eq_zero_of_dvd sizes.2⟩
    have hsize : gather.size / n * n = gather.size := Nat.div_mul_cancel sizes.2
    rw [ofGather, dif_pos hsizes, Outcome.bind_eq_fault_iff, Outcome.tabulate_eq_fault_iff]
    simp only [reading_eq_fault_iff]
    constructor
    · rintro (⟨k, ⟨large, rfl⟩, hbefore⟩ | ⟨_, _, hrest⟩)
      · have hk : k.val < gather.size := Nat.lt_of_lt_of_eq k.isLt hsize
        refine ⟨_, .outside k _ sizes (Array.getElem?_eq_getElem hk) large fun j hj q hq => ?_, rfl⟩
        obtain ⟨t, ht⟩ := hbefore ⟨j, Nat.lt_trans hj k.isLt⟩ hj
        obtain ⟨_, hq⟩ := Array.getElem?_eq_some_iff.1 hq
        rw [← hq, reading_eq_ok_iff.1 ht]
        exact t.isLt
      · exact absurd hrest (room_ne_fault numLocal _ why)
    · rintro ⟨cause, h, rfl⟩
      cases h with
      | uneven uneven => exact absurd sizes uneven
      | outside k r _ here large before =>
        obtain ⟨hk, rfl⟩ := Array.getElem?_eq_some_iff.1 here
        refine .inl ⟨⟨k, Nat.lt_of_lt_of_eq hk hsize.symm⟩, ⟨large, rfl⟩, fun j hj => ?_⟩
        have hlt := before j hj _ (Array.getElem?_eq_getElem (Nat.lt_trans hj hk))
        exact ⟨⟨_, hlt⟩, reading_eq_ok_iff.2 rfl⟩
  · rw [ofGather_of_uneven sizes]
    constructor
    · intro h
      exact ⟨_, .uneven sizes, (Outcome.fault.inj h).symm⟩
    · rintro ⟨cause, h, rfl⟩
      cases h with
      | uneven => rfl
      | outside k r even => exact absurd even sizes

/-! ## The result -/

/-- **The result**: where there is room for the offsets of the lists, a table makes a space just if it
    splits into faces and all of its entries number interface degrees of freedom; it is refused just
    if not, for what is wrong with it.  In a space made from a table, linked to other ranks or not,
    every face has its entries in their order, and the sort keeps inside the owner table.  The owners
    of an interface degree of freedom ascend and are exactly the places of the table that name it; so
    all lists together hold every face degree of freedom once, and the face of an owner leads back to
    the interface degree of freedom that it is listed for. -/
theorem owners_invert_gather (n numLocal : Nat) (gather : Array Nat) :
    ((∃ made, ofGather (S := S) n numLocal gather none = .ok made) ↔
      numLocal + 1 < Size.tableLimit ∧ Gathers n numLocal gather) ∧
    ((∃ why, ofGather (S := S) n numLocal gather none = .fault why) ↔
      ¬ Gathers n numLocal gather) ∧
    (∀ why, ofGather (S := S) n numLocal gather none = .fault why →
      ∃ cause, Misgathers n numLocal gather cause ∧ why = .badNumbering cause) ∧
    ∀ (link : Option ((l : Nat) × TrueDofs S l)) (nf : Nat) (space : TraceSpace S nf),
      ofGather n numLocal gather link = .ok ⟨nf, space⟩ →
      space.dofsPerFace = n ∧ space.numLocal = numLocal ∧ gather.size = nf * n ∧
      (∀ f i, gather[f.val * n + i.val]? = some (space.faceDof f i).val) ∧
      OwnerTable.LaidOut space.gather ∧
      (∀ r, (space.ownerTable.of r).Pairwise (· < ·)) ∧
      (∀ r k, k ∈ space.ownerTable.of r ↔ gather[k.val]? = some r.val) ∧
      (∀ k, ((List.finRange space.numLocal).flatMap space.ownerTable.of).count k = 1) ∧
      ∀ r, ∀ k ∈ space.ownerTable.of r, space.faceDof (Pairing.outer k) (Pairing.inner k) = r := by
  refine ⟨exists_ofGather_iff, ?_, fun why h => ofGather_eq_fault_iff.1 h, fun link nf space h => ?_⟩
  · constructor
    · rintro ⟨why, h⟩
      obtain ⟨cause, hcause, -⟩ := ofGather_eq_fault_iff.1 h
      exact hcause.not_gathers
    · intro h
      obtain ⟨cause, hcause⟩ := exists_misgathers h
      exact ⟨_, ofGather_eq_fault_iff.2 ⟨cause, hcause, rfl⟩⟩
  obtain ⟨_, table, trueDofs, hn, hmade⟩ := of_ofGather h
  obtain ⟨rfl, hspace⟩ := Sigma.mk.inj hmade
  obtain rfl := eq_of_heq hspace
  obtain ⟨hsize, hentries, -⟩ := ofGather_eq_ok_iff.1 h
  refine ⟨rfl, rfl, hsize, fun f i => hentries (Pairing.join f i),
    OwnerTable.laidOut_ofTargets table, OwnerTable.pairwise_list table, fun r k => ?_,
    OwnerTable.count_lists table, fun r k hk => ?_⟩
  · rw [hentries k, Option.some.injEq, ← Fin.ext_iff]
    exact OwnerTable.mem_list
  · show table.get (Pairing.join (Pairing.outer k) (Pairing.inner k)) = r
    rw [Pairing.join_split]
    exact OwnerTable.mem_list.1 hk

/-! ### Three faces with two degrees of freedom each -/

/-- The first face meets one interface degree of freedom twice, and the second one meets it again. -/
def foldedGather : Array Nat := #[1, 1, 4, 1, 0, 4]

/-- The space made from it; two of its interface degrees of freedom are met by no face. -/
def foldedSpace : TraceSpace Int 3 :=
  ⟨2, 5, #v[1, 1, 4, 1, 0, 4], none, Nat.zero_lt_two⟩

/-- So it is for them: the owners are these, and they hold all six face degrees of freedom.  With one
    interface degree of freedom less, the table is refused for its third entry, and it does not
    split into faces of four. -/
theorem owners_invert_folded :
    (ofGather (S := Int) 2 5 foldedGather none = .ok ⟨3, foldedSpace⟩ ∧
      ((List.finRange 5).map fun r => (foldedSpace.ownerTable.of r).map Fin.val) =
        [[4], [0, 1, 3], [], [], [2, 5]] ∧
      (∀ k : Fin 6, ((List.finRange 5).flatMap foldedSpace.ownerTable.of).count k = 1) ∧
      ∀ k ∈ foldedSpace.ownerTable.of (1 : Fin 5),
        foldedSpace.faceDof (Pairing.outer k) (Pairing.inner k) = (1 : Fin 5)) ∧
    (ofGather (S := Int) 2 4 foldedGather none = .fault (.badNumbering (.faceDof 2 4 4)) ∧
      ¬ Gathers 2 4 foldedGather) ∧
    ∃ why, ofGather (S := Int) 4 5 foldedGather none = .fault why := by
  have hmade : ofGather (S := Int) 2 5 foldedGather none = .ok ⟨3, foldedSpace⟩ :=
    ofGather_eq_ok_iff.2 ⟨rfl, by decide, rfl, by decide⟩
  have hrefused : ofGather (S := Int) 2 4 foldedGather none =
      .fault (.badNumbering (.faceDof 2 4 4)) := rfl
  obtain ⟨-, -, -, hspace⟩ := owners_invert_gather (S := Int) 2 5 foldedGather
  obtain ⟨-, hfault, -, -⟩ := owners_invert_gather (S := Int) 2 4 foldedGather
  obtain ⟨-, huneven, -, -⟩ := owners_invert_gather (S := Int) 4 5 foldedGather
  obtain ⟨-, -, -, -, -, -, -, honce, hback⟩ := hspace none 3 foldedSpace hmade
  exact ⟨⟨hmade, by decide, honce, hback (1 : Fin 5)⟩, ⟨hrefused, hfault.1 ⟨_, hrefused⟩⟩,
    huneven.2 (by decide)⟩

end TraceSpace

end Condensation
