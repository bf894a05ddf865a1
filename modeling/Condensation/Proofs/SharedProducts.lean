/-
  Shared products — products over all ranks, through the referenced columns.

  1. **Fetching (`fetch_then`)** — a product whose vector lies with its owners fetches the referenced
     columns only, and is the product with the whole vector.

  2. **Contributing (`sumAt_contributions`)** — a transposed product computes one sum for every
     referenced column; added up over the ranks, these are the whole transposed product.

  3. **Links and row blocks** — so `prolong` is `P`, `prolongTranspose` is the sum of all `Pᵀ`, and
     the distributed product is the product of every row with the whole vector, on any number of
     ranks.
-/
import Condensation.Dofs.TrueDofs
import Condensation.Proofs.Delivery
import Condensation.Ranks.RowBlock

namespace Condensation

variable {S α : Type} {n : Nat} {r c : Nat}

/-! ## Fetching -/

namespace Csr

section Values

variable [NonUnitalNonAssocSemiring S]

/-- A list of values keyed through `f` holds at `t` what it holds at all keys that `f` sends
    there. -/
theorem sumAt_map_key {m : Nat} (l : List (Fin m × S)) (f : Fin m → Nat) (t : Nat) :
    sumAt (l.map fun e => (f e.1, e.2)) t = ∑ k, if f k = t then sumAt l k else 0 := by
  induction l with
  | nil => simp
  | cons e rest ih =>
    have split : ∀ k, (if f k = t then sumAt (e :: rest) k else 0) =
        (if e.1 = k then (if f k = t then e.2 else 0) else 0) +
          if f k = t then sumAt rest k else 0 := by
      intro k
      by_cases hk : f k = t
      · simp [hk]
      · simp [hk]
    rw [List.map_cons, sumAt_cons, ih, Finset.sum_congr rfl fun k _ => split k,
      Finset.sum_add_distrib]
    simp

/-- What rank-local rows contribute to the transposed product, for every referenced column. -/
def contributions (A : Csr S r c) (v : Vector S r) : List (Nat × S) :=
  (List.finRange A.referenced.length).map fun k =>
    ((A.referenced.get k).val, (A.compressed.mulVecTranspose v).get k)

theorem contributions_fst (A : Csr S r c) (v : Vector S r) :
    (A.contributions v).map (·.1) = A.referenced.map Fin.val := by
  refine List.ext_getElem (by simp [contributions]) fun k h1 h2 => ?_
  simp [contributions]

theorem contributions_snd (A : Csr S r c) (v : Vector S r) :
    (A.contributions v).map (·.2) = (A.compressed.mulVecTranspose v).toList := by
  refine List.ext_getElem (by simp [contributions]) fun k h1 h2 => ?_
  simp [contributions, Vector.get]

theorem pairwise_contributions (A : Csr S r c) (v : Vector S r) :
    (A.contributions v).Pairwise fun x y => x.1 ≤ y.1 := by
  have h : ((A.contributions v).map (·.1)).Pairwise (· ≤ ·) := by
    rw [contributions_fst, List.pairwise_map]
    exact A.pairwise_referenced.imp fun h => le_of_lt h
  exact List.pairwise_map.1 h

theorem contributions_lt (A : Csr S r c) (v : Vector S r) : ∀ x ∈ A.contributions v, x.1 < c := by
  intro x hx
  obtain ⟨k, -, rfl⟩ := List.mem_map.1 hx
  exact (A.referenced.get k).isLt

/-- **Contributing**: at every column the contributions are the transposed product. -/
theorem sumAt_contributions (A : Csr S r c) (v : Vector S r) (t : Nat) :
    sumAt (A.contributions v) t = ∑ i, A.valueAt i t * v.get i := by
  have hvalue : ∀ i, A.valueAt i t =
      ∑ k, if (A.referenced.get k).val = t then A.compressed.entry i k else 0 := by
    intro i
    rw [valueAt, ← A.row_compressed i, List.map_map]
    exact sumAt_map_key (A.compressed.row i) (fun k => (A.referenced.get k).val) t
  have hsums : sumAt (A.contributions v) t = ∑ k, if (A.referenced.get k).val = t
      then (A.compressed.mulVecTranspose v).get k else 0 := by
    rw [contributions, sumAt_eq_sum, List.map_map, ← List.ofFn_eq_map, List.sum_ofFn]
    rfl
  rw [hsums]
  simp only [hvalue, get_mulVecTranspose, Finset.sum_mul]
  rw [Finset.sum_comm]
  refine Finset.sum_congr rfl fun k _ => ?_
  split
  · rfl
  · simp

end Values

end Csr

/-- **Fetching**: a product on the referenced columns, with the values fetched from their owners. -/
theorem Exchange.fetch_then [NonUnitalNonAssocSemiring S] {len rows cols : Fin n → Nat}
    (A : ∀ r, Csr S (rows r) (cols r)) (hcols : ∀ r, cols r = (tiling len).globalSize)
    (value : Nat → S) {k : Fin n → Array S → Program S α} {a : Fin n → α}
    (h : Together (fun r => k r
      (Vector.ofFn fun i => ∑ j, (A r).entry i j * value j.val).toArray) a) :
    Together (fun r : Fin n => pull ⟨r, n⟩ (tiling len)
      (List.ofFn fun i : Fin (len r) => value ((tiling len).start r + i))
      ((A r).referenced.map Fin.val) >>= fun values =>
        (Program.done (Outcome.exactly (A r).referenced.length values) >>= fun values =>
          k r ((A r).compressed.mulVec values).toArray)) a := by
  have hsorted : ∀ r, ((A r).referenced.map Fin.val).Pairwise (· ≤ ·) := by
    intro r
    rw [List.pairwise_map]
    exact (A r).pairwise_referenced.imp fun h => le_of_lt h
  have hin : ∀ r, ∀ g ∈ (A r).referenced.map Fin.val, g < (tiling len).globalSize := by
    intro r g hg
    obtain ⟨j, -, rfl⟩ := List.mem_map.1 hg
    rw [← hcols]
    exact j.isLt
  refine pull_then hsorted hin ?_
  have hvalues : ∀ r, ∃ x, Outcome.exactly (A r).referenced.length
      (((A r).referenced.map Fin.val).map value) = .ok x ∧
        ∀ k, x.get k = value ((A r).referenced.get k) := by
    intro r
    refine ⟨_, dif_pos (by simp), fun k => ?_⟩
    simp [Vector.get]
  choose x hx hget using hvalues
  have hproduct : ∀ r, (A r).compressed.mulVec (x r) =
      Vector.ofFn fun i => ∑ j, (A r).entry i j * value j.val := by
    intro r
    refine Vector.ext_get fun i => ?_
    rw [Vector.get_ofFn_eq]
    exact (A r).get_mulVec_compressed (fun j => value j.val) (x r) (hget r) i
  simp only [hx, Program.done_ok_bind, hproduct]
  exact h

/-! ## Links and row blocks -/

/-- All ranks hold their parts of one global vector. -/
def Spread (len : Fin n → Nat) (value : Nat → S) (x : Fin n → Array S) : Prop :=
  ∀ r : Fin n, (x r).toList = List.ofFn fun i : Fin (len r) => value ((tiling len).start r + i)

theorem Spread.size {len : Fin n → Nat} {value : Nat → S} {x : Fin n → Array S}
    (h : Spread len value x) (r : Fin n) : (x r).size = len r := by
  rw [← Array.length_toList, h r, List.length_ofFn]

/-- Owned parts of the right lengths are parts of one global vector. -/
theorem exists_spread [Zero S] {len : Fin n → Nat} {x : Fin n → Array S}
    (hx : ∀ r, (x r).size = len r) : ∃ value : Nat → S, Spread len value x := by
  refine ⟨fun t => (List.ofFn fun r => (x r).toList).flatten.getD t 0, fun r => ?_⟩
  exact Ownership.eq_ofFn_stack (fun r => (x r).toList) (by simpa using hx) r 0

/-- What a link holds that was made from a prolongation. -/
theorem TrueDofs.ofProlongation_eq {l g : Nat} {P : Csr S l g} {restriction : Array GatherEntry}
    {offset : Nat}
    {link : TrueDofs S l} (h : ofProlongation P restriction offset = .ok link) :
    offset + restriction.size < Size.limit ∧
      ∃ table fits, link = ⟨restriction.size, g, offset, P, table, fits⟩ := by
  unfold ofProlongation at h
  obtain ⟨last, hlast, h⟩ := Outcome.bind_eq_ok_iff.1 h
  refine ⟨?_, ?_⟩
  · by_contra hlimit
    rw [Size.sum, if_neg hlimit] at hlast
    exact absurd hlast (by simp)
  · split at h
    · next hfits =>
      obtain ⟨table, -, h⟩ := Outcome.bind_eq_ok_iff.1 h
      simp only [Outcome.pure_eq, Outcome.ok.injEq] at h
      exact ⟨table, hfits, h.symm⟩
    · simp at h

section Collective

variable [NonUnitalNonAssocSemiring S]

namespace TrueDofs

variable {l : Fin n → Nat} {link : ∀ r, TrueDofs S (l r)}

/-- The owned true degrees of freedom of all ranks tile the true space. -/
def Tiled (link : ∀ r, TrueDofs S (l r)) : Prop :=
  Tiles (fun r => (link r).numOwned) (fun r => (link r).offset) fun r => (link r).numGlobal

/-- `P` on all ranks. -/
theorem prolong_then (tiled : Tiled link) {value : Nat → S} {t into : Fin n → Array S}
    (ht : Spread (fun r => (link r).numOwned) value t) (hinto : ∀ r, (into r).size = l r)
    {k : Fin n → Array S → Program S α} {a : Fin n → α}
    (h : Together (fun r => k r
      (Vector.ofFn fun i => ∑ j, (link r).prolongation.entry i j * value j.val).toArray) a) :
    Together (fun r : Fin n => (link r).prolong ⟨r, n⟩ (t r) (into r) >>= k r) a := by
  have howned : ∀ r, Outcome.sameLength .ownedTrueVector (link r).numOwned (t r).size = .ok () :=
    fun r => Outcome.require_eq_ok_iff.2 (ht.size r).symm
  have hlocal : ∀ r, Outcome.sameLength .localVector (l r) (into r).size = .ok () :=
    fun r => Outcome.require_eq_ok_iff.2 (hinto r).symm
  have hparts : ∀ r, (t r).toList = _ := ht
  simp only [prolong, howned, hlocal, Program.liftM_eq, Program.done_ok_bind, Program.bind_assoc,
    hparts, ranges, Program.pure_eq, columns]
  refine Ownership.gather_then tiled ?_
  exact Exchange.fetch_then (fun r => (link r).prolongation) tiled.global_eq value h

/-- `Pᵀ` on all ranks, added up. -/
theorem prolongTranspose_then (tiled : Tiled link) (v : ∀ r, Vector S (l r))
    {into : Fin n → Array S} (hinto : ∀ r, (into r).size = (link r).numOwned)
    {k : Fin n → Array S → Program S α}
    {a : Fin n → α}
    (h : Together (fun r => k r (Vector.ofFn fun t : Fin (link r).numOwned =>
      ∑ s, ∑ i, (link s).prolongation.valueAt i ((link r).offset + t) * (v s).get i).toArray) a) :
    Together (fun r : Fin n =>
      (link r).prolongTranspose ⟨r, n⟩ (v r).toArray (into r) >>= k r) a := by
  have howned : ∀ r, Outcome.sameLength .ownedTrueVector (link r).numOwned (into r).size = .ok () :=
    fun r => Outcome.require_eq_ok_iff.2 (hinto r).symm
  have hcolumns : ∀ r, (link r).columns = ((link r).prolongation.contributions (v r)).map (·.1) :=
    fun r => ((link r).prolongation.contributions_fst (v r)).symm
  have hsums : ∀ r, ((link r).prolongation.compressed.mulVecTranspose (v r)).toList =
      ((link r).prolongation.contributions (v r)).map (·.2) :=
    fun r => ((link r).prolongation.contributions_snd (v r)).symm
  simp only [prolongTranspose, Outcome.sized_toArray, howned, Program.liftM_eq, Program.done_ok_bind,
    Program.bind_assoc, hcolumns, hsums, ranges, Program.pure_eq]
  refine Ownership.gather_then tiled ?_
  refine Exchange.push_then (fun r => (link r).prolongation.pairwise_contributions (v r)) ?_ ?_
  · intro r x hx
    rw [← tiled.global_eq r]
    exact (link r).prolongation.contributions_lt (v r) x hx
  · have hexact : ∀ r, Outcome.exactly (link r).numOwned (List.ofFn fun t : Fin (link r).numOwned =>
        ∑ s, sumAt ((link s).prolongation.contributions (v s))
          ((tiling fun r => (link r).numOwned).start r + t)) =
        .ok (Vector.ofFn fun t : Fin (link r).numOwned =>
          ∑ s, ∑ i, (link s).prolongation.valueAt i ((link r).offset + t) * (v s).get i) := by
      intro r
      rw [Outcome.exactly, dif_pos List.length_ofFn]
      congr 1
      refine Vector.ext_get fun t => ?_
      rw [Vector.get_ofFn_eq, tiled.offset_eq r]
      simp only [Csr.sumAt_contributions]
      simp only [Vector.get, List.getElem_toArray, List.getElem_ofFn]
      rfl
    simp only [hexact, Program.done_ok_bind]
    exact h

end TrueDofs

namespace RowBlock

/-- The distributed product on all ranks. -/
theorem mulVec_then {A : Fin n → RowBlock S}
    (tiles : Tiles (fun r => (A r).rows) (fun r => (A r).offset) fun r => (A r).globalSize)
    {value : Nat → S} {x into : Fin n → Array S} (hx : Spread (fun r => (A r).rows) value x)
    (hinto : ∀ r, (into r).size = (A r).rows) {k : Fin n → Array S → Program S α} {a : Fin n → α}
    (h : Together (fun r => k r
      (Vector.ofFn fun i => ∑ j, (A r).block.entry i j * value j.val).toArray) a) :
    Together (fun r : Fin n => (A r).mulVec ⟨r, n⟩ (x r) (into r) >>= k r) a := by
  have hinput : ∀ r, Outcome.sameLength .ownedInput (A r).rows (A r).rows = .ok () :=
    fun r => Outcome.require_eq_ok_iff.2 rfl
  have houtput : ∀ r, Outcome.sameLength .ownedOutput (A r).rows (into r).size = .ok () :=
    fun r => Outcome.require_eq_ok_iff.2 (hinto r).symm
  have hparts : ∀ r, (x r).toList = _ := hx
  simp only [mulVec, hx.size, hinput, houtput, Program.liftM_eq, Program.done_ok_bind,
    Program.bind_assoc, hparts, Program.pure_eq]
  refine Ownership.gather_then tiles ?_
  exact Exchange.fetch_then (fun r => (A r).block) tiles.global_eq value h

end RowBlock

end Collective

end Condensation
