/-
  Representations — what the ranks see of the way in which their prolongations are stored.

  The entries of a prolongation may be stored in any order, repeated, split into parts, or kept
  although they are zero.  Two representations of one operator agree in every entry.

  1. **Stored values (`exists_stored_iff`)** — a value that is not zero is stored at a position just
     if the entry is not zero there or the stored values cancel.

  2. **Local matrices (`expand_eq_narrow`)** — what a rank expands of its local matrix does not
     depend on the prolongation, save for the products themselves.

  3. **The result (`representation_unseen`)** — whether or not all ranks get through, `prolong`,
     `prolongTranspose` and `congruence` end on every rank as they do with another representation.
     `dependents` looks at the stored values one by one: it also finds what depends on a mark
     through values that cancel, and ends in the same way where these stand at the same positions.
-/
import Condensation.Proofs.AlikeEndings
import Condensation.Proofs.GlobalProlongation

namespace Condensation

variable {S α : Type} {n l r c : Nat}

/-! ## Stored values -/

namespace Csr

section Entries

variable [AddCommMonoid S] {A B : Csr S r c}

/-- Values that are not zero are stored at `(i, j)`, and add up to zero. -/
def Cancels (A : Csr S r c) (i : Fin r) (j : Fin c) : Prop :=
  A.entry i j = 0 ∧ ∃ e ∈ A.row i, e.1 = j ∧ e.2 ≠ 0

/-- **Stored values** that are not zero stand where the entry is not zero, and where they cancel. -/
theorem exists_stored_iff (A : Csr S r c) (i : Fin r) (j : Fin c) :
    (∃ e ∈ A.row i, e.1 = j ∧ e.2 ≠ 0) ↔ A.entry i j ≠ 0 ∨ A.Cancels i j := by
  constructor
  · intro hstored
    by_cases hzero : A.entry i j = 0
    · exact .inr ⟨hzero, hstored⟩
    · exact .inl hzero
  · rintro (hentry | ⟨-, hstored⟩)
    · by_contra hnone
      refine hentry (List.sum_eq_zero ?_)
      intro x hx
      obtain ⟨e, he, rfl⟩ := List.mem_map.1 hx
      obtain ⟨he, hj⟩ := List.mem_filter.1 he
      by_contra hne
      exact hnone ⟨e, he, of_decide_eq_true hj, hne⟩
    · exact hstored

/-- So an entry that something is found through is not zero, or its values cancel. -/
theorem exists_row_iff (A : Csr S r c) (i : Fin r) (p : Fin c → Prop) :
    (∃ e ∈ A.row i, e.2 ≠ 0 ∧ p e.1) ↔ ∃ j, p j ∧ (A.entry i j ≠ 0 ∨ A.Cancels i j) := by
  simp only [← exists_stored_iff]
  constructor
  · rintro ⟨e, he, hne, hp⟩
    exact ⟨e.1, hp, e, he, rfl, hne⟩
  · rintro ⟨_, hp, e, he, rfl, hne⟩
    exact ⟨e, he, hne, hp⟩

theorem valueAt_congr (h : ∀ i j, A.entry i j = B.entry i j) (i : Fin r) (t : Nat) :
    A.valueAt i t = B.valueAt i t := by
  rcases Nat.lt_or_ge t c with ht | ht
  · have hsame := h i ⟨t, ht⟩
    rwa [← valueAt_eq_entry, ← valueAt_eq_entry] at hsame
  · rw [valueAt_of_le _ _ ht, valueAt_of_le _ _ ht]

/-- Matrices with the same entries read the same. -/
theorem entryAt_congr (h : ∀ i j, A.entry i j = B.entry i j) : A.entryAt = B.entryAt := by
  funext i t
  rcases Nat.lt_or_ge i r with hi | hi
  · have hsame := valueAt_congr h ⟨i, hi⟩ t
    rw [A.entryAt_eq_valueAt ⟨i, hi⟩, B.entryAt_eq_valueAt ⟨i, hi⟩, hsame]
  · have hnone : ∀ C : Csr S r c, C.rowAt i = .abort := fun C => dif_neg (Nat.not_lt.2 hi)
    rw [entryAt, entryAt, hnone, hnone]

end Entries

/-! ## Local matrices -/

/-- The matrix with its columns counted among `l` of them. -/
def narrow (A : Csr S r c) (h : ∀ k, (A.columns.get k).val < l) : Csr S r l where
  stored := A.stored
  rowPtr := A.rowPtr
  columns := .ofFn fun k => ⟨(A.columns.get k).val, h k⟩
  values := A.values
  rowPtr_zero := A.rowPtr_zero
  rowPtr_last := A.rowPtr_last
  rowPtr_mono := A.rowPtr_mono

/-- Its rows store the same values in columns of the same numbers. -/
theorem row_narrow (A : Csr S r c) (h : ∀ k, (A.columns.get k).val < l) (i : Fin r) :
    ((A.narrow h).row i).map (fun e => (e.1.val, e.2)) = (A.row i).map fun e => (e.1.val, e.2) := by
  have hentries : (A.narrow h).entries.map (fun e => (e.1.val, e.2)) =
      A.entries.map fun e => (e.1.val, e.2) := by
    refine List.ext_getElem (by simp [entries, narrow]) fun k h1 h2 => ?_
    simp [entries, narrow, Vector.get]
  simp only [row, List.map_take, List.map_drop, hentries]
  rfl

end Csr

namespace Outcome

variable {β : Type} {f : α → Outcome β} {L : List α}

/-- Where no computation is refused, all together are not. -/
theorem mapM_ne_fault (hall : ∀ b ∈ L, ∀ why, f b ≠ .fault why) (why : Fault) :
    L.mapM f ≠ .fault why := by
  induction L with
  | nil => rintro ⟨⟩
  | cons b rest ih =>
    have hrest := ih fun b' hb' => hall b' (.tail b hb')
    rw [List.mapM_cons]
    cases hb : f b with
    | ok y =>
      cases hys : rest.mapM f with
      | ok ys => rintro ⟨⟩
      | fault why' =>
        rintro ⟨⟩
        exact hrest hys
      | abort => rintro ⟨⟩
    | fault why' => exact absurd hb (hall b (.head rest) why')
    | abort => rintro ⟨⟩

/-- Computations that are not refused abort all together where one of them does. -/
theorem mapM_eq_abort {a : α} (ha : a ∈ L) (h : f a = .abort)
    (hall : ∀ b ∈ L, ∀ why, f b ≠ .fault why) : L.mapM f = .abort := by
  induction L with
  | nil => simp at ha
  | cons b rest ih =>
    rw [List.mapM_cons]
    cases hb : f b with
    | ok y =>
      have hrest : a ∈ rest := by
        rcases List.mem_cons.1 ha with rfl | hrest
        · rw [h] at hb
          cases hb
        · exact hrest
      rw [ok_bind, ih hrest fun b' hb' => hall b' (.tail b hb')]
      rfl
    | fault why => exact absurd hb (hall b (.head rest) why)
    | abort => rfl

end Outcome

namespace TrueDofs

section Expansion

variable [Mul S] (link : TrueDofs S l)

/-- The expansion of a local entry whose column is given by its number. -/
def expandAt (i : Fin l) (h : Nat × S) : Outcome (List (Triplet S)) := do
  let right ← link.prolongation.rowAt h.1
  return (link.prolongation.row i).flatMap fun a =>
    right.map fun b => ⟨a.1, b.1, a.2 * h.2 * b.2⟩

/-- **Local matrices** with columns for local degrees of freedom only are expanded as square ones. -/
theorem expand_eq_narrow (H : Csr S l c) (h : ∀ k, (H.columns.get k).val < l) :
    link.expand H = .ok (link.products (H.narrow h)) := by
  have hrow : ∀ {c' : Nat} (H' : Csr S l c') (i : Fin l), (H'.row i).mapM (link.expandEntry i) =
      ((H'.row i).map fun e => (e.1.val, e.2)).mapM (link.expandAt i) := by
    intro c' H' i
    rw [List.mapM_map]
    rfl
  rw [← expand_eq, expand, expand]
  simp only [hrow, H.row_narrow h]

/-- Other ones abort. -/
theorem expand_eq_abort (H : Csr S l c) {k : Fin H.stored} (hk : l ≤ (H.columns.get k).val) :
    link.expand H = .abort := by
  have hentry : ∀ (i : Fin l) (e : Fin c × S) (why : Fault), link.expandEntry i e ≠ .fault why := by
    intro i e why
    rw [expandEntry, Csr.rowAt]
    split <;> rintro ⟨⟩
  -- the entry stands in some row
  have hmem : H.columns.get k ∈ H.entries.map (·.1) := by
    rw [Csr.map_fst_entries]
    exact Vector.get_mem_toList _ k
  obtain ⟨e, he, hcolumn⟩ := List.mem_map.1 hmem
  rw [← H.flatten_rows] at he
  obtain ⟨row, hrow, he⟩ := List.mem_flatten.1 he
  obtain ⟨i, rfl⟩ := (List.mem_ofFn' _ _).1 hrow
  have hnone : link.prolongation.rowAt e.1 = .abort :=
    dif_neg (by rw [hcolumn]; exact Nat.not_lt.2 hk)
  have habort : link.expandEntry i e = .abort := by
    rw [expandEntry, hnone]
    rfl
  have hstop := Outcome.mapM_eq_abort he habort fun b _ => hentry i b
  rw [expand, Outcome.mapM_eq_abort (List.mem_finRange i) hstop fun i' _ =>
    Outcome.mapM_ne_fault fun b _ => hentry i' b]
  rfl

end Expansion

/-- A local matrix as the ranks expand it, if it is square and all its columns are local degrees of
    freedom. -/
def squared (l : Nat) (H : Csr S r c) : Outcome (Csr S l l) :=
  if hr : r = l then
    let H : Csr S l c := hr ▸ H
    if h : ∀ k, (H.columns.get k).val < l then .ok (H.narrow h) else .abort
  else .fault (.wrongLength .traceMatrixRows l r)

theorem squared_self (H : Csr S l l) : squared l H = .ok H := by
  have hcolumns : ∀ k, (H.columns.get k).val < l := fun k => (H.columns.get k).isLt
  have hsame : (Vector.ofFn fun k => ⟨(H.columns.get k).val, hcolumns k⟩) = H.columns :=
    Vector.ext_get fun k => Vector.get_ofFn_eq _ k
  rw [squared, dif_pos rfl]
  refine (dif_pos hcolumns).trans ?_
  rw [Csr.narrow, hsame]

/-- The rows that a rank builds once all ranges are known. -/
def routed [Add S] [Mul S] (link : TrueDofs S l) (place : Place) (H : Csr S l l)
    (ranges : Ownership) : Program S (RowBlock S) := do
  let received ← Exchange.toRowOwners place ranges (link.products H)
  let mine ← ranges.rangeAt place.rank
  let owned ← Program.ofOutcome (received.mapM (ownedEntry mine))
  let rows ← Csr.ofTriplets link.numOwned link.numGlobal owned
  RowBlock.ofRows link.numGlobal link.offset rows

theorem congruence_eq [Add S] [Mul S] (link : TrueDofs S l) (place : Place) (H : Csr S r c) :
    link.congruence place H = (liftM (squared l H) : Program S (Csr S l l)) >>= fun H' =>
      link.ranges place >>= link.routed place H' := by
  unfold congruence squared
  split
  · next hr =>
    subst hr
    dsimp only
    split
    · next h =>
      rw [link.expand_eq_narrow H h]
      rfl
    · next h =>
      obtain ⟨k, hk⟩ := not_forall.1 h
      rw [link.expand_eq_abort H (Nat.not_lt.1 hk)]
      rfl
  · rfl

end TrueDofs

/-- What can be read from a block of rows: where it stands, and its entry at every position. -/
def RowBlock.readings [Zero S] [Add S] (A : RowBlock S) :
    Nat × Nat × Nat × (Nat → Nat → Outcome S) :=
  (A.globalSize, A.rows, A.offset, A.block.entryAt)

/-! ## All ranks -/

section Checks

variable {β γ : Type} (o : Outcome β) (o' : Outcome γ)

/-- Two checks, one after the other. -/
def Outcome.both : Outcome (β × γ) := do
  let b ← o
  let c ← o'
  return (b, c)

theorem Outcome.both_eq_ok_iff {x : β × γ} : both o o' = .ok x ↔ o = .ok x.1 ∧ o' = .ok x.2 := by
  cases o <;> cases o' <;> simp [both, Prod.ext_iff]

theorem Program.lift_lift (k : β → γ → Program S α) :
    ((liftM o : Program S β) >>= fun b => (liftM o' : Program S γ) >>= k b) =
      (liftM (o.both o') : Program S (β × γ)) >>= fun x => k x.1 x.2 := by
  cases o <;> cases o' <;> rfl

theorem Program.lift_map_bind (g : β → γ) (k : γ → Program S α) :
    (liftM (o >>= fun b => .ok (g b)) : Program S γ) >>= k =
      (liftM o : Program S β) >>= fun b => k (g b) := by
  cases o <;> rfl

end Checks

namespace TrueDofs

/-- The link with another prolongation. -/
def represented (link : TrueDofs S l) (P : Csr S l link.numGlobal) : TrueDofs S l :=
  { link with prolongation := P }

section Unseen

variable {m : Fin n → Nat} {link : ∀ r, TrueDofs S (m r)}
  {P : ∀ r, Csr S (m r) (link r).numGlobal}

section Products

variable [CommSemiring S]
  (hentry : ∀ r i j, (P r).entry i j = (link r).prolongation.entry i j)

include hentry

/-- Products with `P` do not show its representation, -/
theorem alike_prolong (t into : Fin n → Array S) :
    Alike (fun r : Fin n => (link r).prolong ⟨r, n⟩ (t r) (into r))
      fun r : Fin n => ((link r).represented (P r)).prolong ⟨r, n⟩ (t r) (into r) := by
  refine Alike.of_tiles (fun r => Program.lift_lift _ _ _) (fun r => Program.lift_lift _ _ _) ?_ ?_
  · intro hn r b hb
    have howned : (t r).toList.length = (link r).numOwned :=
      (Outcome.require_eq_ok_iff.1 ((Outcome.both_eq_ok_iff _ _).1 hb).1).symm
    exact ⟨Program.result?_bind (Exchange.pull_calls hn howned _) _,
      Program.result?_bind (Exchange.pull_calls hn howned _) _⟩
  · intro hok tiles
    have hsizes : ∀ r, (t r).size = (link r).numOwned ∧ (into r).size = m r := by
      intro r
      obtain ⟨b, hb⟩ := hok r
      obtain ⟨ht, hinto⟩ := (Outcome.both_eq_ok_iff _ _).1 hb
      exact ⟨(Outcome.require_eq_ok_iff.1 ht).symm, (Outcome.require_eq_ok_iff.1 hinto).symm⟩
    obtain ⟨value, hvalue⟩ := exists_spread fun r => (hsizes r).1
    have hinto := fun r => (hsizes r).2
    have htiled : Tiled link := tiles
    have htiled' : Tiled fun r => (link r).represented (P r) := tiles
    refine ⟨_, Together.of_bind_done (prolong_then htiled hvalue hinto (Together.done _)), ?_⟩
    simp only [← hentry]
    exact Together.of_bind_done (prolong_then htiled' hvalue hinto (Together.done _))

/-- nor do products with `Pᵀ`, -/
theorem alike_prolongTranspose (v into : Fin n → Array S) :
    Alike (fun r : Fin n => (link r).prolongTranspose ⟨r, n⟩ (v r) (into r))
      fun r : Fin n => ((link r).represented (P r)).prolongTranspose ⟨r, n⟩ (v r) (into r) := by
  refine Alike.of_tiles (fun r => Program.lift_lift _ _ _) (fun r => Program.lift_lift _ _ _) ?_ ?_
  · intro hn r b hb
    have hlengths : ∀ (link : TrueDofs S (m r)) (sums : Vector S link.prolongation.referenced.length),
        link.columns.length = sums.toList.length := by
      intro link sums
      rw [columns, List.length_map, Vector.length_toList]
    exact ⟨Program.result?_bind (Exchange.push_calls hn r (hlengths _ _)) _,
      Program.result?_bind (Exchange.push_calls hn r (hlengths _ _)) _⟩
  · intro hok tiles
    have hgiven : ∀ r, ∃ x : Vector S (m r), x.toArray = v r ∧ (into r).size = (link r).numOwned := by
      intro r
      obtain ⟨b, hb⟩ := hok r
      obtain ⟨hv, hinto⟩ := (Outcome.both_eq_ok_iff _ _).1 hb
      exact ⟨b.1, Outcome.sized_eq_ok_iff.1 hv, (Outcome.require_eq_ok_iff.1 hinto).symm⟩
    choose x hx hinto using hgiven
    obtain rfl : v = fun r => (x r).toArray := funext fun r => (hx r).symm
    have htiled : Tiled link := tiles
    have htiled' : Tiled fun r => (link r).represented (P r) := tiles
    refine ⟨_, Together.of_bind_done (prolongTranspose_then htiled x hinto (Together.done _)), ?_⟩
    simp only [← Csr.valueAt_congr (hentry _)]
    exact Together.of_bind_done (prolongTranspose_then htiled' x hinto (Together.done _))

theorem congruent_represented (s : Fin n) (M : Fin (m s) → Fin (m s) → S) (a b : Nat) :
    ((link s).represented (P s)).congruent M a b = (link s).congruent M a b := by
  have hvalue : ∀ i t, ((link s).represented (P s)).prolongation.valueAt i t =
      (link s).prolongation.valueAt i t := Csr.valueAt_congr (hentry s)
  simp only [congruent, hvalue]

omit hentry in
/-- Square matrices with the same congruences lead to rows that read the same. -/
theorem alike_congruence_of_eq {H H' : ∀ r, Csr S (m r) (m r)}
    (hsame : ∀ r a b, ((link r).represented (P r)).congruent (H' r).entry a b =
      (link r).congruent (H r).entry a b)
    (f : Fin n → Nat × Nat × Nat × (Nat → Nat → Outcome S) → α) :
    Alike (fun r : Fin n => (link r).congruence ⟨r, n⟩ (H r) >>= fun A =>
        Program.done (.ok (f r A.readings)))
      fun r : Fin n => ((link r).represented (P r)).congruence ⟨r, n⟩ (H' r) >>= fun A =>
        Program.done (.ok (f r A.readings)) := by
  have hstart : ∀ (r : Fin n) (link : TrueDofs S (m r)) (H : Csr S (m r) (m r)),
      (link.congruence ⟨r, n⟩ H >>= fun A => Program.done (.ok (f r A.readings))) =
        (liftM (Outcome.ok ()) : Program S Unit) >>= fun _ => link.ranges ⟨r, n⟩ >>= fun ranges =>
          link.routed ⟨r, n⟩ H ranges >>= fun A => Program.done (.ok (f r A.readings)) := by
    intro r link H
    simp only [congruence_eq, squared_self, Program.liftM_eq, Program.done_ok_bind,
      Program.bind_assoc]
  refine Alike.of_tiles (fun r => hstart r _ _) (fun r => hstart r _ _) ?_ ?_
  · intro hn r b _
    simp only [routed, Program.bind_assoc]
    exact ⟨Program.result?_bind (Exchange.toRowOwners_calls hn r _) _,
      Program.result?_bind (Exchange.toRowOwners_calls hn r _) _⟩
  · intro _ tiles
    have htiled : Tiled link := tiles
    have htiled' : Tiled fun r => (link r).represented (P r) := tiles
    obtain ⟨block, hblock, hthen⟩ := congruence_then htiled H
    obtain ⟨block', hblock', hthen'⟩ := congruence_then htiled' H'
    have hread : ∀ r, (((link r).represented (P r)).ownedRows (block' r)).readings =
        ((link r).ownedRows (block r)).readings := by
      intro r
      have hentries : (block' r).entryAt = (block r).entryAt := by
        refine Csr.entryAt_congr fun i j => (hblock' r i j).trans ?_
        simp only [hsame]
        exact (hblock r i j).symm
      simp only [RowBlock.readings, ownedRows]
      rw [hentries]
      rfl
    refine ⟨_, hthen (Together.done _), ?_⟩
    simp only [← hread]
    exact hthen' (Together.done _)

/-- nor does what can be read from the rows of the congruence. -/
theorem alike_congruence {rows cols : Fin n → Nat} (H : ∀ r, Csr S (rows r) (cols r)) :
    Alike (fun r : Fin n => (link r).congruence ⟨r, n⟩ (H r) >>= fun A =>
        Program.done (.ok A.readings))
      fun r : Fin n => ((link r).represented (P r)).congruence ⟨r, n⟩ (H r) >>= fun A =>
        Program.done (.ok A.readings) := by
  have hsquare := fun H : ∀ r, Csr S (m r) (m r) => alike_congruence_of_eq
    (fun r => congruent_represented hentry r (H r).entry) fun _ readings => readings
  simp only [congruence_eq, squared_self, Program.liftM_eq, Program.done_ok_bind,
    Program.bind_assoc] at hsquare ⊢
  refine Alike.lift_bind ?_ ?_
  · intro r H' _ _
    simp only [ranges, Ownership.gather_eq, Program.gather_bind]
    rfl
  · intro H' _
    exact hsquare H'

end Products

section Marks

variable [CommSemiring S] [BEq S] [LawfulBEq S]

/-- Marks show it by the positions where values cancel only. -/
theorem alike_dependents (hentry : ∀ r i j, (P r).entry i j = (link r).prolongation.entry i j)
    (hcancels : ∀ r i j, (P r).Cancels i j ↔ (link r).prolongation.Cancels i j)
    (t into : Fin n → Array Bool) :
    Alike (fun r : Fin n => (link r).dependents ⟨r, n⟩ (t r) (into r))
      fun r : Fin n => ((link r).represented (P r)).dependents ⟨r, n⟩ (t r) (into r) := by
  have hfound : ∀ (value : Nat → S) r i,
      dependsOn (P r) value i = dependsOn (link r).prolongation value i := by
    intro value r i
    have hiff : ∀ A : Csr S (m r) (link r).numGlobal, dependsOn A value i = true ↔
        ∃ j : Fin (link r).numGlobal, value j ≠ 0 ∧ (A.entry i j ≠ 0 ∨ A.Cancels i j) := by
      intro A
      simp only [dependsOn, List.any_eq_true, Bool.and_eq_true, bne_iff_ne]
      exact A.exists_row_iff i fun j => value j ≠ 0
    rw [Bool.eq_iff_iff, hiff, hiff]
    simp only [hentry, hcancels]
  refine Alike.of_tiles (fun r => Program.lift_lift _ _ _) (fun r => Program.lift_lift _ _ _) ?_ ?_
  · intro hn r b hb
    have ht := (Outcome.require_eq_ok_iff.1 ((Outcome.both_eq_ok_iff _ _).1 hb).1).symm
    have howned : ((t r).toList.map fun b => if b then (1 : S) else 0).length =
        (link r).numOwned := (List.length_map _).trans ht
    exact ⟨Program.result?_bind (Exchange.pull_calls hn howned _) _,
      Program.result?_bind (Exchange.pull_calls hn howned _) _⟩
  · intro hok tiles
    have hgiven : ∀ r, ∃ x : Vector Bool (link r).numOwned, x.toArray = t r ∧
        (into r).size = m r := by
      intro r
      obtain ⟨b, hb⟩ := hok r
      obtain ⟨ht, hinto⟩ := (Outcome.both_eq_ok_iff _ _).1 hb
      exact ⟨⟨t r, (Outcome.require_eq_ok_iff.1 ht).symm⟩, rfl,
        (Outcome.require_eq_ok_iff.1 hinto).symm⟩
    choose x hx hinto using hgiven
    obtain rfl : t = fun r => (x r).toArray := funext fun r => (hx r).symm
    have htiled : Tiled link := tiles
    have htiled' : Tiled fun r => (link r).represented (P r) := tiles
    have hsizes : ∀ r, ((x r).toArray.toList.map fun b => if b then (1 : S) else 0).toArray.size =
        (link r).numOwned := by
      intro r
      simp
    obtain ⟨value, hvalue⟩ := exists_spread hsizes
    refine ⟨_, dependents_together htiled hvalue hinto, ?_⟩
    simp only [← funext (hfound value _)]
    exact dependents_together htiled' hvalue hinto

/-- Over ranges that tile the space, what depends on a mark is found through entries that are not
    zero, and through values that cancel. -/
theorem dependents_cancels [Nontrivial S] (tiled : Tiled link)
    (marks : ∀ r, Vector Bool (link r).numOwned) {into : Fin n → Array Bool}
    (hinto : ∀ r, (into r).size = m r) :
    ∃ marked : ∀ r, Vector Bool (m r),
      Together (fun r : Fin n => (link r).dependents ⟨r, n⟩ (marks r).toArray (into r))
        (fun r => (marked r).toArray) ∧
      ∀ r i, (marked r).get i = true ↔ ∃ j, (stacked marks)[j.val]? = some true ∧
        ((link r).prolongation.entry i j ≠ 0 ∨ (link r).prolongation.Cancels i j) := by
  obtain ⟨marked, htogether, hmarked⟩ := dependents_marked tiled marks hinto
  refine ⟨marked, htogether, ?_⟩
  intro r i
  rw [hmarked]
  exact (link r).prolongation.exists_row_iff i fun j => (stacked marks)[j.val]? = some true

end Marks

end Unseen

/-- Links with the same restriction table differ in their prolongations only. -/
theorem ofProlongation_represented {g : Nat} {P P' : Csr S l g} {restriction : Array GatherEntry}
    {offset : Nat} {link link' : TrueDofs S l}
    (h : ofProlongation P restriction offset = .ok link)
    (h' : ofProlongation P' restriction offset = .ok link') :
    ∃ table fits, link = ⟨restriction.size, g, offset, P, table, fits⟩ ∧
      link' = ⟨restriction.size, g, offset, P', table, fits⟩ := by
  obtain ⟨-, table, fits, rfl⟩ := ofProlongation_eq h
  obtain ⟨-, table', fits', rfl⟩ := ofProlongation_eq h'
  have hsame : table = table' := by
    apply Vector.ext_get
    intro t
    have hread := (restriction_of_ofProlongation h t).symm.trans (restriction_of_ofProlongation h' t)
    obtain ⟨hindex, horientation⟩ := Signed.mk.inj (Option.some.inj hread)
    exact congrArg₂ Signed.mk (Fin.ext hindex) horientation
  exact ⟨table, fits, rfl, by rw [hsame]⟩

/-- **The result**: two families of links are given that differ in the representations of their
    prolongations only.  Every rank ends in the same way with both in `prolong`, `prolongTranspose`
    and `congruence`, the last up to what can be read from the rows; and in `dependents` where both
    representations cancel at the same positions.  Over ranges that tile the space, `dependents`
    finds what depends on a mark through entries that are not zero, and through values that
    cancel. -/
theorem representation_unseen [CommSemiring S] [Nontrivial S] [BEq S] [LawfulBEq S]
    {m g : Fin n → Nat} (P P' : ∀ r, Csr S (m r) (g r)) (restriction : Fin n → Array GatherEntry)
    (offset : Fin n → Nat) {link link' : ∀ r, TrueDofs S (m r)}
    (hlink : ∀ r, ofProlongation (P r) (restriction r) (offset r) = .ok (link r))
    (hlink' : ∀ r, ofProlongation (P' r) (restriction r) (offset r) = .ok (link' r))
    (hentry : ∀ r i j, (P r).entry i j = (P' r).entry i j) :
    (∀ t into : Fin n → Array S,
      Alike (fun r : Fin n => (link r).prolong ⟨r, n⟩ (t r) (into r))
        fun r : Fin n => (link' r).prolong ⟨r, n⟩ (t r) (into r)) ∧
    (∀ v into : Fin n → Array S,
      Alike (fun r : Fin n => (link r).prolongTranspose ⟨r, n⟩ (v r) (into r))
        fun r : Fin n => (link' r).prolongTranspose ⟨r, n⟩ (v r) (into r)) ∧
    (∀ (rows cols : Fin n → Nat) (H : ∀ r, Csr S (rows r) (cols r)),
      Alike (fun r : Fin n => (link r).congruence ⟨r, n⟩ (H r) >>= fun A =>
          Program.done (.ok A.readings))
        fun r : Fin n => (link' r).congruence ⟨r, n⟩ (H r) >>= fun A =>
          Program.done (.ok A.readings)) ∧
    ((∀ r i j, (P r).Cancels i j ↔ (P' r).Cancels i j) → ∀ t into : Fin n → Array Bool,
      Alike (fun r : Fin n => (link r).dependents ⟨r, n⟩ (t r) (into r))
        fun r : Fin n => (link' r).dependents ⟨r, n⟩ (t r) (into r)) ∧
    (Tiles (fun r => (restriction r).size) offset g →
      ∀ (marks : ∀ r, Vector Bool (restriction r).size) (into : Fin n → Array Bool),
        (∀ r, (into r).size = m r) → ∃ marked : ∀ r, Vector Bool (m r),
          Together (fun r : Fin n => (link r).dependents ⟨r, n⟩ (marks r).toArray (into r))
            (fun r => (marked r).toArray) ∧
          ∀ r i, (marked r).get i = true ↔ ∃ j, (stacked marks)[j.val]? = some true ∧
            ((P r).entry i j ≠ 0 ∨ (P r).Cancels i j)) := by
  choose table fits heq heq' using fun r => ofProlongation_represented (hlink r) (hlink' r)
  obtain rfl : link = _ := funext heq
  obtain rfl : link' = _ := funext heq'
  have hback : ∀ r i j, (P' r).entry i j = (P r).entry i j := fun r i j => (hentry r i j).symm
  refine ⟨alike_prolong hback, alike_prolongTranspose hback,
    fun rows cols H => alike_congruence hback H, ?_, ?_⟩
  · intro hcancels
    exact alike_dependents hback fun r i j => (hcancels r i j).symm
  · intro tiles marks into hinto
    have tiled : Tiled fun r => (⟨(restriction r).size, g r, offset r, P r, table r, fits r⟩ :
        TrueDofs S (m r)) := tiles
    exact dependents_cancels tiled marks hinto

/-! ### Two ranks whose values are stored in parts -/

/-- The first rank stores an entry in two parts, the second one stores two values that cancel, -/
def inParts (r : Fin 2) : Csr Int 1 1 :=
  if r.val = 0 then oneRow [3, -2] else oneRow [1, -1]

/-- or both store the sums. -/
def asSums (r : Fin 2) : Csr Int 1 1 :=
  if r.val = 0 then oneRow [1] else oneRow [0]

/-- So it is for these two ranks: `prolong` does not see the difference, but the second rank finds a
    mark through the values that cancel, and none through their sum. -/
theorem representation_unseen_inParts :
    ∃ (link link' : Fin 2 → TrueDofs Int 1) (marked marked' : Fin 2 → Vector Bool 1),
      (∀ r, ofProlongation (inParts r) (sharedRestriction r) r.val = .ok (link r)) ∧
      (∀ r, ofProlongation (asSums r) (sharedRestriction r) r.val = .ok (link' r)) ∧
      Alike (fun r : Fin 2 => (link r).prolong ⟨r, 2⟩ (sharedTrue r).toArray #[0])
        (fun r : Fin 2 => (link' r).prolong ⟨r, 2⟩ (sharedTrue r).toArray #[0]) ∧
      Together (fun r : Fin 2 => (link r).dependents ⟨r, 2⟩ (sharedMarks r).toArray #[false])
        (fun r => (marked r).toArray) ∧
      Together (fun r : Fin 2 => (link' r).dependents ⟨r, 2⟩ (sharedMarks r).toArray #[false])
        (fun r => (marked' r).toArray) ∧
      (marked 1).get 0 = true ∧ (marked' 1).get 0 = false := by
  have hmade : ∀ r : Fin 2, ∃ link : TrueDofs Int 1,
      ofProlongation (inParts r) (sharedRestriction r) r.val = .ok link
    | 0 => ⟨_, rfl⟩
    | 1 => ⟨_, rfl⟩
  have hmade' : ∀ r : Fin 2, ∃ link : TrueDofs Int 1,
      ofProlongation (asSums r) (sharedRestriction r) r.val = .ok link
    | 0 => ⟨_, rfl⟩
    | 1 => ⟨_, rfl⟩
  choose link hlink using hmade
  choose link' hlink' using hmade'
  have hentry : ∀ r i j, (inParts r).entry i j = (asSums r).entry i j := by decide +kernel
  have tiles : Tiles (fun r => (sharedRestriction r).size) (fun r => r.val) fun _ => 1 := by
    constructor <;> decide
  obtain ⟨hprolong, -, -, -, hmarks⟩ :=
    representation_unseen inParts asSums sharedRestriction (fun r => r.val) hlink hlink' hentry
  obtain ⟨-, -, -, -, hmarks'⟩ := representation_unseen asSums inParts sharedRestriction
    (fun r => r.val) hlink' hlink fun r i j => (hentry r i j).symm
  obtain ⟨marked, htogether, hmarked⟩ := hmarks tiles sharedMarks (fun _ => #[false]) fun _ => rfl
  obtain ⟨marked', htogether', hmarked'⟩ :=
    hmarks' tiles sharedMarks (fun _ => #[false]) fun _ => rfl
  refine ⟨link, link', marked, marked', hlink, hlink', hprolong _ _, htogether, htogether', ?_, ?_⟩
  · exact (hmarked 1 0).2
      ⟨0, by decide +kernel, .inr ⟨by decide +kernel, (0, 1), by decide +kernel, rfl, by decide⟩⟩
  · rw [Bool.eq_false_iff, ne_eq, hmarked']
    rintro ⟨j, -, hentry | ⟨-, hstored⟩⟩
    · revert hentry
      revert j
      decide +kernel
    · revert hstored
      revert j
      decide +kernel

end TrueDofs

end Condensation
