/-
  Classification — which broken degrees of freedom are marked as essential.

  1. **Freedom travels** — every rank marks what it owns and is free, and gets the marks of the true
     degrees of freedom that its links reference (`dependents_together`).

  2. **Prescribed** — a local degree of freedom is prescribed when all true ones with a non-zero link
     to it are listed as essential by the ranks that own them; without links, when it is
     listed itself.

  3. **The crux (`classify`)** — whenever all ranks get past the classification, their ranges tile the
     true space, and exactly the broken copies of prescribed degrees of freedom are marked.
-/
import Condensation.Dofs.Essential
import Condensation.Proofs.ConformingLinks
import Condensation.Proofs.Scheduling

namespace Condensation

variable {S α : Type} {n : Nat}

/-! ## Scalars -/

/-- Orientations and marks act on scalars as they should.  It is so in every ring with `1 ≠ 0`. -/
structure SignLaws (S : Type) [Zero S] [One S] [Neg S] [Mul S] [BEq S] : Prop where
  twice : ∀ (o : Orientation) (x : S), o.factor * (o.factor * x) = x
  factor_ne : ∀ o : Orientation, ((o.factor : S) != 0) = true
  zero_ne : ((0 : S) != 0) = false

theorem signLaws [Ring S] [Nontrivial S] [BEq S] [LawfulBEq S] : SignLaws S where
  twice o x := by cases o <;> simp [Orientation.factor]
  factor_ne o := by cases o <;> simp [Orientation.factor]
  zero_ne := by simp

/-! ## Free true degrees of freedom -/

namespace FluxSpace

/-- Only listed degrees of freedom are not free, and all of them are in range. -/
theorem of_freeMarker {numTrue : Nat} {essential : List Nat} {free : Vector Bool numTrue}
    (h : freeMarker numTrue essential = .ok free) :
    (∀ t ∈ essential, t < numTrue) ∧ ∀ t, free.get t = true ↔ t.val ∉ essential := by
  have marks : ∀ (rest : List Nat) (marker : Vector Bool numTrue),
      rest.foldlM (fun free t =>
        if h : t < numTrue then Outcome.ok (free.put ⟨t, h⟩ false)
        else Outcome.fault (.badNumbering (.essentialOutOfRange t numTrue))) marker = .ok free →
      (∀ t ∈ rest, t < numTrue) ∧
        ∀ t, free.get t = true ↔ marker.get t = true ∧ t.val ∉ rest := by
    intro rest
    induction rest with
    | nil =>
      intro marker hrun
      obtain rfl : marker = free := by simpa using hrun
      simp
    | cons t rest ih =>
      intro marker hrun
      rw [List.foldlM_cons] at hrun
      obtain ⟨next, hnext, hrun⟩ := Outcome.bind_eq_ok_iff.1 hrun
      split at hnext
      · next ht =>
        obtain rfl := Outcome.ok.inj hnext
        obtain ⟨hrange, hfree⟩ := ih _ hrun
        refine ⟨by simpa using ⟨ht, hrange⟩, fun t' => (hfree t').trans ?_⟩
        by_cases heq : (⟨t, ht⟩ : Fin numTrue) = t'
        · subst heq
          simp
        · have hval : t'.val ≠ t := fun e => heq (Fin.ext e.symm)
          rw [Vector.get_put_of_ne _ _ heq]
          simp [hval]
      · simp at hnext
  obtain ⟨hrange, hfree⟩ := marks essential _ h
  refine ⟨hrange, fun t => (hfree t).trans ?_⟩
  simp

end FluxSpace

/-! ## Freedom travels -/

namespace TrueDofs

variable {l : Fin n → Nat} {link : ∀ r, TrueDofs S (l r)}

/-- Some rank that owns the true degree of freedom `j` lists it. -/
def ListedIn (link : ∀ r, TrueDofs S (l r)) (essential : Fin n → List Nat) (j : Nat) : Prop :=
  ∃ q, ∃ t ∈ essential q, (link q).offset + t = j

/-- Only the owner can list a true degree of freedom. -/
theorem listedIn_iff (tiled : Tiled link) {essential : Fin n → List Nat}
    (hrange : ∀ r, ∀ t ∈ essential r, t < (link r).numOwned) {q : Fin n}
    (i : Fin (link q).numOwned) :
    ListedIn link essential ((link q).offset + i) ↔ i.val ∈ essential q := by
  constructor
  · rintro ⟨q', t, ht, heq⟩
    have hthere := Ownership.holds_start_add (fun r => (link r).numOwned) q' ⟨t, hrange q' t ht⟩
    have hhere := Ownership.holds_start_add (fun r => (link r).numOwned) q i
    simp only [tiled.offset_eq] at heq
    rw [heq] at hthere
    obtain rfl : q' = q :=
      Fin.ext (Size.part_unique (tiling fun r => (link r).numOwned).start_mono hthere hhere)
    obtain rfl : t = i.val := by omega
    exact ht
  · intro ht
    exact ⟨q, i.val, ht, rfl⟩

variable [Zero S] [One S] [BEq S]

/-- Whether a row is linked to a free true degree of freedom. -/
def dependsOn {r c : Nat} (A : Csr S r c) (value : Nat → S) (i : Fin r) : Bool :=
  (A.row i).any fun e => e.2 != 0 && value e.1 != 0

/-- **Freedom travels**: every rank finds the local degrees of freedom that depend on a free true
    one, wherever that one is owned. -/
theorem dependents_together (tiled : Tiled link) {free : ∀ r, Vector Bool (link r).numOwned}
    {value : Nat → S}
    (hvalue : Spread (fun r => (link r).numOwned) value fun r =>
      ((free r).toArray.toList.map fun b => if b then (1 : S) else 0).toArray)
    {into : Fin n → Array Bool} (hinto : ∀ r, (into r).size = l r) :
    Together (fun r : Fin n => (link r).dependents ⟨r, n⟩ (free r).toArray (into r))
      fun r => (Vector.ofFn (dependsOn (link r).prolongation value)).toArray := by
  have howned : ∀ r, Outcome.sameLength .ownedTrueMarker (link r).numOwned (free r).toArray.size =
      .ok () := fun r => Outcome.require_eq_ok_iff.2 (by simp)
  have hlocal : ∀ r, Outcome.sameLength .localMarker (l r) (into r).size = .ok () :=
    fun r => Outcome.require_eq_ok_iff.2 (hinto r).symm
  have hsorted : ∀ r, (link r).columns.Pairwise (· ≤ ·) := by
    intro r
    rw [columns, List.pairwise_map]
    exact (link r).prolongation.pairwise_referenced.imp fun h => le_of_lt h
  have hin : ∀ r, ∀ g ∈ (link r).columns, g < (tiling fun r => (link r).numOwned).globalSize := by
    intro r g hg
    obtain ⟨j, -, rfl⟩ := List.mem_map.1 hg
    rw [← tiled.global_eq r]
    exact j.isLt
  have hparts : ∀ r, (free r).toArray.toList.map (fun b => if b then (1 : S) else 0) =
      List.ofFn fun i : Fin (link r).numOwned =>
        value ((tiling fun r => (link r).numOwned).start r + i) := fun r => hvalue r
  have hvalues : ∀ r, ∃ x, Outcome.exactly (link r).prolongation.referenced.length
      ((link r).columns.map value) = .ok x ∧
        ∀ k, x.get k = value ((link r).prolongation.referenced.get k) := by
    intro r
    refine ⟨_, dif_pos (by simp [columns]), fun k => ?_⟩
    simp [columns, Vector.get]
    rfl
  choose x hx hget using hvalues
  have hrow : ∀ r i, ((link r).prolongation.compressed.row i).any
      (fun e => e.2 != 0 && (x r).get e.1 != 0) = dependsOn (link r).prolongation value i := by
    intro r i
    rw [dependsOn, ← (link r).prolongation.row_compressed i, List.any_map]
    simp only [hget]
    rfl
  simp only [dependents, howned, hlocal, hparts, Program.liftM_eq, Program.done_ok_bind, ranges]
  refine Ownership.gather_then tiled (Exchange.pull_then hsorted hin ?_)
  simp only [hx, hrow, Program.done_ok_bind, Program.pure_eq]
  exact Together.done _

/-- Ranks that get past this have ranges that tile the true space. -/
theorem of_dependents {free into : Fin n → Array Bool} {k : Fin n → Array Bool → Program S α}
    {a : Fin n → α}
    (h : Together (fun r : Fin n => (link r).dependents ⟨r, n⟩ (free r) (into r) >>= k r) a) :
    Tiled link := by
  simp only [dependents, Program.bind_assoc] at h
  obtain ⟨_, -, h⟩ := Together.of_lift_bind h
  obtain ⟨_, -, h⟩ := Together.of_lift_bind h
  exact (Ownership.of_gather h).1

/-- The value that travels for a true degree of freedom is zero just if it is listed. -/
theorem value_ne_iff [Neg S] [Mul S] (laws : SignLaws S) (tiled : Tiled link)
    {essential : Fin n → List Nat} {free : ∀ r, Vector Bool (link r).numOwned}
    (hrange : ∀ r, ∀ t ∈ essential r, t < (link r).numOwned)
    (hfree : ∀ r t, (free r).get t = true ↔ t.val ∉ essential r) {value : Nat → S}
    (hvalue : Spread (fun r => (link r).numOwned) value fun r =>
      ((free r).toArray.toList.map fun b => if b then (1 : S) else 0).toArray)
    {j : Nat} (hj : j < (tiling fun r => (link r).numOwned).globalSize) :
    (value j != 0) = true ↔ ¬ ListedIn link essential j := by
  -- the degree of freedom is number `i` of the rank `q` that owns it
  obtain ⟨q, hle, hlt⟩ := Ownership.exists_holds hj
  have hlast : ((tiling fun r => (link r).numOwned).range q).last =
      (tiling fun r => (link r).numOwned).start q + (link q).numOwned :=
    Ownership.start_succ _ q
  change (tiling fun r => (link r).numOwned).start q ≤ j at hle
  obtain ⟨i, rfl⟩ : ∃ i : Fin (link q).numOwned,
      (tiling fun r => (link r).numOwned).start q + i.val = j :=
    ⟨⟨j - (tiling fun r => (link r).numOwned).start q, by omega⟩, Nat.add_sub_cancel' hle⟩
  have hhere : value ((tiling fun r => (link r).numOwned).start q + i.val) =
      if (free q).get i then 1 else 0 := by
    have hpart := congrArg (fun list => list[i.val]?) (hvalue q)
    simpa [Vector.get] using hpart.symm
  have hone : ((1 : S) != 0) = true := laws.factor_ne .plus
  rw [hhere, ← tiled.offset_eq q, listedIn_iff tiled hrange, ← hfree q i]
  by_cases hi : (free q).get i = true
  · simp [hi, hone]
  · simp [hi, laws.zero_ne]

/-- A row depends on no value that travelled just if its entries are zero or listed. -/
theorem dependsOn_eq_false_iff [Neg S] [Mul S] (laws : SignLaws S) (tiled : Tiled link)
    {essential : Fin n → List Nat} {free : ∀ r, Vector Bool (link r).numOwned}
    (hrange : ∀ r, ∀ t ∈ essential r, t < (link r).numOwned)
    (hfree : ∀ r t, (free r).get t = true ↔ t.val ∉ essential r) {value : Nat → S}
    (hvalue : Spread (fun r => (link r).numOwned) value fun r =>
      ((free r).toArray.toList.map fun b => if b then (1 : S) else 0).toArray)
    (r : Fin n) (i : Fin (l r)) :
    dependsOn (link r).prolongation value i = false ↔
      ∀ e ∈ (link r).prolongation.row i, (e.2 != 0) = true → ListedIn link essential e.1 := by
  have hne : ∀ e ∈ (link r).prolongation.row i,
      ((value e.1 != 0) = true ↔ ¬ ListedIn link essential e.1) := by
    intro e _
    refine value_ne_iff laws tiled hrange hfree hvalue ?_
    rw [← tiled.global_eq r]
    exact e.1.isLt
  rw [← Bool.not_eq_true, dependsOn, List.any_eq_true]
  constructor
  · intro hnone e he hentry
    by_contra hlisted
    exact hnone ⟨e, he, by simp [hentry, (hne e he).2 hlisted]⟩
  · rintro hall ⟨e, he, hfound⟩
    obtain ⟨hentry, hvalue⟩ := Bool.and_eq_true_iff.1 hfound
    exact (hne e he).1 hvalue (hall e he hentry)

end TrueDofs

/-! ## Prescribed degrees of freedom -/

section Prescribed

variable {ne : Fin n → Nat}

/-- Some rank that owns the true degree of freedom `j` lists it as essential. -/
def Listed (flux : ∀ r, FluxSpace S (ne r)) (essential : Fin n → List Nat) (j : Nat) : Prop :=
  ∃ q link, (flux q).trueDofs = some link ∧ ∃ t ∈ essential q, link.offset + t = j

theorem listed_iff {flux : ∀ r, FluxSpace S (ne r)} {essential : Fin n → List Nat}
    {link : ∀ r, TrueDofs S (flux r).numLocal} (h : ∀ r, (flux r).trueDofs = some (link r))
    (j : Nat) : Listed flux essential j ↔ TrueDofs.ListedIn link essential j := by
  constructor
  · rintro ⟨q, found, hfound, hj⟩
    obtain rfl : link q = found := Option.some.inj ((h q).symm.trans hfound)
    exact ⟨q, hj⟩
  · rintro ⟨q, hj⟩
    exact ⟨q, link q, h q, hj⟩

variable [Zero S] [BEq S]

/-- Local degree of freedom `k` of rank `r` is prescribed: with a link, when each true one that it
    depends on is listed; without, when it is listed itself. -/
def Prescribed (flux : ∀ r, FluxSpace S (ne r)) (essential : Fin n → List Nat) (r : Fin n)
    (k : Fin (flux r).numLocal) : Prop :=
  match (flux r).trueDofs with
  | some link => ∀ e ∈ link.prolongation.row k, (e.2 != 0) = true → Listed flux essential e.1
  | none => k.val ∈ essential r

variable {flux : ∀ r, FluxSpace S (ne r)} {essential : Fin n → List Nat}

theorem prescribed_none {r : Fin n} (h : (flux r).trueDofs = none) (k : Fin (flux r).numLocal) :
    Prescribed flux essential r k ↔ k.val ∈ essential r := by
  simp only [Prescribed, h]

theorem prescribed_some {r : Fin n} {link : TrueDofs S (flux r).numLocal}
    (h : (flux r).trueDofs = some link) (k : Fin (flux r).numLocal) :
    Prescribed flux essential r k ↔
      ∀ e ∈ link.prolongation.row k, (e.2 != 0) = true → Listed flux essential e.1 := by
  simp only [Prescribed, h]

end Prescribed

/-! ## The classification -/

/-- The copies of what is not free. -/
theorem copiesOfUnfree_eq {ne : Nat} (space : FluxSpace S ne) (s : Schedule)
    (free : Vector Bool space.numLocal) :
    space.copiesOfUnfree s free =
      .ok (.ofFn fun l => !free.get (space.gather.get l).index) := by
  rw [FluxSpace.copiesOfUnfree, s.each_pure]

section Classify

variable [Zero S] [One S] [BEq S] {ne : Fin n → Nat}
  {flux : ∀ r, FluxSpace S (ne r)} {essential : Fin n → List Nat} {s : Fin n → Schedule}

/-- What is known of all ranks that get past the classification: lists that are in range and speak
    of what the rank owns, and marks for exactly the broken copies of prescribed degrees of
    freedom.  What comes next gets these marks. -/
structure Classified (flux : ∀ r, FluxSpace S (ne r)) (essential : Fin n → List Nat)
    (s : Fin n → Schedule)
    (marked : ∀ r, Vector Bool (ne r * (flux r).dofsPerElement)) : Prop where
  inRange : ∀ r, ∀ t ∈ essential r, t < (flux r).numTrue
  owned : ∀ r link, (flux r).trueDofs = some link → ∀ t, t < link.numOwned →
    (Listed flux essential (link.offset + t) ↔ t ∈ essential r)
  marked_iff : ∀ r l, (marked r).get l = true ↔
    Prescribed flux essential r ((flux r).gather.get l).index
  next : ∀ {β : Type} {k : ∀ r, Vector Bool (ne r * (flux r).dofsPerElement) → Program S β}
    {b : Fin n → β}, Together (fun r : Fin n =>
      (flux r).essentialCopies (s r) ⟨r, n⟩ (essential r) >>= k r) b ↔
        Together (fun r => k r (marked r)) b

/-- Where no rank has a link, everyone classifies for itself. -/
theorem classify_unlinked (hnone : ∀ r, (flux r).trueDofs = none)
    {k : ∀ r, Vector Bool (ne r * (flux r).dofsPerElement) → Program S α} {a : Fin n → α}
    (h : Together (fun r : Fin n => (flux r).essentialCopies (s r) ⟨r, n⟩ (essential r) >>= k r) a) :
    ∃ marked, Classified flux essential s marked := by
  simp only [FluxSpace.essentialCopies, hnone, Program.bind_assoc] at h
  obtain ⟨_, hroom, h⟩ := Together.of_lift_bind h
  obtain ⟨free, hfree, -⟩ := Together.of_lift_bind h
  have hspec := fun r => FluxSpace.of_freeMarker (hfree r)
  refine ⟨fun r => .ofFn fun l => !(free r).get ((flux r).gather.get l).index, ?_, ?_, ?_, ?_⟩
  · intro r t ht
    have hsize : (flux r).numTrue = (flux r).numLocal := by simp only [FluxSpace.numTrue, hnone]
    rw [hsize]
    exact (hspec r).1 t ht
  · intro r link hlink
    rw [hnone r] at hlink
    exact absurd hlink (by simp)
  · intro r l
    rw [prescribed_none (hnone r), Vector.get_ofFn_eq]
    have hlocal := (hspec r).2 ((flux r).gather.get l).index
    rw [Bool.not_eq_true', ← Bool.not_eq_true, hlocal, not_not]
  · intro β k b
    simp only [FluxSpace.essentialCopies, hnone, hroom, hfree, copiesOfUnfree_eq,
      Program.liftM_eq, Program.done_ok_bind]

/-- Where all ranks have links, freedom travels. -/
theorem classify_linked [Neg S] [Mul S] (laws : SignLaws S)
    {link : ∀ r, TrueDofs S (flux r).numLocal} (hlink : ∀ r, (flux r).trueDofs = some (link r))
    {k : ∀ r, Vector Bool (ne r * (flux r).dofsPerElement) → Program S α} {a : Fin n → α}
    (h : Together (fun r : Fin n => (flux r).essentialCopies (s r) ⟨r, n⟩ (essential r) >>= k r) a) :
    ∃ marked, Classified flux essential s marked := by
  simp only [FluxSpace.essentialCopies, hlink, Program.bind_assoc] at h
  obtain ⟨free, hfree, h⟩ := Together.of_lift_bind h
  have tiled := TrueDofs.of_dependents h
  have hspec := fun r => FluxSpace.of_freeMarker (hfree r)
  have hmarks : ∀ r, ((free r).toArray.toList.map fun b => if b then (1 : S) else 0).toArray.size =
      (link r).numOwned := by simp
  have hinto : ∀ r, (Array.replicate (flux r).numLocal false).size = (flux r).numLocal := by simp
  obtain ⟨value, hvalue⟩ := exists_spread hmarks
  have hdependents := TrueDofs.dependents_together tiled hvalue hinto
  refine ⟨fun r => .ofFn fun l =>
    !(Vector.ofFn (TrueDofs.dependsOn (link r).prolongation value)).get
      ((flux r).gather.get l).index, ?_, ?_, ?_, ?_⟩
  · intro r t ht
    have hsize : (flux r).numTrue = (link r).numOwned := by simp only [FluxSpace.numTrue, hlink]
    rw [hsize]
    exact (hspec r).1 t ht
  · intro r found hfound t ht
    obtain rfl : link r = found := Option.some.inj ((hlink r).symm.trans hfound)
    rw [listed_iff hlink]
    exact TrueDofs.listedIn_iff tiled (fun r => (hspec r).1) ⟨t, ht⟩
  · intro r l
    rw [prescribed_some (hlink r), Vector.get_ofFn_eq, Vector.get_ofFn_eq, Bool.not_eq_true',
      TrueDofs.dependsOn_eq_false_iff laws tiled (fun r => (hspec r).1) (fun r => (hspec r).2)
        hvalue]
    simp only [listed_iff hlink]
  · intro β k b
    simp only [FluxSpace.essentialCopies, hlink, Program.bind_assoc, hfree, Program.liftM_eq,
      Program.done_ok_bind]
    rw [Together.bind_iff hdependents]
    simp only [Outcome.sized_toArray, copiesOfUnfree_eq, Program.done_ok_bind]

end Classify

end Condensation
