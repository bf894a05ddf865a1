/-
  Shared marks — one mark for all copies of a true degree of freedom.

  1. **Numbering** — in a space whose links were made from tables, every local degree of freedom
     stands for the true one that its table names, with either orientation, and the ranges of the
     ranks say who owns it.  A single rank without a link numbers its local degrees of freedom.

  2. **Returning (`essentialCopies_returns`)** — lists in range are never refused, so all ranks get
     their marks.

  3. **The result (`marks_shared`)** — a broken degree of freedom is marked just if the owner of the
     true one behind it lists it, on whatever rank and with whatever orientations the copies are.
-/
import Condensation.Proofs.CongruenceSum
import Condensation.Proofs.KeptValues

namespace Condensation

variable {S : Type} {n : Nat} {ne : Fin n → Nat} {flux : ∀ r, FluxSpace S (ne r)}
  {owned offset : Fin n → Nat} {number : ∀ r, Fin (flux r).numLocal → Nat}

/-! ## Numbering -/

/-- Local degree of freedom `k` of rank `r` stands for the true one with global number `number r k`,
    and rank `r` owns the true ones from `offset r` up to but not including `offset r + owned r`. -/
inductive Numbered [Add S] [One S] [Neg S] (flux : ∀ r : Fin n, FluxSpace S (ne r)) :
    (owned offset : Fin n → Nat) → (number : ∀ r, Fin (flux r).numLocal → Nat) → Prop where
  /-- Links made from tables, for ranges that follow each other. -/
  | linked (link : ∀ r, TrueDofs S (flux r).numLocal) (table : Fin n → Array GatherEntry)
      (owned offset : Fin n → Nat) (global : Nat) (number : ∀ r, Fin (flux r).numLocal → Nat)
      (trueDofs_eq : ∀ r, (flux r).trueDofs = some (link r))
      (made : ∀ r, (link r).MadeConforming (table r) (owned r) (offset r) global)
      (offset_eq : ∀ r : Fin n, offset r = (tiling owned).start r)
      (global_eq : global = (tiling owned).globalSize)
      (number_eq : ∀ r (k : Fin (flux r).numLocal), ∃ o,
        (table r).getD k none = some ⟨number r k, o⟩)
      (ranks : 2 * n < Size.limit) : Numbered flux owned offset number
  /-- A single rank without a link, small enough for a table of marks. -/
  | alone (rank : n = 1) (unlinked : ∀ r, (flux r).trueDofs = none)
      (room : ∀ r, (flux r).numLocal < Size.tableLimit) :
      Numbered flux (fun r => (flux r).numLocal) (fun _ => 0) fun _ k => k

/-! ## Returning -/

/-- A list in range is not refused. -/
theorem FluxSpace.freeMarker_returns {numTrue : Nat} {essential : List Nat}
    (h : ∀ t ∈ essential, t < numTrue) : ∃ free, freeMarker numTrue essential = .ok free := by
  have marks : ∀ (rest : List Nat) (marker : Vector Bool numTrue), (∀ t ∈ rest, t < numTrue) →
      ∃ free, rest.foldlM (fun free t =>
        if h : t < numTrue then Outcome.ok (free.put ⟨t, h⟩ false)
        else Outcome.fault (.badNumbering (.essentialOutOfRange t numTrue))) marker = .ok free := by
    intro rest
    induction rest with
    | nil => exact fun marker _ => ⟨marker, rfl⟩
    | cons t rest ih =>
      intro marker hrest
      rw [List.foldlM_cons, dif_pos (hrest t (by simp)), Outcome.ok_bind]
      exact ih _ fun t' ht' => hrest t' (by simp [ht'])
  exact marks essential _ h

section Returning

variable [Zero S] [One S] [BEq S] {essential : Fin n → List Nat}

/-- Without links, every rank marks for itself, whatever its schedule. -/
theorem essentialCopies_returns_unlinked (hnone : ∀ r, (flux r).trueDofs = none)
    (hroom : ∀ r, (flux r).numLocal < Size.tableLimit)
    (hin : ∀ r, ∀ t ∈ essential r, t < (flux r).numLocal) :
    ∃ marked : ∀ r, Vector Bool (ne r * (flux r).dofsPerElement), ∀ s : Fin n → Schedule,
      Together (fun r : Fin n => (flux r).essentialCopies (s r) ⟨r, n⟩ (essential r) >>=
        fun marked => .done (.ok marked.toArray)) fun r => (marked r).toArray := by
  choose free hfree using fun r => FluxSpace.freeMarker_returns (hin r)
  have htable : ∀ r, Size.table (flux r).numLocal = .ok () :=
    fun r => Outcome.check_eq_ok_iff.2 (hroom r)
  refine ⟨fun r => .ofFn fun l => !(free r).get ((flux r).gather.get l).index, fun s => ?_⟩
  simp only [FluxSpace.essentialCopies, hnone, htable, hfree, copiesOfUnfree_eq, Program.liftM_eq,
    Program.done_ok_bind]
  exact Together.done _

/-- With links that tile the true space, freedom travels and all ranks get their marks. -/
theorem essentialCopies_returns_linked {link : ∀ r, TrueDofs S (flux r).numLocal}
    (hlink : ∀ r, (flux r).trueDofs = some (link r)) (tiled : TrueDofs.Tiled link)
    (hin : ∀ r, ∀ t ∈ essential r, t < (link r).numOwned) :
    ∃ marked : ∀ r, Vector Bool (ne r * (flux r).dofsPerElement), ∀ s : Fin n → Schedule,
      Together (fun r : Fin n => (flux r).essentialCopies (s r) ⟨r, n⟩ (essential r) >>=
        fun marked => .done (.ok marked.toArray)) fun r => (marked r).toArray := by
  choose free hfree using fun r => FluxSpace.freeMarker_returns (hin r)
  have hmarks : ∀ r, ((free r).toArray.toList.map fun b => if b then (1 : S) else 0).toArray.size =
      (link r).numOwned := by simp
  have hinto : ∀ r, (Array.replicate (flux r).numLocal false).size = (flux r).numLocal := by simp
  obtain ⟨value, hvalue⟩ := exists_spread hmarks
  have hdependents := TrueDofs.dependents_together tiled hvalue hinto
  refine ⟨fun r => .ofFn fun l =>
    !(Vector.ofFn (TrueDofs.dependsOn (link r).prolongation value)).get
      ((flux r).gather.get l).index, fun s => ?_⟩
  simp only [FluxSpace.essentialCopies, hlink, Program.bind_assoc, hfree, Program.liftM_eq,
    Program.done_ok_bind]
  rw [Together.bind_iff hdependents]
  simp only [Outcome.sized_toArray, copiesOfUnfree_eq, Program.done_ok_bind]
  exact Together.done _

end Returning

/-! ## The result -/

namespace Numbered

variable [Add S] [One S] [Neg S]

/-- The links of a numbered space tile the true space. -/
theorem tiled_of_made {link : ∀ r, TrueDofs S (flux r).numLocal} {table : Fin n → Array GatherEntry}
    {global : Nat} (hmade : ∀ r, (link r).MadeConforming (table r) (owned r) (offset r) global)
    (hoffset : ∀ r : Fin n, offset r = (tiling owned).start r)
    (hglobal : global = (tiling owned).globalSize) (hranks : 2 * n < Size.limit) :
    TrueDofs.Tiled link := by
  have howned : (fun r => (link r).numOwned) = owned := funext fun r => (hmade r).range.1
  have hsmall : (tiling owned).globalSize < Size.limit :=
    TrueDofs.globalSize_lt_limit hoffset fun r => (hmade r).range.2.2.2
  unfold TrueDofs.Tiled
  rw [howned]
  constructor
  · intro r
    rw [(hmade r).range.2.1, hoffset]
  · intro r
    rw [(hmade r).range.2.2.1, hglobal]
  · exact hsmall
  · exact hranks

/-- Every true degree of freedom has an owner. -/
theorem exists_owner (h : Numbered flux owned offset number) (r : Fin n)
    (k : Fin (flux r).numLocal) : ∃ q t, t < owned q ∧ offset q + t = number r k := by
  cases h with
  | linked link table owned offset global number trueDofs_eq made offset_eq global_eq number_eq
      ranks =>
    obtain ⟨g, hg, j, hj, -⟩ := (made r).row k
    obtain ⟨o, ho⟩ := number_eq r k
    obtain rfl : g = ⟨number r k, o⟩ := Option.some.inj (hg.symm.trans ho)
    have hlt : number r k < (tiling owned).globalSize := by
      have := j.isLt
      rw [hj, (made r).range.2.2.1, global_eq] at this
      exact this
    obtain ⟨q, hle, hend⟩ := Ownership.exists_holds hlt
    change (tiling owned).start q ≤ number r k at hle
    change number r k < (tiling owned).start (q + 1) at hend
    rw [Ownership.start_succ] at hend
    refine ⟨q, number r k - (tiling owned).start q, by omega, ?_⟩
    rw [offset_eq]
    omega
  | alone rank unlinked room => exact ⟨r, k, k.isLt, Nat.zero_add _⟩

variable [Zero S] [BEq S] {essential : Fin n → List Nat}

/-- All ranks get their marks, whatever their schedules. -/
theorem essentialCopies_returns (h : Numbered flux owned offset number)
    (hin : ∀ r, ∀ t ∈ essential r, t < owned r) :
    ∃ marked : ∀ r, Vector Bool (ne r * (flux r).dofsPerElement), ∀ s : Fin n → Schedule,
      Together (fun r : Fin n => (flux r).essentialCopies (s r) ⟨r, n⟩ (essential r) >>=
        fun marked => .done (.ok marked.toArray)) fun r => (marked r).toArray := by
  cases h with
  | linked link table owned offset global number trueDofs_eq made offset_eq global_eq number_eq
      ranks =>
    have tiled := tiled_of_made made offset_eq global_eq ranks
    refine essentialCopies_returns_linked trueDofs_eq tiled fun r t ht => ?_
    rw [(made r).range.1]
    exact hin r t ht
  | alone rank unlinked room => exact essentialCopies_returns_unlinked unlinked room hin

/-- A local degree of freedom is prescribed just if the owner of the true one behind it lists it. -/
theorem prescribed_iff [Mul S] (laws : SignLaws S) (h : Numbered flux owned offset number)
    {s : Fin n → Schedule} {marked : ∀ r, Vector Bool (ne r * (flux r).dofsPerElement)}
    (classified : Classified flux essential s marked) {r : Fin n} {k : Fin (flux r).numLocal}
    {q : Fin n} {t : Nat} (ht : t < owned q) (hq : offset q + t = number r k) :
    Prescribed flux essential r k ↔ t ∈ essential q := by
  cases h with
  | linked link table owned offset global number trueDofs_eq made offset_eq global_eq number_eq
      ranks =>
    -- the row of `k` stores one entry, an orientation, in the column of the true one
    obtain ⟨g, hg, j, hj, hrow⟩ := (made r).row k
    obtain ⟨o, ho⟩ := number_eq r k
    obtain rfl : g = ⟨number r k, o⟩ := Option.some.inj (hg.symm.trans ho)
    have hentry : ((o.factor : S) != 0) = true := laws.factor_ne o
    have hlisted : Listed flux essential j ↔ t ∈ essential q := by
      have htrue : t < (link q).numOwned := by
        rw [(made q).range.1]
        exact ht
      rw [← classified.owned q (link q) (trueDofs_eq q) t htrue, (made q).range.2.1, hq, hj]
    rw [prescribed_some (trueDofs_eq r), hrow, ← hlisted]
    constructor
    · intro hall
      exact hall _ (List.mem_singleton.2 rfl) hentry
    · intro hj e he _
      obtain rfl := List.mem_singleton.1 he
      exact hj
  | alone rank unlinked room =>
    subst rank
    obtain rfl : q = r := Subsingleton.elim q r
    obtain rfl : t = k.val := (Nat.zero_add t).symm.trans hq
    rw [prescribed_none (unlinked q)]

/-- **The result**: lists in range are never refused, on whatever schedules; a broken degree of
    freedom is marked just if the owner of the true one behind it lists it; and so all broken
    degrees of freedom behind which there is the same true one have the same mark. -/
theorem marks_shared [Mul S] (laws : SignLaws S) (h : Numbered flux owned offset number)
    (hin : ∀ r, ∀ t ∈ essential r, t < owned r) :
    ∃ marked : ∀ r, Vector Bool (ne r * (flux r).dofsPerElement),
      (∀ s : Fin n → Schedule,
        Together (fun r : Fin n => (flux r).essentialCopies (s r) ⟨r, n⟩ (essential r) >>=
          fun marked => .done (.ok marked.toArray)) fun r => (marked r).toArray) ∧
      (∀ r c, ∃ q t, t < owned q ∧ offset q + t = number r ((flux r).gather.get c).index) ∧
      (∀ r c q t, t < owned q → offset q + t = number r ((flux r).gather.get c).index →
        ((marked r).get c = true ↔ t ∈ essential q)) ∧
      ∀ r c r' c', number r ((flux r).gather.get c).index =
        number r' ((flux r').gather.get c').index → (marked r).get c = (marked r').get c' := by
  obtain ⟨marked, htogether⟩ := h.essentialCopies_returns hin
  obtain ⟨found, classified, hfound⟩ :=
    classify (f := fun r marked => .ok marked.toArray) laws (htogether fun _ => .inOrder)
  obtain rfl : found = marked :=
    funext fun r => Vector.toArray_inj.1 (Outcome.ok.inj (hfound r))
  have hmark : ∀ r c q t, t < owned q → offset q + t = number r ((flux r).gather.get c).index →
      ((found r).get c = true ↔ t ∈ essential q) := by
    intro r c q t ht hq
    rw [classified.marked_iff, prescribed_iff laws h classified ht hq]
  refine ⟨found, htogether, fun r c => h.exists_owner r _, hmark, ?_⟩
  intro r c r' c' hsame
  obtain ⟨q, t, ht, hq⟩ := h.exists_owner r ((flux r).gather.get c).index
  rw [Bool.eq_iff_iff, hmark r c q t ht hq, hmark r' c' q t ht (hq.trans hsame)]

/-- Rank 0 owns the true flux that both ranks copy. -/
theorem numbered_fluxOnRanks : Numbered (fun r => (Session.fluxOnRanks r).flux)
    (fun r => 1 - r.val) (fun r => r.val) fun _ _ => 0 := by
  refine .linked Session.signedLink Session.signedCopy _ _ 1 _ (fun r => rfl) (fun r => ?_)
    (by decide) (by decide) (fun r k => ⟨if r.val = 0 then .plus else .minus, ?_⟩) (by decide)
  · exact ⟨Session.signedLink r, Outcome.eq_ok_value (Session.signedCopy_conforms r), rfl⟩
  · change Fin 1 at k
    obtain rfl : k = 0 := Subsingleton.elim k 0
    rfl

/-- So it is for two ranks with two copies each of one true flux, of both orientations: it is listed
    by its owner, and all four copies are marked. -/
theorem marks_shared_fluxOnRanks :
    ∃ marked : ∀ r : Fin 2, Vector Bool (Session.fluxOnRanks r).numBroken,
      (∀ s : Fin 2 → Schedule, Together (fun r : Fin 2 => (Session.fluxOnRanks r).flux.essentialCopies
        (s r) ⟨r, 2⟩ (Session.listedOne r) >>= fun marked => .done (.ok marked.toArray))
          fun r => (marked r).toArray) ∧
      ∀ r c, (marked r).get c = true := by
  have hin : ∀ r, ∀ t ∈ Session.listedOne r, t < 1 - r.val := by decide
  obtain ⟨marked, htogether, -, hmark, -⟩ := marks_shared signLaws numbered_fluxOnRanks hin
  exact ⟨marked, htogether, fun r c =>
    (hmark r c 0 0 (by decide) rfl).2 (by decide)⟩

end Numbered

end Condensation
