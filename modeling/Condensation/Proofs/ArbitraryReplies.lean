/-
  Arbitrary replies — what a rank does with whatever the other ranks send.

  1. **Withstanding** — a program withstands its replies if it ends with a value of some kind or with
     a refusal, within a number of calls, for all data and counts that its calls may return; only of
     gathered ranges something may be assumed.  The rules are those of an induction over programs:
     one for each call, and one for sequences (`Withstands.bind`).  A run against a script of enough
     replies then ends like that (`Withstands.run`).

  2. **Ranges** — gathered ranges have the told lengths, one for each rank, or are refused
     (`withstands_gather`).

  3. **Exchanges** — what arrives is looked up in the owned range or refused, so pulling, pushing and
     routing withstand every reply.  A pull gives as many values as were wanted.  A push gives as many
     sums as the rank was *told* to own, and nobody compares this number with the one it does own.

  4. **Products (`prolongTranspose_aborts_iff`)** — the products with links and row blocks, and the
     congruence, withstand their replies too, except for the transposed product: it aborts exactly
     where the sums put together are not as many as the rank owns, and so never where the rank is
     told its own length.

  5. **The result (`replies_used_or_refused`)** — all of this, for runs with three replies or more.
-/
import Condensation.Proofs.AcceptedInputs

namespace Condensation

variable {S α β : Type}

/-! ## Endings -/

namespace Outcome

/-- The computation ends with a value of this kind, or with a refusal. -/
def Ends (post : α → Prop) : Outcome α → Prop
  | ok a => post a
  | fault _ => True
  | abort => False

theorem Ends.imp {post post' : α → Prop} {o : Outcome α} (h : o.Ends post)
    (hpost : ∀ a, post a → post' a) : o.Ends post' := by
  cases o with
  | ok a => exact hpost a h
  | fault why => exact h
  | abort => exact h

theorem Ends.bind {mid : α → Prop} {post : β → Prop} {x : Outcome α} {f : α → Outcome β}
    (hx : x.Ends mid) (hf : ∀ a, mid a → (f a).Ends post) : (x >>= f).Ends post := by
  cases x with
  | ok a => exact hf a hx
  | fault why => exact hx
  | abort => exact hx

theorem Orderly.ends {post : α → Prop} {o : Outcome α} (h : o.Orderly)
    (hpost : ∀ a, o = ok a → post a) : o.Ends post := by
  cases o with
  | ok a => exact hpost a rfl
  | fault why => trivial
  | abort => exact h

/-- What an output vector holds after a computation that is to fill it: the value, or what it held
    before if the computation was refused.  After an abort nothing is known. -/
def leaves (into : Array α) : Outcome (Array α) → Option (Array α)
  | ok v => some v
  | fault _ => some into
  | abort => none

/-- The computation comes to an end after which the output vector is as long as before, and is what
    it was before unless there is a value. -/
def Fills (into : Array α) (o : Outcome (Array α)) : Prop :=
  ∃ held, o.leaves into = some held ∧ held.size = into.size ∧ (o.hasValue = false → held = into)

theorem Ends.fills {into : Array α} {o : Outcome (Array α)}
    (h : o.Ends fun v => v.size = into.size) : o.Fills into := by
  cases o with
  | ok v => exact ⟨v, rfl, h, by simp [hasValue]⟩
  | fault why => exact ⟨into, rfl, rfl, fun _ => rfl⟩
  | abort => exact h.elim

end Outcome

/-! ## Withstanding -/

namespace Program

/-- Whatever its calls return, as far as gathered indices are as `told` says, the program ends with a
    value of this kind or with a refusal, after at most so many calls. -/
inductive Withstands (told : List Nat → Prop) (post : α → Prop) : Nat → Program S α → Prop
  | done {k : Nat} {o : Outcome α} (ends : o.Ends post) : Withstands told post k (.done o)
  | gather {k : Nat} {mine : List Nat} {next : List Nat → Program S α}
      (resume : ∀ all, told all → Withstands told post k (next all)) :
      Withstands told post (k + 1) (.gather mine next)
  | exchange {k : Nat} {wire : Wire} {send : List (wire.Datum S)} {counts : List Nat}
      {next : List (wire.Datum S) → List Nat → Program S α}
      (resume : ∀ got counts', Withstands told post k (next got counts')) :
      Withstands told post (k + 1) (.exchange wire send counts next)

/-- What the gathering calls among some calls returned is as `told` says. -/
def GatheredAs (told : List Nat → Prop) (calls : List (Call S)) (replies : List (Reply S)) : Prop :=
  ∀ mine reply, (Call.gather mine, reply) ∈ calls.zip replies → told reply.indices

theorem GatheredAs.of_forall {told : List Nat → Prop} {replies : List (Reply S)}
    (h : ∀ reply ∈ replies, told reply.indices) (calls : List (Call S)) :
    GatheredAs told calls replies :=
  fun _ reply hreply => h reply (List.of_mem_zip hreply).2

namespace Withstands

variable {told : List Nat → Prop} {mid : α → Prop} {post : β → Prop} {j k : Nat}

theorem mono {p : Program S β} (h : p.Withstands told post j) (hjk : j ≤ k) :
    p.Withstands told post k := by
  induction h generalizing k with
  | done ends => exact .done ends
  | gather _ ih =>
    obtain ⟨k, rfl⟩ := Nat.exists_eq_add_of_le' (Nat.one_le_of_lt hjk)
    exact .gather fun all hall => ih all hall (Nat.le_of_succ_le_succ hjk)
  | exchange _ ih =>
    obtain ⟨k, rfl⟩ := Nat.exists_eq_add_of_le' (Nat.one_le_of_lt hjk)
    exact .exchange fun got counts => ih got counts (Nat.le_of_succ_le_succ hjk)

theorem imp {post' : β → Prop} {p : Program S β} (h : p.Withstands told post k)
    (hpost : ∀ b, post b → post' b) : p.Withstands told post' k := by
  induction h with
  | done ends => exact .done (ends.imp hpost)
  | gather _ ih => exact .gather ih
  | exchange _ ih => exact .exchange ih

/-- **Sequences**: the calls add up. -/
theorem bind {p : Program S α} {f : α → Program S β} (hp : p.Withstands told mid j)
    (hf : ∀ a, mid a → (f a).Withstands told post k) : (p >>= f).Withstands told post (j + k) := by
  induction hp with
  | @done j o ends =>
    cases o with
    | ok a => exact (hf a ends).mono (Nat.le_add_left k j)
    | fault why => exact .done trivial
    | abort => exact ends.elim
  | gather _ ih =>
    rw [Nat.succ_add]
    exact .gather ih
  | exchange _ ih =>
    rw [Nat.succ_add]
    exact .exchange ih

/-- A step without calls. -/
theorem lift_bind {o : Outcome α} {f : α → Program S β} (ho : o.Ends mid)
    (hf : ∀ a, mid a → (f a).Withstands told post k) :
    ((liftM o : Program S α) >>= f).Withstands told post k := by
  have h : ((liftM o : Program S α) >>= f).Withstands told post (0 + k) := bind (.done ho) hf
  rwa [Nat.zero_add] at h

/-- The same, for a step that is orderly. -/
theorem orderly_bind {o : Outcome α} {f : α → Program S β} (ho : o.Orderly)
    (hf : ∀ a, o = .ok a → (f a).Withstands told post k) :
    ((liftM o : Program S α) >>= f).Withstands told post k :=
  lift_bind (ho.ends fun _ h => h) hf

theorem allGather_bind {mine : List Nat} {f : List Nat → Program S β}
    (hf : ∀ all, told all → (f all).Withstands told post k) :
    (Program.allGather mine >>= f).Withstands told post (k + 1) :=
  .gather hf

theorem allToAll_bind {wire : Wire} {send : List (wire.Datum S)} {counts : List Nat}
    {f : List (wire.Datum S) × List Nat → Program S β}
    (hf : ∀ got counts', (f (got, counts')).Withstands told post k) :
    (Program.allToAll wire send counts >>= f).Withstands told post (k + 1) :=
  .exchange hf

/-- **Runs**: enough replies bring the program to such an end. -/
theorem run {p : Program S β} (h : p.Withstands told post k) {replies : List (Reply S)}
    (hk : k ≤ replies.length) (htold : GatheredAs told (p.runScripted replies).calls replies) :
    (p.runScripted replies).outcome.Ends post := by
  induction h generalizing replies with
  | done ends => exact ends
  | gather _ ih =>
    cases replies with
    | nil => exact absurd hk (Nat.not_succ_le_zero _)
    | cons reply replies =>
      refine ih reply.indices (htold _ reply List.mem_cons_self) (Nat.le_of_succ_le_succ hk) ?_
      exact fun mine later hlater => htold mine later (List.mem_cons_of_mem _ hlater)
  | exchange _ ih =>
    cases replies with
    | nil => exact absurd hk (Nat.not_succ_le_zero _)
    | cons reply replies =>
      refine ih (reply.data _) reply.counts (Nat.le_of_succ_le_succ hk) ?_
      exact fun mine later hlater => htold mine later (List.mem_cons_of_mem _ hlater)

end Withstands

/-- A last step without calls changes nothing but the outcome. -/
theorem runScripted_bind_done (p : Program S α) (g : α → Outcome β) (replies : List (Reply S)) :
    (p >>= fun a => .done (g a)).runScripted replies =
      ⟨(p.runScripted replies).outcome >>= g, (p.runScripted replies).unused,
        (p.runScripted replies).calls⟩ := by
  induction p generalizing replies with
  | done o => cases o <;> rfl
  | gather mine next ih =>
    cases replies with
    | nil => rfl
    | cons reply replies => exact congrArg (Scripted.after _) (ih reply.indices replies)
  | exchange wire send counts next ih =>
    cases replies with
    | nil => rfl
    | cons reply replies =>
      exact congrArg (Scripted.after _) (ih (reply.data wire) reply.counts replies)

end Program

open Program (Withstands)

/-! ## Ranges -/

/-- The ends of gathered ranges (start and length in turn) are in range. -/
def RangesFit : List Nat → Prop
  | start :: length :: rest => start + length < Size.limit ∧ RangesFit rest
  | _ => True

/-- The length that was told to belong to rank `r`. -/
def toldLength (all : List Nat) (r : Nat) : Option Nat := all[2 * r + 1]?

namespace Ownership

/-- Ranges of as many ranks, of the told lengths. -/
structure As (o : Ownership) (size : Nat) (all : List Nat) : Prop where
  numRanks_eq : o.numRanks = size
  length_eq : ∀ r, r < size → toldLength all r = some (o.range r).length

theorem length_range_eq (o : Ownership) {r : Nat} (h : r < o.numRanks) :
    (o.range r).length = o.lengths[r] := by
  have hstop : o.start (r + 1) = o.start r + o.lengths[r] := Size.offset_succ h
  show o.start (r + 1) - o.start r = _
  rw [hstop, Nat.add_sub_cancel_left]

/-- Ranges that fit follow each other or are refused. -/
theorem tiled_ends {n : Nat} (rank next : Nat) {pairs : List Nat} (hfit : RangesFit pairs)
    (hn : pairs.length = 2 * n) :
    (tiled rank next pairs).Ends fun found => found.1.length = n ∧
      (∀ r, found.1[r]? = toldLength pairs r) ∧ found.2 = next + found.1.sum ∧
        (next < Size.limit → found.2 < Size.limit) := by
  induction n generalizing rank next pairs with
  | zero =>
    obtain rfl := List.eq_nil_of_length_eq_zero hn
    exact ⟨rfl, fun _ => rfl, rfl, id⟩
  | succ n ih =>
    obtain _ | ⟨start, _ | ⟨length, rest⟩⟩ := pairs
    · simp at hn
    · simp at hn
      omega
    · obtain ⟨hsum, hrest⟩ := hfit
      have hlast : Size.sum start length = .ok (start + length) := if_pos hsum
      rw [tiled, hlast, Outcome.ok_bind]
      split
      · next hstart =>
        subst hstart
        refine (ih (rank + 1) (start + length) hrest ?_).bind fun found hfound => ?_
        · simp only [List.length_cons] at hn
          omega
        · obtain ⟨hlength, htold, hstop, hsmall⟩ := hfound
          refine ⟨by rw [List.length_cons, hlength], fun r => ?_, ?_, fun _ => hsmall hsum⟩
          · cases r with
            | zero => rfl
            | succ r => exact htold r
          · show found.2 = start + (length + found.1.sum)
            omega
      · trivial

variable {told : List Nat → Prop}

/-- **Agreement**, whatever is gathered: the ranges are as told, or refused. -/
theorem withstands_gather {place : Place} (hsize : 2 * place.size < Size.limit)
    (htold : ∀ all, told all → RangesFit all) (offset length global : Nat) :
    (gather place offset length global : Program S Ownership).Withstands told
      (fun o => (∃ all, told all ∧ o.As place.size all) ∧ o.globalSize = global ∧
        global < Size.limit) 1 := by
  refine .allGather_bind fun all hall => ?_
  have hproduct : Size.product [2, place.size] = .ok (2 * place.size) :=
    Size.product_eq_ok_iff.2 (by simp [Size.InRange, hsize])
  refine .orderly_bind (Outcome.orderly_of_eq_ok hproduct) fun expected hexpected => ?_
  obtain rfl : 2 * place.size = expected := Outcome.ok.inj (hproduct.symm.trans hexpected)
  refine .orderly_bind (Outcome.orderly_sameLength _ _ _) fun _ hlength => ?_
  refine .lift_bind (tiled_ends 0 0 (htold all hall) (Outcome.require_eq_ok_iff.1 hlength).symm) ?_
  rintro ⟨lengths, stop⟩ ⟨hranks, hlengths, hstop, hsmall⟩
  refine .orderly_bind (Outcome.orderly_require fun _ _ => by simp) fun _ hcover => ?_
  obtain rfl : stop = global := Outcome.require_eq_ok_iff.1 hcover
  refine .done ⟨⟨all, hall, hranks, fun r hr => ?_⟩, ?_, hsmall (by decide)⟩
  · have hin : r < (⟨lengths⟩ : Ownership).numRanks := by rwa [← hranks] at hr
    rw [length_range_eq _ hin, ← hlengths r]
    exact List.getElem?_eq_getElem hin
  · exact (hstop.trans (Nat.zero_add _)).symm

theorem rangeAt_of_lt {o : Ownership} {r : Nat} (h : r < o.numRanks) :
    o.rangeAt r = .ok (o.range r) :=
  if_pos h

theorem orderly_countsPerOwner {o : Ownership} (h : 0 < o.numRanks) (indices : List Nat) :
    (o.countsPerOwner indices).Orderly := by
  refine (Outcome.orderly_mapM fun g _ => ?_).bind fun _ _ => Outcome.orderly_ok _
  exact Outcome.orderly_of_eq_ok (owner_eq h g)

end Ownership

/-! ## Exchanges -/

namespace Exchange

variable {told : List Nat → Prop} {place : Place} {o : Ownership}

/-- **Pulling**: as many values as were wanted. -/
theorem withstands_pull (h : place.rank < o.numRanks) (owned : List S) (wanted : List Nat) :
    (pull place o owned wanted).Withstands told (fun values => values.length = wanted.length) 2 := by
  unfold pull
  rw [Ownership.rangeAt_of_lt h]
  refine .orderly_bind (Outcome.orderly_ok _) fun mine _ => ?_
  refine .orderly_bind (Outcome.orderly_sameLength _ _ _) fun _ hlength => ?_
  have hlookup : ∀ asked : List Nat, (asked.mapM (lookup mine owned)).Orderly := fun asked =>
    Outcome.orderly_mapM fun g _ => orderly_lookup (Outcome.require_eq_ok_iff.1 hlength) g
  split
  · exact .done ((hlookup wanted).ends fun _ => Outcome.length_of_mapM)
  · refine .orderly_bind (Ownership.orderly_countsPerOwner (Nat.zero_lt_of_lt h) wanted)
      fun counts _ => ?_
    refine .allToAll_bind fun requests requestCounts => ?_
    refine .orderly_bind (hlookup requests) fun replies _ => ?_
    refine .allToAll_bind fun values _ => ?_
    refine .orderly_bind (Outcome.orderly_sameLength _ _ _) fun _ hvalues => ?_
    exact .done (Outcome.require_eq_ok_iff.1 hvalues).symm

/-- **Pushing**: as many sums as the range of the rank is long. -/
theorem withstands_push [Zero S] [Add S] (h : place.rank < o.numRanks) (indices : List Nat)
    (values : List S) :
    (push place o indices values).Withstands told
      (fun sums => sums.length = (o.range place.rank).length) 2 := by
  unfold push
  rw [Ownership.rangeAt_of_lt h]
  refine .orderly_bind (Outcome.orderly_sameLength _ _ _) fun _ _ => ?_
  refine .orderly_bind (Outcome.orderly_ok _) fun mine hmine => ?_
  obtain rfl := Outcome.ok.inj hmine
  have hadd : ∀ contributions : List (Nat × S), (contributions.foldlM
      (addOwned (o.range place.rank)) (List.replicate (o.range place.rank).length 0)).Ends
        fun sums => sums.length = (o.range place.rank).length := fun contributions =>
    (Outcome.orderly_foldlM (orderly_addOwned _) _ _).ends fun _ h =>
      (length_of_foldlM_addOwned h).trans List.length_replicate
  dsimp only
  split
  · exact .done (hadd _)
  · refine .orderly_bind (Ownership.orderly_countsPerOwner (Nat.zero_lt_of_lt h) indices)
      fun counts _ => ?_
    refine .allToAll_bind fun got _ => .allToAll_bind fun gotValues _ => ?_
    refine .orderly_bind (Outcome.orderly_sameLength _ _ _) fun _ _ => ?_
    exact .done (hadd _)

/-- **Routing**. -/
theorem withstands_toRowOwners (h : place.rank < o.numRanks) (triplets : List (Triplet S)) :
    (toRowOwners place o triplets).Withstands told (fun _ => True) 2 := by
  unfold toRowOwners
  split
  · exact .done trivial
  · refine .orderly_bind (Ownership.orderly_countsPerOwner (Nat.zero_lt_of_lt h) _)
      fun counts _ => ?_
    refine .allToAll_bind fun indices _ => .allToAll_bind fun values _ => ?_
    refine .orderly_bind (Outcome.orderly_require fun _ _ => by simp) fun _ _ => ?_
    exact .done trivial

/-- **Products**: two lengths are compared, ranges are gathered, the owners are asked for the values
    wanted, and what is computed from these has as many entries as the vector that gets it. -/
theorem withstands_product (hrank : place.rank < place.size) (hsize : 2 * place.size < Size.limit)
    {what what' : Quantity} {expected found offset length global : Nat} {owned : List S}
    {wanted : List Nat} {n m : Nat} (hn : wanted.length = n) {product : Vector S n → Vector α m}
    {into : Array α} :
    ((liftM (Outcome.sameLength what expected found) : Program S Unit) >>= fun _ =>
      (liftM (Outcome.sameLength what' m into.size) : Program S Unit) >>= fun _ =>
        Ownership.gather place offset length global >>= fun ranges =>
          pull place ranges owned wanted >>= fun values =>
            (liftM (Outcome.exactly n values) : Program S (Vector S n)) >>= fun x =>
              .done (.ok (product x).toArray)).Withstands RangesFit
      (fun y => y.size = into.size) 3 := by
  refine .orderly_bind (Outcome.orderly_sameLength _ _ _) fun _ _ => ?_
  refine .orderly_bind (Outcome.orderly_sameLength _ _ _) fun _ hinto => ?_
  refine .bind (Ownership.withstands_gather hsize (fun _ h => h) _ _ _) (k := 2)
    fun ranges hranges => ?_
  obtain ⟨⟨_, _, has⟩, -, -⟩ := hranges
  have hin : place.rank < ranges.numRanks := by rwa [has.numRanks_eq]
  refine .bind (withstands_pull hin _ _) (k := 0) fun values hvalues => ?_
  refine .orderly_bind (Outcome.orderly_exactly (hvalues.trans hn)) fun x _ => ?_
  exact .done ((Vector.size_toArray _).trans (Outcome.require_eq_ok_iff.1 hinto))

end Exchange

/-! ## Products -/

theorem RowBlock.withstands_mulVec [Zero S] [Add S] [Mul S] {place : Place}
    (hrank : place.rank < place.size) (hsize : 2 * place.size < Size.limit) (A : RowBlock S)
    (x into : Array S) :
    (A.mulVec place x into).Withstands RangesFit (fun y => y.size = into.size) 3 :=
  Exchange.withstands_product hrank hsize (List.length_map _)

namespace TrueDofs

variable {place : Place} {l : Nat}

theorem withstands_prolong [Zero S] [Add S] [Mul S] (hrank : place.rank < place.size)
    (hsize : 2 * place.size < Size.limit) (link : TrueDofs S l) (t into : Array S) :
    (link.prolong place t into).Withstands RangesFit (fun v => v.size = into.size) 3 :=
  Exchange.withstands_product hrank hsize (List.length_map _)

theorem withstands_dependents [Zero S] [One S] [BEq S] (hrank : place.rank < place.size)
    (hsize : 2 * place.size < Size.limit) (link : TrueDofs S l) (t into : Array Bool) :
    (link.dependents place t into).Withstands RangesFit (fun v => v.size = into.size) 3 :=
  Exchange.withstands_product hrank hsize (List.length_map _)

/-- The congruence keeps the rows of the rank, whatever it is told to own. -/
theorem withstands_congruence [Add S] [Mul S] (hrank : place.rank < place.size)
    (hsize : 2 * place.size < Size.limit) (link : TrueDofs S l) {c : Nat} (H : Csr S c c) :
    (link.congruence place H).Withstands RangesFit (fun A => A.globalSize = link.numGlobal ∧
      A.offset = link.offset ∧ A.rows = link.numOwned) 3 := by
  unfold congruence
  split
  · next hc =>
    subst hc
    refine .orderly_bind (Outcome.orderly_of_eq_ok (link.expand_eq H)) fun triplets _ => ?_
    refine .bind (Ownership.withstands_gather hsize (fun _ h => h) _ _ _) (k := 2)
      fun ranges hranges => ?_
    obtain ⟨⟨_, _, has⟩, -, hsmall⟩ := hranges
    have hin : place.rank < ranges.numRanks := by rwa [has.numRanks_eq]
    refine .bind (Exchange.withstands_toRowOwners hin _) (k := 0) fun received _ => ?_
    refine .orderly_bind (Outcome.orderly_of_eq_ok (Ownership.rangeAt_of_lt hin)) fun mine _ => ?_
    have hentry : ∀ t : Triplet S, (ownedEntry mine t).Orderly := by
      intro t
      unfold ownedEntry
      split
      · exact Outcome.orderly_ok _
      · exact fun _ _ => by simp
    refine .orderly_bind (Outcome.orderly_mapM fun t _ => hentry t) fun owned _ => ?_
    refine .orderly_bind (Csr.orderly_ofTriplets _ _ _) fun rows _ => ?_
    rw [link.ofRows_eq rows hsmall]
    exact .done ⟨rfl, rfl, rfl⟩
  · exact .done trivial

section Transposed

variable [Zero S] [Add S] [Mul S]

/-- The sums that the rank puts together for the range it is told to own. -/
def pushed (link : TrueDofs S l) (place : Place) (v : Vector S l) : Program S (List S) := do
  let ranges ← link.ranges place
  Exchange.push place ranges link.columns (link.prolongation.compressed.mulVecTranspose v).toList

/-- They are as many as the rank is told to own. -/
theorem withstands_pushed {told : List Nat → Prop} (hrank : place.rank < place.size)
    (hsize : 2 * place.size < Size.limit) (htold : ∀ all, told all → RangesFit all)
    (link : TrueDofs S l) (v : Vector S l) :
    (link.pushed place v).Withstands told
      (fun sums => ∃ all, told all ∧ toldLength all place.rank = some sums.length) 3 := by
  refine .bind (Ownership.withstands_gather hsize htold _ _ _) (k := 2) fun ranges hranges => ?_
  obtain ⟨⟨all, hall, has⟩, -, -⟩ := hranges
  have hin : place.rank < ranges.numRanks := by rwa [has.numRanks_eq]
  refine (Exchange.withstands_push hin _ _).imp fun sums hsums => ⟨all, hall, ?_⟩
  rw [hsums]
  exact has.length_eq place.rank hrank

/-- A rank that is told its own length fills its part. -/
theorem withstands_prolongTranspose (hrank : place.rank < place.size)
    (hsize : 2 * place.size < Size.limit) (link : TrueDofs S l) (v into : Array S) :
    (link.prolongTranspose place v into).Withstands
      (fun all => RangesFit all ∧ toldLength all place.rank = some link.numOwned)
      (fun y => y.size = into.size) 3 := by
  refine .orderly_bind (Outcome.orderly_sized _ _ _) fun v _ => ?_
  refine .orderly_bind (Outcome.orderly_sameLength _ _ _) fun _ hinto => ?_
  rw [← Program.bind_assoc]
  refine .bind (link.withstands_pushed hrank hsize (fun _ h => h.1) v) (k := 0) ?_
  rintro sums ⟨all, ⟨-, htold⟩, hlength⟩
  have hnumber : sums.length = link.numOwned := Option.some.inj (hlength.symm.trans htold)
  refine .orderly_bind (Outcome.orderly_exactly hnumber) fun owned _ => ?_
  exact .done ((Vector.size_toArray _).trans (Outcome.require_eq_ok_iff.1 hinto))

/-- The sums, if they are as many as the rank owns. -/
def taken (link : TrueDofs S l) (sums : List S) : Outcome (Array S) := do
  let owned ← Outcome.exactly link.numOwned sums
  return owned.toArray

omit [Zero S] [Add S] [Mul S] in
theorem taken_eq_abort_iff (link : TrueDofs S l) (sums : List S) :
    link.taken sums = .abort ↔ sums.length ≠ link.numOwned := by
  unfold taken Outcome.exactly
  split
  · next h => simp [h]
  · next h => simp [h]

theorem prolongTranspose_eq (link : TrueDofs S l) (place : Place) (v : Vector S l)
    {into : Array S} (h : into.size = link.numOwned) :
    link.prolongTranspose place v.toArray into =
      link.pushed place v >>= fun sums => .done (link.taken sums) := by
  have hinto : Outcome.sameLength .ownedTrueVector link.numOwned into.size = .ok () :=
    Outcome.require_eq_ok_iff.2 h.symm
  rw [prolongTranspose, Outcome.sized_toArray]
  simp only [Program.liftM_eq, Program.done_ok_bind, hinto, pushed, Program.bind_assoc]
  refine congrArg _ (funext fun ranges => congrArg _ (funext fun sums => ?_))
  unfold taken
  cases Outcome.exactly link.numOwned sums with
  | ok owned => rfl
  | fault why => rfl
  | abort => rfl

/-- **The crux**: the transposed product aborts exactly where sums were put together that are not as
    many as the rank owns. -/
theorem prolongTranspose_aborts_iff (hrank : place.rank < place.size)
    (hsize : 2 * place.size < Size.limit) (link : TrueDofs S l) (v : Vector S l) {into : Array S}
    (h : into.size = link.numOwned) {replies : List (Reply S)} (hreplies : 3 ≤ replies.length)
    (htold : Program.GatheredAs RangesFit
      ((link.prolongTranspose place v.toArray into).runScripted replies).calls replies) :
    ((link.prolongTranspose place v.toArray into).runScripted replies).outcome = .abort ↔
      ∃ sums, ((link.pushed place v).runScripted replies).outcome = .ok sums ∧
        sums.length ≠ link.numOwned := by
  rw [link.prolongTranspose_eq place v h, Program.runScripted_bind_done] at htold ⊢
  have hends := (link.withstands_pushed hrank hsize (fun _ h => h) v).run hreplies htold
  dsimp only
  generalize ((link.pushed place v).runScripted replies).outcome = pushed at hends ⊢
  cases pushed with
  | ok sums =>
    rw [Outcome.ok_bind, taken_eq_abort_iff]
    exact ⟨fun hne => ⟨sums, rfl, hne⟩, fun ⟨_, heq, hne⟩ => Outcome.ok.inj heq ▸ hne⟩
  | fault why => simp
  | abort => exact hends.elim

end Transposed

end TrueDofs

/-! ## The result -/

/-- Three replies are enough for an end of this kind, whatever they are, as far as gathered indices
    are as `told` says. -/
def Program.Answered (told : List Nat → Prop) (good : Outcome α → Prop) (p : Program S α) : Prop :=
  ∀ replies : List (Reply S), 3 ≤ replies.length →
    Program.GatheredAs told (p.runScripted replies).calls replies →
      good (p.runScripted replies).outcome

namespace Program.Withstands

variable {told : List Nat → Prop} {k : Nat}

theorem answered {post : α → Prop} {p : Program S α} (h : p.Withstands told post k) (hk : k ≤ 3) :
    p.Answered told (Outcome.Ends post) :=
  fun _ hreplies htold => h.run (le_trans hk hreplies) htold

theorem answered_fills {into : Array α} {p : Program S (Array α)}
    (h : p.Withstands told (fun v => v.size = into.size) k) (hk : k ≤ 3) :
    p.Answered told (Outcome.Fills into) :=
  fun _ hreplies htold => (h.run (le_trans hk hreplies) htold).fills

end Program.Withstands

/-- **The result**: a rank among others that may send anything, only that the gathered ranges stay
    in range.  Gathering ranges, and pulling, pushing and routing on ranges of that many ranks, end
    with what they promise or with a refusal, and so do the products with links and row blocks and
    the congruence; what a product is to fill stays as it is where it is refused.

    The transposed product is the exception: it does so if the rank is told the length that it owns,
    and in general it aborts exactly where it put together another number of sums. -/
theorem replies_used_or_refused [Zero S] [One S] [Add S] [Mul S] [BEq S] {place : Place}
    (hrank : place.rank < place.size) (hsize : 2 * place.size < Size.limit) :
    (∀ offset length global,
      (Ownership.gather place offset length global : Program S Ownership).Answered RangesFit
        (Outcome.Ends fun o => o.numRanks = place.size ∧ o.globalSize = global)) ∧
    (∀ o : Ownership, o.numRanks = place.size →
      (∀ (owned : List S) wanted, (Exchange.pull place o owned wanted).Answered RangesFit
        (Outcome.Ends fun values => values.length = wanted.length)) ∧
      (∀ indices (values : List S), (Exchange.push place o indices values).Answered RangesFit
        (Outcome.Ends fun sums => sums.length = (o.range place.rank).length)) ∧
      ∀ triplets : List (Triplet S), (Exchange.toRowOwners place o triplets).Answered RangesFit
        (Outcome.Ends fun _ => True)) ∧
    (∀ l (link : TrueDofs S l),
      (∀ t into, (link.prolong place t into).Answered RangesFit (Outcome.Fills into)) ∧
      (∀ t into, (link.dependents place t into).Answered RangesFit (Outcome.Fills into)) ∧
      (∀ c (H : Csr S c c), (link.congruence place H).Answered RangesFit
        (Outcome.Ends fun A => A.globalSize = link.numGlobal ∧ A.offset = link.offset ∧
          A.rows = link.numOwned)) ∧
      (∀ v into, (link.prolongTranspose place v into).Answered
        (fun all => RangesFit all ∧ toldLength all place.rank = some link.numOwned)
        (Outcome.Fills into)) ∧
      ∀ (v : Vector S l) (into : Array S), into.size = link.numOwned → ∀ replies : List (Reply S),
        3 ≤ replies.length → Program.GatheredAs RangesFit
          ((link.prolongTranspose place v.toArray into).runScripted replies).calls replies →
        (((link.prolongTranspose place v.toArray into).runScripted replies).outcome = .abort ↔
          ∃ sums, ((link.pushed place v).runScripted replies).outcome = .ok sums ∧
            sums.length ≠ link.numOwned)) ∧
    ∀ (A : RowBlock S) x into, (A.mulVec place x into).Answered RangesFit (Outcome.Fills into) := by
  refine ⟨fun offset length global => ?_, fun o ho => ⟨fun owned wanted => ?_,
    fun indices values => ?_, fun triplets => ?_⟩, fun l link => ⟨fun t into => ?_,
    fun t into => ?_, fun c H => ?_, fun v into => ?_, fun v into hinto replies hreplies htold => ?_⟩,
    fun A x into => ?_⟩
  · exact ((Ownership.withstands_gather hsize (fun _ h => h) _ _ _).imp
      fun o ⟨⟨_, _, has⟩, hglobal, _⟩ => ⟨has.numRanks_eq, hglobal⟩).answered (by decide)
  · exact (Exchange.withstands_pull (by rwa [ho]) _ _).answered (by decide)
  · exact (Exchange.withstands_push (by rwa [ho]) _ _).answered (by decide)
  · exact (Exchange.withstands_toRowOwners (by rwa [ho]) _).answered (by decide)
  · exact (link.withstands_prolong hrank hsize t into).answered_fills le_rfl
  · exact (link.withstands_dependents hrank hsize t into).answered_fills le_rfl
  · exact (link.withstands_congruence hrank hsize H).answered le_rfl
  · exact (link.withstands_prolongTranspose hrank hsize v into).answered_fills le_rfl
  · exact link.prolongTranspose_aborts_iff hrank hsize v hinto hreplies htold
  · exact (A.withstands_mulVec hrank hsize x into).answered_fills le_rfl

/-! ### A rank that is told another length -/

/-- What the first of two ranks is told when they share an index: here, that the second one owns
    it. -/
def othersOwn : List (Reply Int) := [⟨[0, 0, 0, 1], [], []⟩, ⟨[], [], [0, 0]⟩, ⟨[], [], [0, 0]⟩]

/-- So it is for the first rank of `sharedLink`, which owns the index: whatever it is told, it
    multiplies or refuses to; but told that it owns nothing, it puts no sums together, and the
    transposed product aborts. -/
theorem replies_used_or_refused_shared :
    ((TrueDofs.sharedLink 0).prolong ⟨0, 2⟩ #[7] #[0]).Answered RangesFit (Outcome.Fills #[0]) ∧
      (((TrueDofs.sharedLink 0).prolongTranspose ⟨0, 2⟩ #[3] #[0]).runScripted othersOwn).outcome =
        .abort := by
  obtain ⟨-, -, hlinks, -⟩ := replies_used_or_refused (S := Int)
    (show (⟨0, 2⟩ : Place).rank < (⟨0, 2⟩ : Place).size by decide) (by decide)
  obtain ⟨hprolong, -, -, -, haborts⟩ := hlinks 1 (TrueDofs.sharedLink 0)
  have hfit : ∀ reply ∈ othersOwn, RangesFit reply.indices := by
    simp [othersOwn, RangesFit, Size.limit]
  have hpushed : (((TrueDofs.sharedLink 0).pushed ⟨0, 2⟩ #v[3]).runScripted othersOwn).outcome =
      .ok [] := by
    decide +kernel
  refine ⟨hprolong #[7] #[0], ?_⟩
  exact (haborts #v[3] #[0] rfl othersOwn (by decide) (.of_forall hfit _)).2
    ⟨[], hpushed, by decide⟩

end Condensation
