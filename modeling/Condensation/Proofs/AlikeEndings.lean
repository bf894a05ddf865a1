/-
  Alike endings — two families of programs whose ranks all end in the same way.

  Ranks need not come to their end together: some may be refused, and then the others wait for a
  call that those will never make.  Two families are alike when every rank ends in the same way in
  both, be it with a value, with a refusal, with an abort, or never.

  1. **Starting (`of_results`)** — where the same ranks have ended in both, with the same results, it
     is enough to look at families in which no rank has.

  2. **Calls** — several ranks cannot exchange anything without making a call, whatever they hold.

  3. **Going on (`of_tiles`)** — ranks that gather their ranges find out whether these tile the space.
     Where they do not, the ranks that did not notice make a call that no one answers; so the two
     families have to be compared for ranges that tile the space only.
-/
import Condensation.Proofs.Delivery

namespace Condensation

variable {S α : Type} {n : Nat}

/-- Every rank ends in the same way in both families. -/
def Alike (p q : Fin n → Program S α) : Prop :=
  Program.runTogether (List.ofFn p) = Program.runTogether (List.ofFn q)

/-! ## Starting -/

namespace Program

/-- Where a rank has ended, all ranks stand where they are. -/
theorem runTogether_of_ended {p : Fin n → Program S α} {q : Fin n} {o : Outcome α}
    (hq : p q = .done o) :
    runTogether (List.ofFn p) = List.ofFn fun r => (p r).result? := by
  cases n with
  | zero => exact q.elim0
  | succ n =>
    rw [List.ofFn_succ, List.ofFn_succ, runTogether]
    have hrest : (List.ofFn fun r : Fin n => p r.succ).map result? =
        List.ofFn fun r => (p r.succ).result? := List.map_ofFn
    -- a first rank that makes a call waits for rank `q`
    have hwait : ∀ {γ : Type} (call : Program S α → Option γ), call (.done o) = none →
        (∃ c, call (p 0) = some c) → (List.ofFn fun r : Fin n => p r.succ).mapM call = none := by
      rintro γ call hdone ⟨c, hc⟩
      cases q using Fin.cases with
      | zero =>
        rw [hq, hdone] at hc
        cases hc
      | succ q =>
        have hmem : p q.succ ∈ List.ofFn fun r => p r.succ := (List.mem_ofFn' _ _).2 ⟨q, rfl⟩
        exact Together.mapM_eq_none hmem (by rw [hq, hdone])
    cases hfirst : p 0 with
    | done first => rw [runFirst, hrest]; rfl
    | gather mine next =>
      rw [runFirst, hwait asGather? rfl ⟨_, by rw [hfirst]; rfl⟩, hrest]
      rfl
    | exchange wire send counts next =>
      rw [runFirst, hwait (asExchange? wire) (asExchange?_done wire o)
        ⟨_, by rw [hfirst, asExchange?_exchange]⟩, hrest]
      rfl

theorem eq_done_of_result? {p : Program S α} {o : Outcome α} (h : p.result? = some o) :
    p = .done o := by
  cases p with
  | done o' => exact congrArg Program.done (Option.some.inj h)
  | gather | exchange => simp [result?] at h

end Program

namespace Alike

open Program

/-- Families that come to their end together, with the same values. -/
theorem of_together {p q : Fin n → Program S α} {a : Fin n → α} (hp : Together p a)
    (hq : Together q a) : Alike p q :=
  Eq.trans hp (Eq.symm hq)

/-- **Starting**: the same ranks have ended in both families, or no rank has in either. -/
theorem of_results {p q : Fin n → Program S α} (h : ∀ r, (p r).result? = (q r).result?)
    (hlive : (∀ r, (p r).result? = none) → Alike p q) : Alike p q := by
  by_cases hall : ∀ r, (p r).result? = none
  · exact hlive hall
  · obtain ⟨r, hr⟩ := not_forall.1 hall
    obtain ⟨o, ho⟩ := Option.ne_none_iff_exists'.1 hr
    unfold Alike
    rw [runTogether_of_ended (eq_done_of_result? ho), runTogether_of_ended
      (eq_done_of_result? ((h r).symm.trans ho))]
    simp only [h]

/-- Families that start with the same computations: where not all ranks go on, those that do stand
    at the same point in both, and where all go on the families are alike from there. -/
theorem lift_bind {β : Fin n → Type} {o : ∀ r, Outcome (β r)} {k k' : ∀ r, β r → Program S α}
    (hcalls : ∀ r b, o r = .ok b → (∃ q, ∀ c, o q ≠ .ok c) → (k r b).result? = (k' r b).result?)
    (hall : ∀ b : ∀ r, β r, (∀ r, o r = .ok (b r)) →
      Alike (fun r => k r (b r)) fun r => k' r (b r)) :
    Alike (fun r => (liftM (o r) : Program S (β r)) >>= k r)
      fun r => (liftM (o r) : Program S (β r)) >>= k' r := by
  by_cases hvalues : ∀ r, ∃ b, o r = .ok b
  · choose b hb using hvalues
    simp only [hb, liftM_eq, done_ok_bind]
    exact hall b hb
  · obtain ⟨q, hq⟩ := not_forall.1 hvalues
    refine of_results ?_ fun hnone => ?_
    · intro r
      cases hr : o r with
      | ok b => exact hcalls r b hr ⟨q, not_exists.1 hq⟩
      | fault why => rfl
      | abort => rfl
    · have hnone := hnone q
      cases hr : o q with
      | ok b => exact absurd ⟨b, hr⟩ hq
      | fault why => simp [hr, result?] at hnone
      | abort => simp [hr, result?] at hnone

end Alike

/-! ## Calls -/

/-- What follows a call does not show before it. -/
theorem Program.result?_bind {β : Type} {p : Program S β} (h : p.result? = none)
    (f : β → Program S α) : (p >>= f).result? = none := by
  cases p with
  | done o => simp [result?] at h
  | gather | exchange => rfl

theorem Ownership.countsPerOwner_returns (len : Fin n → Nat) (hn : 0 < n) (indices : List Nat) :
    ∃ counts, (tiling len).countsPerOwner indices = .ok counts := by
  have hcounts : (tiling len).countsPerOwner (indices.map id) = .ok _ :=
    countsPerOwner_eq hn id indices
  rw [List.map_id] at hcounts
  exact ⟨_, hcounts⟩

namespace Exchange

variable {len : Fin n → Nat}

/-- Ranks with others beside them ask for values, -/
theorem pull_calls (hn : n ≠ 1) {r : Fin n} {owned : List S} (howned : owned.length = len r)
    (wanted : List Nat) : (pull ⟨r, n⟩ (tiling len) owned wanted).result? = none := by
  have hlength : Outcome.sameLength .ownedValues ((tiling len).range r).length owned.length =
      .ok () := Outcome.require_eq_ok_iff.2 ((Ownership.length_range len r).trans howned.symm)
  obtain ⟨counts, hcounts⟩ := Ownership.countsPerOwner_returns len r.pos wanted
  simp only [pull, Ownership.rangeAt_tiling, hlength, if_neg hn, hcounts, Program.liftM_eq,
    Program.done_ok_bind]
  rfl

/-- send contributions, -/
theorem push_calls [Zero S] [Add S] (hn : n ≠ 1) (r : Fin n) {indices : List Nat} {values : List S}
    (hvalues : indices.length = values.length) :
    (push ⟨r, n⟩ (tiling len) indices values).result? = none := by
  have hlength : Outcome.sameLength .contributions indices.length values.length = .ok () :=
    Outcome.require_eq_ok_iff.2 hvalues
  obtain ⟨counts, hcounts⟩ := Ownership.countsPerOwner_returns len r.pos indices
  simp only [push, Ownership.rangeAt_tiling, hlength, if_neg hn, hcounts, Program.liftM_eq,
    Program.done_ok_bind]
  rfl

/-- and send matrix entries. -/
theorem toRowOwners_calls (hn : n ≠ 1) (r : Fin n) (triplets : List (Triplet S)) :
    (toRowOwners ⟨r, n⟩ (tiling len) triplets).result? = none := by
  obtain ⟨counts, hcounts⟩ := Ownership.countsPerOwner_returns len r.pos
    ((byRow triplets).map (·.row))
  rw [byRow] at hcounts
  simp only [toRowOwners, if_neg hn, hcounts, Program.liftM_eq, Program.done_ok_bind]
  rfl

end Exchange

/-! ## Going on -/

namespace Alike

open Program

/-- After the ranges were gathered, ranks that are not alone make a call, and for ranges that tile
    the space the families are alike. -/
theorem gather {len offset global : Fin n → Nat} {k k' : Fin n → Ownership → Program S α}
    (hcalls : n ≠ 1 → ∀ r, global r = (tiling len).globalSize →
      (k r (tiling len)).result? = none ∧ (k' r (tiling len)).result? = none)
    (htiles : Tiles len offset global →
      Alike (fun r => k r (tiling len)) fun r => k' r (tiling len)) :
    Alike (fun r : Fin n => Ownership.gather ⟨r, n⟩ (offset r) (len r) (global r) >>= k r)
      fun r : Fin n => Ownership.gather ⟨r, n⟩ (offset r) (len r) (global r) >>= k' r := by
  unfold Alike
  simp only [Ownership.gather_eq, gather_bind, Together.runTogether_gather]
  refine lift_bind ?_ ?_
  · rintro r o ho ⟨q, hq⟩
    have hn : n ≠ 1 := by
      rintro rfl
      obtain rfl : r = q := Subsingleton.elim _ _
      exact hq o ho
    obtain ⟨rfl, hglobal, -⟩ := Ownership.of_agreed ho
    obtain ⟨hk, hk'⟩ := hcalls hn r hglobal
    rw [hk, hk']
  · intro o ho
    obtain ⟨tiles, hsame⟩ := Ownership.tiles_of_agreed ho
    simp only [hsame]
    exact htiles tiles

/-- **Going on**: programs that start with the same computation, gather their ranges and make a call
    are alike if they come to the same end wherever all ranks go on and their ranges tile the
    space. -/
theorem of_tiles {β : Fin n → Type} {o : ∀ r, Outcome (β r)} {len offset global : Fin n → Nat}
    {k k' : ∀ r, β r → Ownership → Program S α} {p q : Fin n → Program S α}
    (hp : ∀ r : Fin n, p r = (liftM (o r) : Program S (β r)) >>= fun b =>
      Ownership.gather ⟨r, n⟩ (offset r) (len r) (global r) >>= k r b)
    (hq : ∀ r : Fin n, q r = (liftM (o r) : Program S (β r)) >>= fun b =>
      Ownership.gather ⟨r, n⟩ (offset r) (len r) (global r) >>= k' r b)
    (hcalls : n ≠ 1 → ∀ r b, o r = .ok b →
      (k r b (tiling len)).result? = none ∧ (k' r b (tiling len)).result? = none)
    (hends : (∀ r, ∃ b, o r = .ok b) → Tiles len offset global →
      ∃ a, Together p a ∧ Together q a) : Alike p q := by
  obtain rfl : p = _ := funext hp
  obtain rfl : q = _ := funext hq
  refine lift_bind ?_ ?_
  · intro r b _ _
    simp only [Ownership.gather_eq, gather_bind]
    rfl
  · intro b hb
    refine gather ?_ ?_
    · intro hn r _
      exact hcalls hn r (b r) (hb r)
    · intro tiles
      obtain ⟨a, hp, hq⟩ := hends (fun r => ⟨b r, hb r⟩) tiles
      simp only [hb, liftM_eq, done_ok_bind] at hp hq
      exact of_together (Ownership.of_gather hp).2 (Ownership.of_gather hq).2

end Alike

end Condensation
