/-
  Collective — all ranks come to their end together.

  1. **Together** — a family of programs, one for each rank, ends well with one value for each.  A
     family that has ended does so, and one that makes the same call everywhere does so just if
     the family of what comes after the call does.  No rank of such a family stops on its own
     (`of_lift_bind`), and all of them are at one point (`same_call`).

  2. **Sequences** — programs that end together may be left out in front of what follows them
     (`bind_iff`), and they do end together when only computations follow (`of_bind_ended`).

  3. **Buckets** — data that are sent bucket by bucket are cut into these buckets again, so each
     rank gets from every other one the bucket that was meant for it (`delivered_ofFn`), be it of
     indices or of scalars (`exchange_of_parts`).
-/
import Condensation.Ranks.Run
import Mathlib.Algebra.Group.Defs
import Mathlib.Data.List.OfFn

namespace Condensation

variable {S α : Type} {n : Nat}

open Program

/-! ## Calls -/

namespace Program

@[simp] theorem asExchange?_exchange (wire : Wire) (send : List (wire.Datum S)) (counts : List Nat)
    (next : List (wire.Datum S) → List Nat → Program S α) :
    asExchange? wire (exchange wire send counts next) = some ((send, counts), next) := by
  cases wire <;> rfl

@[simp] theorem asExchange?_done (wire : Wire) (o : Outcome α) :
    asExchange? wire (done o : Program S α) = none := by
  cases wire <;> rfl

/-- A call that gathers is recognized, -/
theorem asGather?_eq_some {p : Program S α} {call : List Nat × (List Nat → Program S α)}
    (h : asGather? p = some call) : p = .gather call.1 call.2 := by
  cases p with
  | gather mine next => rw [← Option.some.inj h]
  | done | exchange => simp [asGather?] at h

/-- and so is an exchange of such entries. -/
theorem asExchange?_eq_some {wire : Wire} {p : Program S α}
    {call : (List (wire.Datum S) × List Nat) × (List (wire.Datum S) → List Nat → Program S α)}
    (h : asExchange? wire p = some call) : p = .exchange wire call.1.1 call.1.2 call.2 := by
  unfold asExchange? at h
  split at h
  · exact congrArg (fun call => exchange .indices call.1.1 call.1.2 call.2) (Option.some.inj h)
  · exact congrArg (fun call => exchange .values call.1.1 call.1.2 call.2) (Option.some.inj h)
  · simp at h

end Program

/-! ## Together -/

/-- All ranks end well, rank `r` with `a r`. -/
def Together (p : Fin n → Program S α) (a : Fin n → α) : Prop :=
  runTogether (List.ofFn p) = List.ofFn fun r => some (.ok (a r))

namespace Together

/-- Ranks that have ended well, -/
theorem done (a : Fin n → α) : Together (fun r => (Program.done (.ok (a r)) : Program S α)) a := by
  unfold Together
  cases n with
  | zero => rfl
  | succ n =>
    rw [List.ofFn_succ, List.ofFn_succ, runTogether, runFirst, List.map_ofFn]
    rfl

/-- Making one call in all programs of a list. -/
theorem mapM_ofFn {β γ : Type} {g : β → Option γ} {p : Fin n → β} {c : Fin n → γ}
    (h : ∀ r, g (p r) = some (c r)) : (List.ofFn p).mapM g = some (List.ofFn c) := by
  induction n with
  | zero => rfl
  | succ n ih =>
    rw [List.ofFn_succ, List.mapM_cons, h 0, ih fun r => h r.succ, List.ofFn_succ]
    rfl

/-- Everyone gathers, and goes on with what all have given. -/
theorem runTogether_gather (mine : Fin n → List Nat) (next : Fin n → List Nat → Program S α) :
    runTogether (List.ofFn fun r => Program.gather (mine r) (next r)) =
      runTogether (List.ofFn fun r => next r (List.ofFn mine).flatten) := by
  cases n with
  | zero => rfl
  | succ n =>
    have calls : (List.ofFn fun r : Fin n => Program.gather (mine r.succ) (next r.succ)).mapM
        asGather? = some (List.ofFn fun r => (mine r.succ, next r.succ)) :=
      mapM_ofFn fun r => rfl
    have all : mine 0 ++ (List.ofFn fun r => (mine r.succ, next r.succ)).flatMap (·.1) =
        (List.ofFn mine).flatten := by
      rw [List.ofFn_succ, List.flatten_cons, List.flatMap, List.map_ofFn]
      rfl
    rw [List.ofFn_succ, runTogether, runFirst, calls]
    simp only [all, List.map_ofFn]
    conv_rhs => rw [List.ofFn_succ, runTogether]
    rfl

/-- ranks that gather, -/
theorem gather_iff {mine : Fin n → List Nat} {next : Fin n → List Nat → Program S α}
    {a : Fin n → α} : Together (fun r => Program.gather (mine r) (next r)) a ↔
      Together (fun r => next r (List.ofFn mine).flatten) a := by
  unfold Together
  rw [runTogether_gather]

/-- and ranks that exchange buckets, each of which goes on with those that were meant for it. -/
theorem exchange_iff {wire : Wire} {send : Fin n → List (wire.Datum S)} {counts : Fin n → List Nat}
    {next : Fin n → List (wire.Datum S) → List Nat → Program S α} {a : Fin n → α} :
    Together (fun r => Program.exchange wire (send r) (counts r) (next r)) a ↔
      Together (fun r => next r
        (delivered (List.ofFn fun s => (send s, counts s)) r).1
        (delivered (List.ofFn fun s => (send s, counts s)) r).2) a := by
  unfold Together
  cases n with
  | zero => exact Iff.rfl
  | succ n =>
    have calls : (List.ofFn fun r : Fin n =>
        Program.exchange wire (send r.succ) (counts r.succ) (next r.succ)).mapM
          (asExchange? wire) =
        some (List.ofFn fun r => ((send r.succ, counts r.succ), next r.succ)) :=
      mapM_ofFn fun r => asExchange?_exchange _ _ _ _
    have sent : (send 0, counts 0) ::
        (List.ofFn fun r => ((send r.succ, counts r.succ), next r.succ)).map (·.1) =
          List.ofFn fun s => (send s, counts s) := by
      rw [List.ofFn_succ, List.map_ofFn]
      rfl
    have later : ((List.ofFn fun r => ((send r.succ, counts r.succ), next r.succ)).mapIdx
        fun r call => call.2 (delivered (List.ofFn fun s => (send s, counts s)) (r + 1)).1
          (delivered (List.ofFn fun s => (send s, counts s)) (r + 1)).2) =
        List.ofFn fun r : Fin n => next r.succ
          (delivered (List.ofFn fun s => (send s, counts s)) r.succ).1
          (delivered (List.ofFn fun s => (send s, counts s)) r.succ).2 := by
      refine List.ext_getElem (by simp) fun r h1 h2 => ?_
      simp
    rw [List.ofFn_succ, runTogether, runFirst, calls]
    simp only [sent, later]
    conv_rhs => rw [List.ofFn_succ, runTogether]
    exact Iff.rfl

end Together

/-! ## Results -/

namespace Together

/-- All ranks have one result. -/
theorem unique {p : Fin n → Program S α} {a b : Fin n → α} (ha : Together p a)
    (hb : Together p b) : a = b := by
  have hlists : (List.ofFn fun r => some (Outcome.ok (a r))) =
      List.ofFn fun r => some (Outcome.ok (b r)) := ha.symm.trans hb
  funext r
  have := congrFun (List.ofFn_injective hlists) r
  simpa using this

/-- Ranks that all have a value came to their end together. -/
theorem exists_of_values {p : Fin n → Program S α} (hlength : (runTogether (List.ofFn p)).length = n)
    (h : ((runTogether (List.ofFn p)).all fun o => match o with
      | some (.ok _) => true
      | _ => false) = true) :
    ∃ a, Together p a := by
  have hvalues : ∀ r : Fin n, ∃ a, (runTogether (List.ofFn p))[r.val]? = some (some (.ok a)) := by
    intro r
    have hr : r.val < (runTogether (List.ofFn p)).length := by omega
    have hone := List.all_eq_true.1 h _ (List.getElem_mem hr)
    rw [List.getElem?_eq_getElem hr]
    split at hone
    · next a ha => exact ⟨a, congrArg some ha⟩
    · exact absurd hone (by decide)
  choose a ha using hvalues
  refine ⟨a, List.ext_getElem? fun i => ?_⟩
  by_cases hi : i < n
  · rw [ha ⟨i, hi⟩, List.getElem?_ofFn, dif_pos hi]
  · rw [List.getElem?_eq_none (by omega), List.getElem?_eq_none (by simpa using hi)]

theorem mapM_eq_none {β γ : Type} {g : β → Option γ} {l : List β} {b : β} (hb : b ∈ l)
    (h : g b = none) : l.mapM g = none := by
  induction l with
  | nil => simp at hb
  | cons c rest ih =>
    rw [List.mapM_cons]
    rcases List.mem_cons.1 hb with rfl | hb
    · rw [h]
      rfl
    · rw [ih hb]
      cases g c <;> rfl

/-- A first rank that makes a call does not wait for another one forever: all ranks make it. -/
theorem answered {γ : Type} (call : Program S α → Option γ) {p : Fin (n + 1) → Program S α}
    {a : Fin (n + 1) → α} (h : Together p a) (hfirst : ∃ c, call (p 0) = some c)
    (hwait : ∀ rest, rest.mapM call = none → (p 0).runFirst rest = none :: rest.map result?) :
    ∀ r, ∃ c, call (p r) = some c := by
  intro r
  cases r using Fin.cases with
  | zero => exact hfirst
  | succ r =>
    cases hr : call (p r.succ) with
    | some c => exact ⟨c, rfl⟩
    | none =>
      have hmem : p r.succ ∈ List.ofFn fun r => p r.succ := (List.mem_ofFn' _ _).2 ⟨r, rfl⟩
      unfold Together at h
      rw [List.ofFn_succ, List.ofFn_succ, runTogether, hwait _ (mapM_eq_none hmem hr)] at h
      simp at h

/-- Where the first rank gathers, all ranks do. -/
theorem all_gather {p : Fin (n + 1) → Program S α} {a : Fin (n + 1) → α} (h : Together p a)
    {mine : List Nat} {next : List Nat → Program S α} (hfirst : p 0 = .gather mine next)
    (r : Fin (n + 1)) : ∃ mine next, p r = .gather mine next := by
  obtain ⟨call, hcall⟩ := h.answered asGather? ⟨_, by rw [hfirst]; rfl⟩
    (fun rest hnone => by rw [hfirst, runFirst, hnone]) r
  exact ⟨_, _, asGather?_eq_some hcall⟩

/-- Where it exchanges buckets, all ranks exchange buckets with such entries. -/
theorem all_exchange {p : Fin (n + 1) → Program S α} {a : Fin (n + 1) → α} (h : Together p a)
    {wire : Wire} {send : List (wire.Datum S)} {counts : List Nat}
    {next : List (wire.Datum S) → List Nat → Program S α}
    (hfirst : p 0 = .exchange wire send counts next) (r : Fin (n + 1)) :
    ∃ send counts next, p r = .exchange wire send counts next := by
  obtain ⟨call, hcall⟩ := h.answered (asExchange? wire) ⟨_, by rw [hfirst, asExchange?_exchange]⟩
    (fun rest hnone => by rw [hfirst, runFirst, hnone]) r
  exact ⟨_, _, _, asExchange?_eq_some hcall⟩

/-- Where one rank has ended, all have. -/
theorem ended {p : Fin n → Program S α} {a : Fin n → α} (h : Together p a) {q : Fin n}
    {o : Outcome α} (hq : p q = .done o) (r : Fin n) : p r = .done (.ok (a r)) := by
  cases n with
  | zero => exact r.elim0
  | succ n =>
    -- the first rank makes no call, since rank `q` does not
    obtain ⟨first, hfirst⟩ : ∃ first, p 0 = .done first := by
      cases hfirst : p 0 with
      | done first => exact ⟨first, rfl⟩
      | gather mine next =>
        obtain ⟨_, _, hcall⟩ := h.all_gather hfirst q
        simp [hq] at hcall
      | exchange wire send counts next =>
        obtain ⟨_, _, _, hcall⟩ := h.all_exchange hfirst q
        simp [hq] at hcall
    unfold Together at h
    rw [List.ofFn_succ, List.ofFn_succ, runTogether, hfirst, runFirst, List.map_ofFn] at h
    obtain ⟨hzero, hresults⟩ := List.cons.inj h
    cases r using Fin.cases with
    | zero => rw [hfirst, Option.some.inj hzero]
    | succ r =>
      have hresult := congrFun (List.ofFn_injective hresults) r
      rw [Function.comp_apply] at hresult
      cases hr : p r.succ with
      | done o =>
        rw [hr] at hresult
        rw [Option.some.inj hresult]
      | gather | exchange => simp [hr, result?] at hresult

/-- A rank that has ended keeps its result. -/
theorem of_done {p : Fin n → Program S α} {a : Fin n → α} (h : Together p a) {r : Fin n}
    {o : Outcome α} (hr : p r = .done o) : o = .ok (a r) :=
  Program.done.inj (hr.symm.trans (h.ended hr r))

/-- Where all ranks start with a computation of their own, it succeeds on all of them. -/
theorem of_lift_bind {β : Fin n → Type} {o : ∀ r, Outcome (β r)} {k : ∀ r, β r → Program S α}
    {a : Fin n → α} (h : Together (fun r => (liftM (o r) : Program S (β r)) >>= k r) a) :
    ∃ b : ∀ r, β r, (∀ r, o r = .ok (b r)) ∧ Together (fun r => k r (b r)) a := by
  have hvalues : ∀ r, ∃ b, o r = .ok b := by
    intro r
    cases hr : o r with
    | ok b => exact ⟨b, rfl⟩
    | fault why =>
      have hend : (liftM (o r) : Program S (β r)) >>= k r = .done (.fault why) := by simp [hr]
      exact absurd (of_done h hend) (by simp)
    | abort =>
      have hend : (liftM (o r) : Program S (β r)) >>= k r = .done .abort := by simp [hr]
      exact absurd (of_done h hend) (by simp)
  choose b hb using hvalues
  refine ⟨b, hb, ?_⟩
  simpa only [hb, Program.liftM_eq, Program.done_ok_bind] using h

/-- The ranks of a family that ends well are all at one point: they have ended, or they make the
    same call. -/
theorem same_call {p : Fin (n + 1) → Program S α} {a : Fin (n + 1) → α} (h : Together p a) :
    (∀ r, p r = .done (.ok (a r))) ∨
      (∃ (mine : Fin (n + 1) → List Nat) (next : Fin (n + 1) → List Nat → Program S α),
        p = fun r => .gather (mine r) (next r)) ∨
      ∃ (wire : Wire) (send : Fin (n + 1) → List (wire.Datum S)) (counts : Fin (n + 1) → List Nat)
        (next : Fin (n + 1) → List (wire.Datum S) → List Nat → Program S α),
        p = fun r => .exchange wire (send r) (counts r) (next r) := by
  cases hfirst : p 0 with
  | done first => exact .inl fun r => h.ended hfirst r
  | gather mine next =>
    choose mine next hcall using h.all_gather hfirst
    exact .inr (.inl ⟨mine, next, funext hcall⟩)
  | exchange wire send counts next =>
    choose send counts next hcall using h.all_exchange hfirst
    exact .inr (.inr ⟨wire, send, counts, next, funext hcall⟩)

end Together

/-! ## Sequences -/

namespace Program

variable {β : Type}

/-- A program that goes on with nothing is the program. -/
theorem bind_done (p : Program S α) : (p >>= fun a => Program.done (.ok a)) = p := by
  induction p with
  | done o => cases o <;> rfl
  | gather mine next ih => exact congrArg (Program.gather mine) (funext ih)
  | exchange wire send counts next ih =>
    exact congrArg (Program.exchange wire send counts) (funext fun got => funext (ih got))

theorem bind_assoc {γ : Type} (p : Program S α) (f : α → Program S β) (f' : β → Program S γ) :
    (p >>= f) >>= f' = p >>= fun a => f a >>= f' := by
  induction p with
  | done o => cases o <;> rfl
  | gather mine next ih => exact congrArg (Program.gather mine) (funext ih)
  | exchange wire send counts next ih =>
    exact congrArg (Program.exchange wire send counts) (funext fun got => funext (ih got))

/-- Two computations in a row are one. -/
theorem done_bind_done (o : Outcome β) (f : β → Outcome α) :
    (done o >>= fun b => done (f b) : Program S α) = done (o >>= f) := by
  cases o <;> rfl

/-- What a sequence that has ended says about its parts. -/
theorem bind_eq_done_iff {p : Program S β} {f : β → Program S α} {a : α} :
    p >>= f = .done (.ok a) ↔ ∃ b, p = .done (.ok b) ∧ f b = .done (.ok a) := by
  cases p with
  | done o => cases o <;> simp
  | gather | exchange => simp

/-- What follows makes no call, so a call is made before. -/
theorem gather_of_bind_ended {p : Program S β} {f : β → Outcome α} {mine : List Nat}
    {next : List Nat → Program S α} (h : p >>= (fun b => Program.done (f b)) = gather mine next) :
    ∃ mine next, p = gather mine next := by
  cases p with
  | gather mine next => exact ⟨mine, next, rfl⟩
  | done o => cases o <;> simp at h
  | exchange => simp at h

theorem exchange_of_bind_ended {p : Program S β} {f : β → Outcome α} {wire : Wire}
    {send : List (wire.Datum S)} {counts : List Nat}
    {next : List (wire.Datum S) → List Nat → Program S α}
    (h : p >>= (fun b => Program.done (f b)) = exchange wire send counts next) :
    ∃ send counts next, p = exchange wire send counts next := by
  cases p with
  | exchange wire' send' counts' next' =>
    obtain rfl : wire' = wire := (Program.exchange.inj h).1
    exact ⟨send', counts', next', rfl⟩
  | done o => cases o <;> simp at h
  | gather => simp at h

end Program

namespace Together

variable {β : Type}

/-- Programs that are followed by nothing end where their continuations end. -/
theorem of_bind_done {p : Fin n → Program S α} {a : Fin n → α}
    (h : Together (fun r => p r >>= fun b => Program.done (.ok b)) a) : Together p a := by
  simpa only [Program.bind_done] using h

/-- **Sequences**: after programs that end together, what follows them is left. -/
theorem bind_iff {p : Fin n → Program S β} {b : Fin n → β} (hb : Together p b)
    {k : ∀ _ : Fin n, β → Program S α} {a : Fin n → α} :
    Together (fun r => p r >>= k r) a ↔ Together (fun r => k r (b r)) a := by
  cases n with
  | zero => exact Iff.rfl
  | succ n =>
    -- the induction is on the first rank's program; the others go along with it
    generalize hfirst : p 0 = first
    induction first generalizing p with
    | done o =>
      simp only [hb.ended hfirst, Program.done_ok_bind]
    | gather mine next ih =>
      rcases hb.same_call with h | ⟨mine', next', rfl⟩ | ⟨_, _, _, _, rfl⟩
      · simp [h] at hfirst
      · obtain ⟨-, rfl⟩ := Program.gather.inj hfirst
        simp only [Program.gather_bind]
        rw [gather_iff] at hb ⊢
        exact ih _ hb rfl
      · simp at hfirst
    | exchange wire send counts next ih =>
      rcases hb.same_call with h | ⟨_, _, rfl⟩ | ⟨wire', send', counts', next', rfl⟩
      · simp [h] at hfirst
      · simp at hfirst
      · obtain ⟨rfl, -, -, hnext⟩ := Program.exchange.inj hfirst
        obtain rfl := eq_of_heq hnext
        simp only [Program.exchange_bind]
        rw [exchange_iff] at hb ⊢
        exact ih _ _ hb rfl

/-- Where every rank ends with a computation of its own, what comes before it ends together, and
    this computation succeeds on all of them. -/
theorem of_bind_ended {p : Fin n → Program S β} {f : ∀ _ : Fin n, β → Outcome α} {a : Fin n → α}
    (h : Together (fun r => p r >>= fun b => (Program.done (f r b) : Program S α)) a) :
    ∃ b, Together p b ∧ ∀ r, f r (b r) = .ok (a r) := by
  cases n with
  | zero => exact ⟨fun r => r.elim0, rfl, fun r => r.elim0⟩
  | succ n =>
    -- again the induction is on the first rank's program
    generalize hfirst : p 0 = first
    induction first generalizing p with
    | done o =>
      have hended : ∀ r, ∃ b, p r = .done (.ok b) ∧ f r b = .ok (a r) := by
        intro r
        have hzero : ∃ o', p 0 >>= (fun b => (Program.done (f 0 b) : Program S α)) = .done o' := by
          rw [hfirst]
          cases o <;> exact ⟨_, rfl⟩
        obtain ⟨o', hzero⟩ := hzero
        obtain ⟨b, hb, hf⟩ := Program.bind_eq_done_iff.1 (h.ended hzero r)
        exact ⟨b, hb, Program.done.inj hf⟩
      choose b hb hf using hended
      rw [show p = fun r => .done (.ok (b r)) from funext hb]
      exact ⟨b, Together.done b, hf⟩
    | gather mine next ih =>
      have hcalls : ∀ r, ∃ mine next, p r = .gather mine next := by
        intro r
        obtain ⟨_, _, hcall⟩ := h.all_gather (by rw [hfirst, Program.gather_bind]) r
        exact Program.gather_of_bind_ended hcall
      choose mine' next' hp using hcalls
      obtain rfl : p = fun r => .gather (mine' r) (next' r) := funext hp
      obtain ⟨-, rfl⟩ := Program.gather.inj hfirst
      simp only [Program.gather_bind, gather_iff] at h
      obtain ⟨b, hb, hf⟩ := ih _ h rfl
      exact ⟨b, gather_iff.2 hb, hf⟩
    | exchange wire send counts next ih =>
      have hcalls : ∀ r, ∃ send counts next, p r = .exchange wire send counts next := by
        intro r
        obtain ⟨_, _, _, hcall⟩ := h.all_exchange (by rw [hfirst, Program.exchange_bind]) r
        exact Program.exchange_of_bind_ended hcall
      choose send' counts' next' hp using hcalls
      obtain rfl : p = fun r => .exchange wire (send' r) (counts' r) (next' r) := funext hp
      obtain ⟨-, -, -, hnext⟩ := Program.exchange.inj hfirst
      obtain rfl := eq_of_heq hnext
      simp only [Program.exchange_bind, exchange_iff] at h
      obtain ⟨b, hb, hf⟩ := ih _ _ h rfl
      exact ⟨b, exchange_iff.2 hb, hf⟩

end Together

/-! ## Buckets -/

/-- Lists laid down one after another are cut into themselves. -/
theorem buckets_flatten {β : Type} (l : List (List β)) :
    buckets (l.map List.length) l.flatten = l := by
  induction l with
  | nil => rfl
  | cons b rest ih =>
    rw [List.map_cons, List.flatten_cons, buckets, List.take_left, List.drop_left, ih]

/-- **Buckets**: rank `r` gets the part of every rank that was meant for it. -/
theorem delivered_ofFn {β : Type} (parts : Fin n → Fin n → List β) (r : Fin n) :
    delivered (List.ofFn fun s => ((List.ofFn (parts s)).flatten,
      (List.ofFn (parts s)).map List.length)) r =
        ((List.ofFn fun s => parts s r).flatten, List.ofFn fun s => (parts s r).length) := by
  unfold delivered
  rw [List.flatMap, List.map_ofFn, List.map_ofFn]
  refine Prod.ext ?_ ?_
  · simp only [Function.comp_def, buckets_flatten]
    simp [List.getD_eq_getElem?_getD]
  · simp [Function.comp_def, List.getD_eq_getElem?_getD]

namespace Together

/-- **Exchanges**: everyone sends one part to everyone, and goes on with the parts meant for it. -/
theorem exchange_of_parts (wire : Wire) (parts : Fin n → Fin n → List (wire.Datum S))
    {send : Fin n → List (wire.Datum S)} {counts : Fin n → List Nat}
    {next : Fin n → List (wire.Datum S) → List Nat → Program S α} {a : Fin n → α}
    (hsend : ∀ r, send r = (List.ofFn (parts r)).flatten)
    (hcounts : ∀ r, counts r = (List.ofFn (parts r)).map List.length)
    (h : Together (fun r => next r (List.ofFn fun s => parts s r).flatten
      (List.ofFn fun s => (parts s r).length)) a) :
    Together (fun r => Program.exchange wire (send r) (counts r) (next r)) a := by
  refine Together.exchange_iff.2 ?_
  simp only [hsend, hcounts, delivered_ofFn]
  exact h

end Together

end Condensation
