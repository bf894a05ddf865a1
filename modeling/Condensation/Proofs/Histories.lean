/-
  Histories — what one request does to a session, and what every request keeps.

  1. **Running alone** — a run of two steps is a run of the first and then one of the second
     (`runAlone_bind`), and a step comes to its end or leaves the pending session (`alone_cases`).

  2. **One request** — `Next` lists, request by request, what a session can become when the request
     succeeds.  A request that fails leaves the session as it is; only a preparation replaces
     the list for the next one, and that in a session without a reduction (`perform_cases`).

  3. **Histories (`after_keeps`)** — what every request keeps holds after every history.
-/
import Condensation.History

namespace Condensation

variable {S : Type}

/-! ## Running alone -/

namespace Program

variable {α β : Type}

@[simp] theorem runAlone_done (o : Outcome α) : (done o : Program S α).runAlone = o := rfl

/-- A run of two steps is a run of the first and then one of the second. -/
theorem runAlone_bind (p : Program S α) (f : α → Program S β) :
    (p >>= f).runAlone = p.runAlone >>= fun a => (f a).runAlone := by
  induction p with
  | done o => cases o <;> rfl
  | gather mine next ih => exact ih mine
  | exchange wire send counts next ih =>
    simp only [exchange_bind, runAlone]
    split
    · exact ih _ _
    · rfl

/-- A run whose last step is a return. -/
theorem runAlone_return {p : Program S α} {f : α → β} {b : β} :
    (p >>= fun a => pure (f a)).runAlone = .ok b ↔ ∃ a, p.runAlone = .ok a ∧ f a = b := by
  rw [runAlone_bind, Outcome.bind_eq_ok_iff]
  constructor
  · rintro ⟨a, hrun, hresult⟩
    exact ⟨a, hrun, Outcome.ok.inj hresult⟩
  · rintro ⟨a, hrun, rfl⟩
    exact ⟨a, hrun, rfl⟩

end Program

namespace Step

variable {α β : Type}

theorem alone_of_ok {step : Step S α} {session : Session S} {a : α}
    (h : step.rest.runAlone = .ok (session, a)) : step.alone = (session, .ok a) := by
  rw [alone, h]

/-- A step comes to its end, or the pending session stays. -/
theorem alone_cases (step : Step S α) :
    (∃ session a, step.rest.runAlone = .ok (session, a) ∧ step.alone = (session, .ok a)) ∨
      step.alone.1 = step.pending ∧ ∀ a, step.alone.2 ≠ .ok a := by
  cases h : step.rest.runAlone with
  | ok result => exact .inl ⟨result.1, result.2, rfl, alone_of_ok h⟩
  | fault why =>
    refine .inr ?_
    rw [alone, h]
    exact ⟨rfl, fun a => by simp⟩
  | abort =>
    refine .inr ?_
    rw [alone, h]
    exact ⟨rfl, fun a => by simp⟩

theorem map_rest_eq_ok_iff {step : Step S α} {f : α → β} {session : Session S} {b : β} :
    (step.map f).rest.runAlone = .ok (session, b) ↔
      ∃ a, step.rest.runAlone = .ok (session, a) ∧ f a = b := by
  rw [map, Program.runAlone_return]
  constructor
  · rintro ⟨⟨session', a⟩, hrun, hresult⟩
    obtain ⟨rfl, rfl⟩ : session' = session ∧ f a = b := by simpa using hresult
    exact ⟨a, hrun, rfl⟩
  · rintro ⟨a, hrun, rfl⟩
    exact ⟨(session, a), hrun, rfl⟩

end Step

namespace Session

/-! ## One request -/

variable [Zero S] [One S] [Add S] [Sub S] [Mul S] [Div S] [Neg S] [BEq S] [LT S] [DecidableLT S]

/-- What a session becomes when a request succeeds. -/
inductive Next (session : Session S) : Operation S → Session S → Prop
  | prepare {s faces essential reduction} (unprepared : session.reduction = none)
      (made : (newReduction session.disc session.options essential s .alone faces).runAlone =
        .ok reduction) :
      Next session (.prepare s faces essential)
        ⟨session.disc, session.options, essential, some reduction, none⟩
  | prepareAgain {s faces reduction} (unprepared : session.reduction = none)
      (made : (newReduction session.disc session.options session.essential s .alone
        faces).runAlone = .ok reduction) :
      Next session (.prepareAgain s faces) (session.holding reduction)
  | assemble {e matrix reduction store} (held : session.reduction = some reduction)
      (taken : reduction.store.assemble e matrix reduction.essential.toArray = .ok store) :
      Next session (.assemble e matrix) (session.holding { reduction with store := store })
  | assembleAll {s batch reduction store} (held : session.reduction = some reduction)
      (taken : reduction.store.assembleAll s batch reduction.essential.toArray = .ok store) :
      Next session (.assembleAll s batch) (session.holding { reduction with store := store })
  | finalize {s summary matrix}
      (made : (session.finalizeProgram s .alone).runAlone =
        .ok ({ session with matrix := some matrix }, summary)) :
      Next session (.finalize s) { session with matrix := some matrix }
  | handOver : Next session .handOver { session with matrix := none }
  | reduce {s b into} : Next session (.reduce s b into) session
  | recover {s b solution into} : Next session (.recover s b solution into) session
  | reset : Next session .reset session.reset
  | update {disc} :
      Next session (.update disc) ⟨disc, session.options, session.essential, none, none⟩

/-- A finalization needs a reduction, and only adds a matrix. -/
theorem finalizeProgram_next {session next : Session S} {s : Schedule} {place : Place}
    {summary : Summary S}
    (h : (session.finalizeProgram s place).runAlone = .ok (next, summary)) :
    ∃ reduction matrix, session.reduction = some reduction ∧
      next = { session with matrix := some matrix } := by
  simp only [finalizeProgram, Program.runAlone_bind, Program.liftM_eq, Program.runAlone_done,
    Program.pure_eq] at h
  obtain ⟨reduction, hreduction, h⟩ := Outcome.bind_eq_ok_iff.1 h
  obtain ⟨_, -, h⟩ := Outcome.bind_eq_ok_iff.1 h
  obtain ⟨rows, -, h⟩ := Outcome.bind_eq_ok_iff.1 h
  obtain ⟨asymmetry, -, h⟩ := Outcome.bind_eq_ok_iff.1 h
  obtain ⟨matrix, -, h⟩ := Outcome.bind_eq_ok_iff.1 h
  obtain ⟨rfl, -⟩ : { session with matrix := some matrix } = next ∧ _ = summary := by
    simpa using h
  exact ⟨reduction, matrix, Outcome.orFault_eq_ok_iff.1 hreduction, rfl⟩

/-- **One request** that succeeds: the session is what `Next` says. -/
theorem next_of_begin {session next : Session S} {op : Operation S} {answer : Answer S}
    (h : (session.begin .alone op).rest.runAlone = .ok (next, answer)) :
    session.Next op next := by
  cases op with
  | prepare s faces essential =>
    obtain ⟨_, hrun, -⟩ := Step.map_rest_eq_ok_iff.1 h
    by_cases hnone : session.reduction.isSome = true
    · simp [Session.prepare, hnone] at hrun
    · simp only [Session.prepare, hnone, Bool.false_eq_true, if_false] at hrun
      obtain ⟨reduction, hmade, heq⟩ := Program.runAlone_return.1 hrun
      obtain rfl : ({ session with essential := essential } : Session S).holding reduction =
        next := congrArg Prod.fst heq
      exact .prepare (by simpa using hnone) hmade
  | prepareAgain s faces =>
    obtain ⟨_, hrun, -⟩ := Step.map_rest_eq_ok_iff.1 h
    by_cases hnone : session.reduction.isSome = true
    · simp [Session.prepareAgain, hnone] at hrun
    · simp only [Session.prepareAgain, hnone, Bool.false_eq_true, if_false] at hrun
      obtain ⟨reduction, hmade, heq⟩ := Program.runAlone_return.1 hrun
      obtain rfl : session.holding reduction = next := congrArg Prod.fst heq
      exact .prepareAgain (by simpa using hnone) hmade
  | assemble e matrix =>
    obtain ⟨next', hnext, heq⟩ := Program.runAlone_return.1 h
    obtain rfl : next' = next := congrArg Prod.fst heq
    obtain ⟨reduction, hheld, hnext⟩ := Outcome.bind_eq_ok_iff.1 hnext
    obtain ⟨store, htaken, hnext⟩ := Outcome.bind_eq_ok_iff.1 hnext
    obtain rfl := Outcome.ok.inj hnext
    exact .assemble (Outcome.orFault_eq_ok_iff.1 hheld) htaken
  | assembleAll s batch =>
    obtain ⟨next', hnext, heq⟩ := Program.runAlone_return.1 h
    obtain rfl : next' = next := congrArg Prod.fst heq
    obtain ⟨reduction, hheld, hnext⟩ := Outcome.bind_eq_ok_iff.1 hnext
    obtain ⟨store, htaken, hnext⟩ := Outcome.bind_eq_ok_iff.1 hnext
    obtain rfl := Outcome.ok.inj hnext
    exact .assembleAll (Outcome.orFault_eq_ok_iff.1 hheld) htaken
  | finalize s =>
    obtain ⟨summary, hrun, -⟩ := Step.map_rest_eq_ok_iff.1 h
    obtain ⟨_, matrix, -, rfl⟩ := finalizeProgram_next hrun
    exact .finalize hrun
  | handOver =>
    obtain ⟨⟨next', matrix⟩, hnext, heq⟩ := Program.runAlone_return.1 h
    obtain ⟨_, -, hnext⟩ := Outcome.bind_eq_ok_iff.1 hnext
    obtain rfl : next' = next := congrArg Prod.fst heq
    obtain rfl : { session with matrix := none } = next' :=
      congrArg Prod.fst (Outcome.ok.inj hnext)
    exact .handOver
  | reduce s b into =>
    obtain ⟨_, -, heq⟩ := Program.runAlone_return.1 h
    obtain rfl := congrArg Prod.fst heq
    exact .reduce
  | recover s b solution into =>
    obtain ⟨_, -, heq⟩ := Program.runAlone_return.1 h
    obtain rfl := congrArg Prod.fst heq
    exact .recover
  | reset =>
    obtain rfl := congrArg Prod.fst (Outcome.ok.inj h)
    exact .reset
  | update disc =>
    obtain ⟨next', hnext, heq⟩ := Program.runAlone_return.1 h
    obtain rfl : next' = next := congrArg Prod.fst heq
    obtain ⟨_, -, hnext⟩ := Outcome.bind_eq_ok_iff.1 hnext
    obtain rfl := Outcome.ok.inj hnext
    exact .update

/-- What stays of a session while a request is carried out. -/
theorem pending_cases (session : Session S) (place : Place) (op : Operation S) :
    (session.begin place op).pending = session ∨ session.reduction = none ∧
      ∃ essential, (session.begin place op).pending = { session with essential := essential } := by
  cases op with
  | prepare s faces essential =>
    by_cases hnone : session.reduction.isSome = true
    · refine .inl ?_
      simp [begin, Step.map, Session.prepare, hnone]
    · refine .inr ⟨by simpa using hnone, essential, ?_⟩
      simp [begin, Step.map, Session.prepare, hnone]
  | prepareAgain s faces =>
    refine .inl ?_
    simp only [begin, Step.map, Session.prepareAgain]
    split <;> rfl
  | assemble | assembleAll | finalize | handOver | reduce | recover | reset | update =>
    exact .inl rfl

/-- **One request**: it succeeds, or the session stays but for the list of a preparation. -/
theorem perform_cases (session : Session S) (op : Operation S) :
    (∃ next answer, session.Next op next ∧ session.perform op = (next, .ok answer)) ∨
      ((session.perform op).1 = session ∨ session.reduction = none ∧
        ∃ essential, (session.perform op).1 = { session with essential := essential }) ∧
      ∀ answer, (session.perform op).2 ≠ .ok answer := by
  rcases (session.begin .alone op).alone_cases with ⟨next, answer, hrun, heq⟩ | ⟨hpending, hfails⟩
  · exact .inl ⟨next, answer, next_of_begin hrun, heq⟩
  · refine .inr ⟨?_, hfails⟩
    rw [perform, hpending]
    exact session.pending_cases .alone op

/-! ## Histories -/

/-- **Histories**: what every request keeps, and another list for the next preparation too, holds
    after every history. -/
theorem after_keeps {P : Session S → Prop}
    (hnext : ∀ session op next, P session → session.Next op next → P next)
    (hlist : ∀ session essential, P session → session.reduction = none →
      P { session with essential := essential })
    {session : Session S} (h : P session) (ops : List (Operation S)) : P (session.after ops) := by
  induction ops generalizing session with
  | nil => exact h
  | cons op rest ih =>
    refine ih ?_
    show P (session.perform op).1
    rcases session.perform_cases op with ⟨next, answer, hop, heq⟩ | ⟨heq | ⟨hnone, list, heq⟩, -⟩
    · rw [heq]
      exact hnext session op next h hop
    · rw [heq]
      exact h
    · rw [heq]
      exact hlist session list h hnone

end Session

end Condensation
