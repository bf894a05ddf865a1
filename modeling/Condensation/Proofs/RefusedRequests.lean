/-
  Refused requests — what a request that does not come to its end leaves behind.

  1. **One request** — whatever fails, and however late, the session is the one that was asked,
     with one exception: a `prepare` of a session without a reduction replaces the list for the
     next preparation before anything can be refused (`listAfter`, `begin_pending`).

  2. **Histories** — so the list that `prepareAgain` classifies with is the one brought last
     (`Brings`), whether the preparation that brought it succeeded or not (`essential_of_after`).

  3. It need not be the list of the last preparation that succeeded
     (`list_of_refused_preparation`).
-/
import Condensation.Proofs.Histories
import Condensation.Proofs.CondensedSession

namespace Condensation

namespace Session

variable {S : Type}

/-! ## Lists -/

/-- The list for the next preparation, once a request was taken up. -/
def listAfter (session : Session S) : Operation S → List Nat
  | .prepare _ _ essential => if session.reduction.isSome then session.essential else essential
  | _ => session.essential

/-- The request is a preparation that replaces the list of the session. -/
def Brings (session : Session S) (op : Operation S) : Prop :=
  session.reduction = none ∧ ∃ s faces essential, op = .prepare s faces essential

theorem listAfter_of_not_brings {session : Session S} {op : Operation S}
    (h : ¬ session.Brings op) : session.listAfter op = session.essential := by
  cases op with
  | prepare s faces essential =>
    have hsome : session.reduction ≠ none := fun hnone => h ⟨hnone, s, faces, essential, rfl⟩
    simp [listAfter, Option.isSome_iff_ne_none.2 hsome]
  | prepareAgain | assemble | assembleAll | finalize | handOver | reduce | recover | reset
  | update => rfl

/-! ## One request -/

variable [Zero S] [One S] [Add S] [Sub S] [Mul S] [Div S] [Neg S] [BEq S] [LT S] [DecidableLT S]

/-- What stays while a request is carried out is the session with the list that the request
    brings. -/
theorem begin_pending (session : Session S) (place : Place) (op : Operation S) :
    (session.begin place op).pending = { session with essential := session.listAfter op } := by
  cases op with
  | prepare s faces essential =>
    by_cases hnone : session.reduction.isSome = true
    · simp [begin, Step.map, Session.prepare, listAfter, hnone]
    · simp [begin, Step.map, Session.prepare, listAfter, hnone]
  | prepareAgain s faces =>
    simp only [begin, Step.map, Session.prepareAgain]
    split <;> rfl
  | assemble | assembleAll | finalize | handOver | reduce | recover | reset | update => rfl

/-- **The crux**: a request that does not succeed changes nothing but the list. -/
theorem perform_of_not_ok {session : Session S} {op : Operation S}
    (h : ∀ answer, (session.perform op).2 ≠ .ok answer) :
    (session.perform op).1 = { session with essential := session.listAfter op } := by
  rcases (session.begin .alone op).alone_cases with ⟨next, answer, -, heq⟩ | ⟨hpending, -⟩
  · exact absurd (congrArg Prod.snd heq) (h answer)
  · exact hpending.trans (session.begin_pending .alone op)

/-- A request that succeeds leaves the same list as one that does not. -/
theorem Next.essential_eq {session next : Session S} {op : Operation S}
    (h : session.Next op next) : next.essential = session.listAfter op := by
  cases h with
  | prepare unprepared => simp [listAfter, unprepared]
  | prepareAgain | assemble | assembleAll | finalize | handOver | reduce | recover | reset
  | update => rfl

theorem perform_essential (session : Session S) (op : Operation S) :
    (session.perform op).1.essential = session.listAfter op := by
  rcases session.perform_cases op with ⟨next, answer, hop, heq⟩ | ⟨-, hfails⟩
  · rw [heq]
    exact hop.essential_eq
  · rw [perform_of_not_ok hfails]

/-! ## Histories -/

/-- A history in which no request brings a list keeps the one there is. -/
theorem essential_of_after {session : Session S} {ops : List (Operation S)}
    (h : ∀ before op later, ops = before ++ op :: later → ¬ (session.after before).Brings op) :
    (session.after ops).essential = session.essential := by
  induction ops generalizing session with
  | nil => rfl
  | cons op rest ih =>
    have hfirst : (session.perform op).1.essential = session.essential := by
      have hop : ¬ session.Brings op := h [] op rest rfl
      rw [perform_essential, listAfter_of_not_brings hop]
    have hrest : ((session.perform op).1.after rest).essential =
        (session.perform op).1.essential :=
      ih fun before op' later heq => h (op :: before) op' later (by rw [heq]; rfl)
    exact hrest.trans hfirst

/-- **The result**: on every rank, a request that does not come to its end leaves the
    discretization, the options, everything that was prepared, and the matrix as they were; and the
    list too, unless it was a preparation that met a session without a reduction.  So a later
    `prepareAgain` that succeeds has classified with the list that was brought last, whatever
    became of the preparation that brought it. -/
theorem refusals_keep (session : Session S) :
    (∀ place op, (session.begin place op).pending =
      { session with essential := session.listAfter op }) ∧
    (∀ op why, (session.perform op).2 = .fault why →
      (session.perform op).1 = { session with essential := session.listAfter op } ∧
      (¬ session.Brings op → (session.perform op).1 = session)) ∧
    ∀ s faces essential ops, session.reduction = none →
      (∀ before op later, ops = before ++ op :: later →
        ¬ (session.after (.prepare s faces essential :: before)).Brings op) →
      ∀ s' faces' next answer,
        (session.after (.prepare s faces essential :: ops)).perform (.prepareAgain s' faces') =
          (next, .ok answer) →
        ∃ reduction,
          (newReduction (session.after (.prepare s faces essential :: ops)).disc
            (session.after (.prepare s faces essential :: ops)).options essential s' .alone
            faces').runAlone = .ok reduction ∧
          next = ⟨_, (session.after (.prepare s faces essential :: ops)).options, essential,
            some reduction, none⟩ := by
  refine ⟨session.begin_pending, fun op why hrefused => ?_,
    fun s faces essential ops hnone hlast s' faces' next answer hagain => ?_⟩
  · have hkept : (session.perform op).1 = { session with essential := session.listAfter op } :=
      perform_of_not_ok fun answer hok => by simp [hrefused] at hok
    exact ⟨hkept, fun hbrings => by rw [hkept, listAfter_of_not_brings hbrings]⟩
  · have hlist : (session.after (.prepare s faces essential :: ops)).essential = essential := by
      have hrest : (session.after (.prepare s faces essential :: ops)).essential =
          (session.perform (.prepare s faces essential)).1.essential := essential_of_after hlast
      rw [hrest, perform_essential]
      simp [listAfter, hnone]
    rcases perform_cases (session.after (.prepare s faces essential :: ops))
      (.prepareAgain s' faces') with ⟨next', answer', hop, heq⟩ | ⟨-, hfails⟩
    · obtain rfl : next' = next := congrArg Prod.fst (heq.symm.trans hagain)
      cases hop with
      | prepareAgain unprepared made =>
        rw [hlist] at made
        exact ⟨_, made, by rw [holding, hlist]⟩
    · exact absurd (congrArg Prod.snd hagain) (hfails answer)

/-- Three blocks for the single face of `twoElements`. -/
def threeBlocks : FaceBlocks Rat := ⟨#[1, -1, 0], #[some (.plus 0)]⟩

/-- A session for two elements, reset after a preparation with the first degree of freedom
    essential. -/
def resetSession : Session Rat :=
  (⟨twoElements, {}, [], none, none⟩ : Session Rat).after
    [.prepare .inOrder oppositeFaces [0], .reset]

/-- So it is for two elements when a preparation with the second degree of freedom essential is
    refused: only the list is another one, and the next preparation classifies with it. -/
theorem refusals_keep_twoElements :
    (resetSession.perform (.prepare .inOrder threeBlocks [1])).2 =
        .fault (.wrongLength .faceBlocks 2 3) ∧
      (resetSession.perform (.prepare .inOrder threeBlocks [1])).1 =
        { resetSession with essential := [1] } ∧
      ∃ next reduction,
        (resetSession.after [.prepare .inOrder threeBlocks [1]]).perform
          (.prepareAgain .inOrder oppositeFaces) = (next, .ok .done) ∧
        (newReduction twoElements {} [1] .inOrder .alone oppositeFaces).runAlone =
          .ok reduction ∧
        next = ⟨twoElements, {}, [1], some reduction, none⟩ := by
  have hrefused : (resetSession.perform (.prepare .inOrder threeBlocks [1])).2 =
    .fault (.wrongLength .faceBlocks 2 3) := rfl
  have hagain : ((resetSession.after [.prepare .inOrder threeBlocks [1]]).perform
    (.prepareAgain .inOrder oppositeFaces)).2 = .ok .done := rfl
  obtain ⟨-, hkeeps, hlist⟩ := refusals_keep resetSession
  obtain ⟨reduction, hmade, hnext⟩ := hlist .inOrder threeBlocks [1] [] rfl (by simp) .inOrder
    oppositeFaces _ .done (Prod.ext rfl hagain)
  exact ⟨hrefused, (hkeeps _ _ hrefused).1, _, reduction, Prod.ext rfl hagain, hmade, hnext⟩

/-- The list need not be that of the last preparation that succeeded: here a refused one replaces
    it, and the next preparation marks another degree of freedom than it would have otherwise. -/
theorem list_of_refused_preparation :
    resetSession.essential = [0] ∧
      (resetSession.perform (.prepare .inOrder threeBlocks [1])).2 =
        .fault (.wrongLength .faceBlocks 2 3) ∧
      (resetSession.perform (.prepare .inOrder threeBlocks [1])).1.essential = [1] ∧
      (resetSession.perform (.prepareAgain .inOrder oppositeFaces)).1.reduction.map
        (·.essential.toList) = some [true, false] ∧
      (resetSession.after [.prepare .inOrder threeBlocks [1],
        .prepareAgain .inOrder oppositeFaces]).reduction.map (·.essential.toList) =
          some [false, true] := by
  refine ⟨rfl, rfl, rfl, ?_, ?_⟩
  · decide +kernel
  · decide +kernel

end Session

end Condensation
