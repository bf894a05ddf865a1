/-
  Histories — what is asked of a session, one request after another.

  1. **Requests** — an `Operation` is a request with its arguments, and an `Answer` is what a
     request that succeeds gives back.  `Session.begin` takes a request up on one of the ranks;
     what comes of it is a `Step`, as for every operation that may need the others.

  2. **Alone** — with a single rank a step comes to its end at once (`Step.alone`): either with a
     new session and the answer, or with the session that was pending.  `Session.perform` does this
     for one request, and `Session.after` for a whole history; a request that fails does not end
     the history.
-/
import Condensation.Session
import Condensation.Ranks.Run

namespace Condensation

/-- What can be asked of a session. -/
inductive Operation (S : Type) where
  | prepare (s : Schedule) (faces : FaceBlocks S) (essential : List Nat)
  | prepareAgain (s : Schedule) (faces : FaceBlocks S)
  | assemble (e : Nat) (matrix : Array S)
  | assembleAll (s : Schedule) (batch : Array S)
  | finalize (s : Schedule)
  | handOver
  | reduce (s : Schedule) (b into : Array S)
  | recover (s : Schedule) (b solution into : Array S)
  | reset
  | update (disc : Discretization S)

/-- What a request gives back. -/
inductive Answer (S : Type) where
  | done
  | assembly (summary : Summary S)
  | matrix (matrix : InterfaceMatrix S)
  | vector (values : Array S)

namespace Operation

variable {S : Type}

/-- The request replaces something that the interface matrix is made of. -/
def Replaces : Operation S → Prop
  | prepare .. | prepareAgain .. | assemble .. | assembleAll .. | reset | update .. => True
  | finalize .. | handOver | reduce .. | recover .. => False

end Operation

namespace Step

variable {S α β : Type}

/-- The step with its answer put differently. -/
def map (f : α → β) (step : Step S α) : Step S β where
  pending := step.pending
  rest := do
    let (session, a) ← step.rest
    return (session, f a)

/-- The end of a step with a single rank. -/
def alone (step : Step S α) : Session S × Outcome α :=
  match step.rest.runAlone with
  | .ok (session, a) => (session, .ok a)
  | .fault why => (step.pending, .fault why)
  | .abort => (step.pending, .abort)

end Step

namespace Session

variable {S : Type} [Zero S] [One S] [Add S] [Sub S] [Mul S] [Div S] [Neg S] [BEq S] [LT S]
  [DecidableLT S]

/-- Take up a request. -/
def begin (session : Session S) (place : Place) : Operation S → Step S (Answer S)
  | .prepare s faces essential =>
    (session.prepare s place faces essential).map fun _ => .done
  | .prepareAgain s faces => (session.prepareAgain s place faces).map fun _ => .done
  | .assemble e matrix => ⟨session, do
    let next ← session.assemble e matrix
    return (next, .done)⟩
  | .assembleAll s batch => ⟨session, do
    let next ← session.assembleAll s batch
    return (next, .done)⟩
  | .finalize s => (session.finalize s place).map .assembly
  | .handOver => ⟨session, do
    let (next, matrix) ← session.handOver
    return (next, .matrix matrix)⟩
  | .reduce s b into => ⟨session, do
    let values ← session.reduce s place b into
    return (session, .vector values)⟩
  | .recover s b solution into => ⟨session, do
    let values ← session.recover s place b solution into
    return (session, .vector values)⟩
  | .reset => ⟨session, return (session.reset, .done)⟩
  | .update disc => ⟨session, do
    let next ← session.update disc
    return (next, .done)⟩

/-- Carry out one request with a single rank. -/
def perform (session : Session S) (op : Operation S) : Session S × Outcome (Answer S) :=
  (session.begin .alone op).alone

/-- The session after a history of requests. -/
def after (session : Session S) (ops : List (Operation S)) : Session S :=
  ops.foldl (fun session op => (session.perform op).1) session

end Session

end Condensation
