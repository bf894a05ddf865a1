/-
  Running programs — three answers to the question who takes part in a collective call.

  1. **Alone** — `Program.runAlone`: a single rank gets back what it sends.  A bucket list that
     does not say so aborts.

  2. **Together** — `Program.runTogether`: a collective call completes when every rank makes it,
     calls being matched by their order.  A rank that waits for a call which another rank, having
     ended, will never make waits forever; its result is `none`.

  3. **Scripted** — `Program.runScripted`: the n-th call is answered by the n-th reply of a list,
     whatever was asked.  Every call is recorded before its reply is taken, and a call beyond the
     end of the list aborts.
-/
import Condensation.Ranks.Program

namespace Condensation

/-- A collective call as it was made. -/
inductive Call (S : Type) where
  | gather (mine : List Nat)
  | indices (send counts : List Nat)
  | values (send : List S) (counts : List Nat)

/-- What a scripted call returns: the data as indices and as scalars, and the bucket lengths. -/
structure Reply (S : Type) where
  indices : List Nat
  values : List S
  counts : List Nat

/-- An exchange, as a call that was made. -/
def Call.exchange {S : Type} : (wire : Wire) → List (wire.Datum S) → List Nat → Call S
  | .indices => .indices
  | .values => .values

/-- What an exchange takes from a reply. -/
def Reply.data {S : Type} (reply : Reply S) : (wire : Wire) → List (wire.Datum S)
  | .indices => reply.indices
  | .values => reply.values

/-- The buckets of the given lengths, cut from a flat list. -/
def buckets {α : Type} : List Nat → List α → List (List α)
  | [], _ => []
  | k :: counts, data => data.take k :: buckets counts (data.drop k)

/-- What rank `r` gets when every rank sends its buckets: the data and the bucket lengths, in the
    order of the senders. -/
def delivered {α : Type} (sent : List (List α × List Nat)) (r : Nat) : List α × List Nat :=
  (sent.flatMap fun s => (buckets s.2 s.1).getD r [], sent.map fun s => s.2.getD r 0)

namespace Program

variable {S α : Type}

/-! ## Alone -/

/-- Run with a single rank. -/
def runAlone : Program S α → Outcome α
  | done o => o
  | gather mine next => (next mine).runAlone
  | exchange _ send counts next =>
    if counts = [send.length] then (next send [send.length]).runAlone else .abort

/-! ## Together -/

/-- The result of a program that makes no call. -/
def result? : Program S α → Option (Outcome α)
  | done o => some o
  | _ => none

/-- The program's call, if it gathers next. -/
def asGather? : Program S α → Option (List Nat × (List Nat → Program S α))
  | gather mine next => some (mine, next)
  | _ => none

/-- The program's call, if it makes such an exchange next. -/
def asExchange? : (wire : Wire) → Program S α →
    Option ((List (wire.Datum S) × List Nat) × (List (wire.Datum S) → List Nat → Program S α))
  | .indices, exchange .indices send counts next => some ((send, counts), next)
  | .values, exchange .values send counts next => some ((send, counts), next)
  | _, _ => none

/-- Run a first program together with those of the ranks after it. -/
def runFirst : Program S α → List (Program S α) → List (Option (Outcome α))
  | done o, rest => some o :: rest.map result?
  | gather mine next, rest =>
    match rest.mapM asGather? with
    | some calls =>
      let all := mine ++ calls.flatMap (·.1)
      (next all).runFirst (calls.map fun call => call.2 all)
    | none => none :: rest.map result?
  | exchange wire send counts next, rest =>
    match rest.mapM (asExchange? wire) with
    | some calls =>
      let sent := (send, counts) :: calls.map (·.1)
      let first := delivered sent 0
      (next first.1 first.2).runFirst
        (calls.mapIdx fun r call => call.2 (delivered sent (r + 1)).1 (delivered sent (r + 1)).2)
    | none => none :: rest.map result?

/-- Run the programs of all ranks at the same time. -/
def runTogether : List (Program S α) → List (Option (Outcome α))
  | [] => []
  | p :: rest => p.runFirst rest

/-! ## Scripted -/

/-- How a scripted run ended, the replies it left, and the calls it made. -/
structure Scripted (S : Type) (α : Type) where
  outcome : Outcome α
  unused : List (Reply S)
  calls : List (Call S)

/-- Put a call in front of those made later. -/
def Scripted.after (call : Call S) (run : Scripted S α) : Scripted S α :=
  { run with calls := call :: run.calls }

/-- Run against a list of replies. -/
def runScripted : Program S α → List (Reply S) → Scripted S α
  | done o, replies => ⟨o, replies, []⟩
  | gather mine _, [] => ⟨.abort, [], [.gather mine]⟩
  | gather mine next, reply :: replies =>
    ((next reply.indices).runScripted replies).after (.gather mine)
  | exchange wire send counts _, [] => ⟨.abort, [], [.exchange wire send counts]⟩
  | exchange wire send counts next, reply :: replies =>
    ((next (reply.data wire) reply.counts).runScripted replies).after (.exchange wire send counts)

end Program

end Condensation
