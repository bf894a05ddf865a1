/-
  Programs of a rank — computations that talk to the other ranks.

  1. **Data** — a `Program S α` either has ended, or makes a collective call and goes on with what
     the call returns.  There are two calls: every rank gets everyone's indices (`gather`), or every
     rank sends one bucket to every rank (`exchange`).  A `Wire` says what the buckets hold, indices
     or scalars.  They travel back to back, with their lengths beside them.

  2. **Sequencing** — `Program S` is a monad; an `Outcome` is a program that has ended, so a fault
     or an abort ends the program where it stands.

  A program says nothing about who answers its calls: it is run by the interpreters of
  `Condensation.Ranks.Run`.
-/
import Condensation.Outcome

namespace Condensation

/-- What the buckets of an exchange hold. -/
inductive Wire where
  | indices
  | values
  deriving DecidableEq, Repr

/-- One entry of such a bucket, with scalars `S`. -/
abbrev Wire.Datum (S : Type) : Wire → Type
  | indices => Nat
  | values => S

/-- A computation of one rank, with scalars `S` and a result in `α`. -/
inductive Program (S : Type) (α : Type) where
  | done (result : Outcome α)
  | gather (mine : List Nat) (next : List Nat → Program S α)
  | exchange (wire : Wire) (send : List (wire.Datum S)) (counts : List Nat)
      (next : List (wire.Datum S) → List Nat → Program S α)

/-- Where a rank stands among all ranks. -/
structure Place where
  rank : Nat
  size : Nat
  deriving DecidableEq, Repr

/-- The only rank there is. -/
def Place.alone : Place := ⟨0, 1⟩

namespace Program

variable {S α β : Type}

/-- Go on with the result, if there is one. -/
protected def bind : Program S α → (α → Program S β) → Program S β
  | done (.ok a), f => f a
  | done (.fault e), _ => done (.fault e)
  | done .abort, _ => done .abort
  | gather mine next, f => gather mine fun all => (next all).bind f
  | exchange wire send counts next, f =>
    exchange wire send counts fun got from' => (next got from').bind f

instance : Monad (Program S) where
  pure a := done (.ok a)
  bind := Program.bind

/-- A computation without calls, as a program. -/
def ofOutcome (o : Outcome α) : Program S α := done o

instance : MonadLift Outcome (Program S) := ⟨ofOutcome⟩

@[simp] theorem pure_eq (a : α) : (pure a : Program S α) = done (.ok a) := rfl

/-- A value is passed on, -/
@[simp] theorem done_ok_bind (a : α) (f : α → Program S β) :
    (done (.ok a) : Program S α) >>= f = f a := rfl

/-- a refusal ends the program where it stands, -/
@[simp] theorem done_fault_bind (e : Fault) (f : α → Program S β) :
    (done (.fault e) : Program S α) >>= f = done (.fault e) := rfl

/-- and so does an abort. -/
@[simp] theorem done_abort_bind (f : α → Program S β) :
    (done .abort : Program S α) >>= f = done .abort := rfl

/-- What follows a program follows each of its calls. -/
@[simp] theorem gather_bind (mine : List Nat) (next : List Nat → Program S α)
    (f : α → Program S β) :
    gather mine next >>= f = gather mine fun all => next all >>= f := rfl

@[simp] theorem exchange_bind (wire : Wire) (send : List (wire.Datum S)) (counts : List Nat)
    (next : List (wire.Datum S) → List Nat → Program S α) (f : α → Program S β) :
    exchange wire send counts next >>= f =
      exchange wire send counts fun got counts' => next got counts' >>= f := rfl

@[simp] theorem liftM_eq (o : Outcome α) : (liftM o : Program S α) = done o := rfl

/-- Everyone's indices, in the order of the ranks. -/
def allGather (mine : List Nat) : Program S (List Nat) :=
  gather mine fun all => done (.ok all)

/-- The buckets addressed to this rank, in the order of the ranks, with their lengths. -/
def allToAll (wire : Wire) (send : List (wire.Datum S)) (counts : List Nat) :
    Program S (List (wire.Datum S) × List Nat) :=
  exchange wire send counts fun got counts' => done (.ok (got, counts'))

/-- Buckets of indices, -/
abbrev allToAllIndices (send counts : List Nat) : Program S (List Nat × List Nat) :=
  allToAll .indices send counts

/-- and buckets of scalars. -/
abbrev allToAllValues (send : List S) (counts : List Nat) : Program S (List S × List Nat) :=
  allToAll .values send counts

end Program

end Condensation
