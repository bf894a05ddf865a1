/-
  Signed indices — the entries of a gather table.

  A finite-element restriction sends every (element, basis function) pair to a degree of freedom
  that may be shared with a neighbor, possibly with its orientation flipped.  An entry of such a
  table is an index together with an orientation, or nothing at all.

  1. **Data** — `Orientation` is the flip, `Signed ι` an index with its flip, and `GatherEntry`
     an entry of a table as it comes from outside: a numbered target, or no target.

  2. **Reading** — `Signed.read g v` is the value of `v` at the target, with the orientation as a
     factor.  `GatherEntry.within n` is the typed form of an entry: its index as an element of
     `Fin n`, when there is a target and it lies below `n`.
-/

namespace Condensation

/-- The direction in which a shared degree of freedom is traversed. -/
inductive Orientation where
  | plus
  | minus
  deriving DecidableEq, Repr

namespace Orientation

/-- The orientation as a scalar factor. -/
def factor {S : Type} [One S] [Neg S] : Orientation → S
  | plus => 1
  | minus => -1

end Orientation

/-- A target index together with the orientation in which it is read. -/
structure Signed (ι : Type) where
  index : ι
  orientation : Orientation
  deriving DecidableEq, Repr

namespace Signed

variable {ι κ S : Type}

/-- The target in its own direction. -/
def plus (i : ι) : Signed ι := ⟨i, .plus⟩

/-- The target against its own direction. -/
def minus (i : ι) : Signed ι := ⟨i, .minus⟩

/-- Decode the one-integer form: `i ≥ 0` is the index `i` itself, and `i < 0` is the index
    `-1 - i` with the orientation flipped, so that index zero has both forms. -/
def ofCode (i : Int) : Signed Nat :=
  if 0 ≤ i then plus i.toNat else minus (-1 - i).toNat

/-- The value of `v` at the target, seen through the orientation. -/
def read [One S] [Neg S] [Mul S] (g : Signed ι) (v : ι → S) : S :=
  g.orientation.factor * v g.index

end Signed

/-- An entry of a gather table as it is handed in: a numbered target, or none. -/
abbrev GatherEntry := Option (Signed Nat)

namespace GatherEntry

/-- The scalar factor of an entry; an entry without target contributes nothing. -/
def factor {S : Type} [Zero S] [One S] [Neg S] : GatherEntry → S
  | none => 0
  | some g => g.orientation.factor

/-- How an entry is written in reports. -/
def describe : GatherEntry → String
  | none => "Invalid"
  | some ⟨i, .plus⟩ => "Dof \x7b index: " ++ toString i ++ ", sign: Plus \x7d"
  | some ⟨i, .minus⟩ => "Dof \x7b index: " ++ toString i ++ ", sign: Minus \x7d"

/-- The entry as a target among `n` indices, when it has one there. -/
def within (n : Nat) : GatherEntry → Option (Signed (Fin n))
  | none => none
  | some g => if h : g.index < n then some ⟨⟨g.index, h⟩, g.orientation⟩ else none

theorem within_eq_some_iff {n : Nat} {e : GatherEntry} {g : Signed (Fin n)} :
    e.within n = some g ↔ e = some ⟨g.index.val, g.orientation⟩ := by
  cases e with
  | none => simp [within]
  | some s =>
    obtain ⟨i, o⟩ := s
    obtain ⟨⟨j, hj⟩, o'⟩ := g
    simp only [within]
    constructor
    · intro h
      split at h
      · simp at h; simp [h.1, h.2]
      · simp at h
    · intro h
      simp at h
      obtain ⟨rfl, rfl⟩ := h
      simp [hj]

end GatherEntry

end Condensation
