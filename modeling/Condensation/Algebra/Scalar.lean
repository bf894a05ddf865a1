/-
  Scalars — the few operations on numbers that are not in the core classes.

  Every kernel is written for any type of scalars that has the operations it uses; it runs on
  floating-point numbers, and it can be reasoned about over any ordered field.
-/
namespace Condensation

variable {S : Type}

/-- The sum of a finite family, in index order. -/
def total [Zero S] [Add S] {n : Nat} (f : Fin n → S) : S :=
  (List.ofFn f).sum

/-- The size of a scalar without its sign. -/
def magnitude [Zero S] [Neg S] [LT S] [DecidableLT S] (a : S) : S :=
  if a < 0 then -a else a

/-- The larger of two scalars; the first one where they are level. -/
def larger [LT S] [DecidableLT S] (a b : S) : S :=
  if a < b then b else a

end Condensation
