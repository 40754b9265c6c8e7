import Mathlib.Algebra.Order.Ring.Int
import Mathlib.Data.Rat.Defs

/-!
# Randomness and floating point

The two services of the host that the mutator's decisions pass through. A random
source is a stream of raw draws with a read position; doubles are a parameter of
the code that computes with them.
-/
namespace Swam

/-- A random stream and how far it has been read. -/
structure Rand where
  source : Nat → Nat
  pos : Nat

/-- `rand_below`: a limit of at most one consumes nothing. -/
def randBelow (limit : Nat) (r : Rand) : Nat × Rand :=
  if limit ≤ 1 then (0, r) else (r.source r.pos % limit, { r with pos := r.pos + 1 })

theorem randBelow_lt {limit : Nat} (positive : 0 < limit) (r : Rand) :
    (randBelow limit r).1 < limit := by
  unfold randBelow
  split
  · exact positive
  · exact Nat.mod_lt _ positive

/-- The arithmetic of `double`. -/
structure Doubles where
  Carrier : Type
  ofRat : ℚ → Carrier
  add : Carrier → Carrier → Carrier
  mul : Carrier → Carrier → Carrier
  lt : Carrier → Carrier → Bool
  le : Carrier → Carrier → Bool

/-- Exact arithmetic. -/
def Doubles.exact : Doubles where
  Carrier := ℚ
  ofRat := id
  add := (· + ·)
  mul := (· * ·)
  lt := fun a b => decide (a < b)
  le := fun a b => decide (a ≤ b)

end Swam
