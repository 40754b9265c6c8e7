import Mathlib.Algebra.Order.Ring.Int
import Mathlib.Tactic.Common

/-!
# The bytes of a machine word
-/
namespace Swam.Lib

variable {w : Nat}

/-- Byte `j`, counted from the least significant one. -/
def nthByte (x : BitVec w) (j : Nat) : BitVec 8 := (x >>> (8 * j)).setWidth 8

theorem getLsbD_nthByte (x : BitVec w) (j t : Nat) :
    (nthByte x j).getLsbD t = (decide (t < 8) && x.getLsbD (8 * j + t)) := by
  rw [nthByte, BitVec.getLsbD_setWidth, BitVec.getLsbD_ushiftRight]

theorem toNat_nthByte (x : BitVec w) (j : Nat) : (nthByte x j).toNat = x.toNat / 256 ^ j % 256 := by
  rw [nthByte, BitVec.toNat_setWidth, BitVec.toNat_ushiftRight, Nat.shiftRight_eq_div_pow, Nat.pow_mul]

/-- A word is determined by its bytes. -/
theorem eq_of_nthByte {m : Nat} (size : w ≤ 8 * m) {x y : BitVec w}
    (same : ∀ j < m, nthByte x j = nthByte y j) : x = y := by
  apply BitVec.eq_of_getLsbD_eq
  intro t bound
  have here := congrArg (·.getLsbD (t % 8)) (same (t / 8) (by omega))
  simp only [getLsbD_nthByte, Nat.mod_lt t (show 8 > 0 by decide), decide_true, Bool.true_and,
    Nat.div_add_mod] at here
  exact here

@[simp] theorem nthByte_xor (x y : BitVec w) (j : Nat) :
    nthByte (x ^^^ y) j = nthByte x j ^^^ nthByte y j := by
  simp only [nthByte, BitVec.ushiftRight_xor_distrib, BitVec.setWidth_xor]

@[simp] theorem nthByte_not (x : BitVec w) {j : Nat} (inside : 8 * (j + 1) ≤ w) :
    nthByte (~~~ x) j = ~~~ nthByte x j := by
  apply BitVec.eq_of_getLsbD_eq
  intro t bound
  simp only [getLsbD_nthByte, BitVec.getLsbD_not, bound, decide_true, Bool.true_and]
  rw [decide_eq_true (by omega), Bool.true_and]

@[simp] theorem nthByte_or (x y : BitVec w) (j : Nat) :
    nthByte (x ||| y) j = nthByte x j ||| nthByte y j := by
  simp only [nthByte, BitVec.ushiftRight_or_distrib, BitVec.setWidth_or]

@[simp] theorem nthByte_and (x y : BitVec w) (j : Nat) :
    nthByte (x &&& y) j = nthByte x j &&& nthByte y j := by
  simp only [nthByte, BitVec.ushiftRight_and_distrib, BitVec.setWidth_and]

theorem nthByte_ushiftRight (x : BitVec w) (m j : Nat) :
    nthByte (x >>> (8 * m)) j = nthByte x (j + m) := by
  rw [nthByte, nthByte, ← BitVec.shiftRight_add, Nat.mul_add, Nat.add_comm]

theorem nthByte_shiftLeft (x : BitVec w) (m : Nat) {j : Nat} (inside : 8 * (j + 1) ≤ w) :
    nthByte (x <<< (8 * m)) j = if j < m then 0 else nthByte x (j - m) := by
  apply BitVec.eq_of_getLsbD_eq
  intro t bound
  rw [getLsbD_nthByte, BitVec.getLsbD_shiftLeft, decide_eq_true (show 8 * j + t < w by omega)]
  by_cases low : j < m
  · rw [if_pos low, decide_eq_true (show 8 * j + t < 8 * m by omega)]
    simp
  · rw [if_neg low, getLsbD_nthByte, decide_eq_false (show ¬ 8 * j + t < 8 * m by omega),
      show 8 * j + t - 8 * m = 8 * (j - m) + t by omega]
    simp

theorem nthByte_append {v : Nat} (x : BitVec w) (y : BitVec v) (m j : Nat) (size : v = 8 * m) :
    nthByte (x ++ y) j = if j < m then nthByte y j else nthByte x (j - m) := by
  subst size
  apply BitVec.eq_of_getLsbD_eq
  intro t bound
  simp only [getLsbD_nthByte, BitVec.getLsbD_append, bound, decide_true, Bool.true_and]
  by_cases low : j < m
  · rw [if_pos low, if_pos (by omega), getLsbD_nthByte, decide_eq_true bound, Bool.true_and]
  · rw [if_neg low, if_neg (by omega), getLsbD_nthByte, decide_eq_true bound, Bool.true_and]
    congr 1
    omega

/-- Replacing `m` bytes from byte `i` on by those of `v`. -/
theorem nthByte_insert (x v : BitVec w) (m i : Nat) {j : Nat} (inside : 8 * (j + 1) ≤ w)
    (size : ∀ t, 8 * m ≤ t → v.getLsbD t = false) :
    nthByte ((x &&& ~~~ (((BitVec.allOnes (8 * m)).setWidth w) <<< (8 * i))) ||| v <<< (8 * i)) j =
      if i ≤ j ∧ j < i + m then nthByte v (j - i) else nthByte x j := by
  apply BitVec.eq_of_getLsbD_eq
  intro t bound
  simp only [getLsbD_nthByte, BitVec.getLsbD_or, BitVec.getLsbD_and, BitVec.getLsbD_not,
    BitVec.getLsbD_shiftLeft, BitVec.getLsbD_setWidth, BitVec.getLsbD_allOnes, bound, decide_true,
    Bool.true_and]
  have position : 8 * j + t < w := by omega
  by_cases before : j < i
  · rw [if_neg (by omega), getLsbD_nthByte, decide_eq_true (show 8 * j + t < 8 * i by omega)]
    simp [bound, position]
  · have shifted : 8 * j + t - 8 * i = 8 * (j - i) + t := by omega
    rw [decide_eq_false (show ¬ 8 * j + t < 8 * i by omega), shifted]
    by_cases within : j < i + m
    · rw [if_pos (by omega), getLsbD_nthByte]
      simp [bound, position, show 8 * (j - i) + t < 8 * m by omega, show 8 * (j - i) + t < w by omega]
    · rw [if_neg (by omega), getLsbD_nthByte, size _ (by omega)]
      simp [bound, position, show ¬ 8 * (j - i) + t < 8 * m by omega]

end Swam.Lib
