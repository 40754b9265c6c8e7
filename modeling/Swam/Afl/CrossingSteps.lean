import Swam.Afl.ArithFilter

/-!
# Which adjustments cross

Of all the words that the arithmetic stages try, only those 32 apart, as little-endian words of
two bytes, can differ by two or four adjacent bits in two bytes.
-/
namespace Swam.Afl

open Lib

/-! ## Masks as differences -/

theorem nat_xor_add_and (a b : Nat) : (a ^^^ b) + 2 * (a &&& b) = a + b := by
  induction a using Nat.strongRecOn generalizing b with
  | ind a ih =>
    by_cases zero : a = 0
    · simp [zero]
    · have halves := ih (a / 2) (by omega) (b / 2)
      rw [← Nat.xor_div_two, ← Nat.and_div_two] at halves
      have odd : (a ^^^ b) % 2 = 1 ↔ ¬ (a % 2 = 1 ↔ b % 2 = 1) := Nat.xor_mod_two_eq_one
      have both : (a &&& b) % 2 = 1 ↔ a % 2 = 1 ∧ b % 2 = 1 := Nat.and_mod_two_eq_one
      omega

/-- What a mask adds to a word of which it meets the bits `met`. -/
def maskStep (m met : BitVec 32) : BitVec 32 := m - (met + met)

/-- The mask is added, but for the bits that were set. -/
theorem xor_eq_add (x m : BitVec 32) : x ^^^ m = x + maskStep m (x &&& m) := by
  have sum : (x ^^^ m) + ((x &&& m) + (x &&& m)) = x + m := by
    apply BitVec.eq_of_toNat_eq
    have parts := nat_xor_add_and x.toNat m.toNat
    simp only [BitVec.toNat_add, BitVec.toNat_xor, BitVec.toNat_and]
    omega
  rw [maskStep]
  bv_omega

theorem and_lowBits (x : BitVec 32) (n sh : Nat) :
    x &&& lowBits n <<< sh = BitVec.ofNat 32 (x.toNat / 2 ^ sh % 2 ^ n) <<< sh := by
  apply BitVec.eq_of_getLsbD_eq
  intro t inside
  simp only [BitVec.getLsbD_and, BitVec.getLsbD_shiftLeft, lowBits, BitVec.getLsbD_setWidth,
    BitVec.getLsbD_allOnes, BitVec.getLsbD_ofNat, Nat.testBit_mod_two_pow, Nat.testBit_div_two_pow]
  by_cases before : t < sh
  · simp [before]
  · rw [show t - sh + sh = t by omega, BitVec.testBit_toNat]
    cases x.getLsbD t <;> simp

/-- The masks by width and first bit. -/
def crossingBits : List (Nat × Nat) :=
  [(2, 7), (4, 5), (4, 6), (4, 7)].flatMap fun (n, sh) => [(n, sh), (n, sh + 8), (n, sh + 16)]

theorem crossingMasks_eq : crossingMasks = crossingBits.map fun (n, sh) => lowBits n <<< sh := by
  decide

/-- Adding or subtracting at most `ARITH_MAX` crosses by one mask only, and little endian. -/
theorem crossing_steps :
    ∀ bits ∈ crossingBits, ∀ blen ∈ [2, 4], ∀ be ∈ [false, true], ∀ t < 16,
      castU blen (lowBits bits.1 <<< bits.2) = lowBits bits.1 <<< bits.2 →
      withinArithMax blen 0 (maskStep (ordered be blen (lowBits bits.1 <<< bits.2))
        (ordered be blen (BitVec.ofNat 32 t <<< bits.2))) = true →
      be = false ∧ bits = (4, 5) ∧ (t = 7 ∨ t = 8) := by
  decide

section
variable {blen : Nat} {be : Bool} {x y : BitVec 32}

theorem castU_xor : castU blen (x ^^^ y) = castU blen x ^^^ castU blen y := by
  simp only [castU, BitVec.setWidth_xor]

theorem ordered_xor (listed : blen ∈ [1, 2, 4]) :
    ordered be blen (x ^^^ y) = ordered be blen x ^^^ ordered be blen y := by
  apply eq_of_nthByte (m := 4) (by decide)
  intro j _
  rw [nthByte_xor, nthByte_ordered listed, nthByte_ordered listed, nthByte_ordered listed, nthByte_xor]
  split
  · rfl
  · exact (BitVec.xor_self).symm

theorem ordered_and (listed : blen ∈ [1, 2, 4]) :
    ordered be blen (x &&& y) = ordered be blen x &&& ordered be blen y := by
  apply eq_of_nthByte (m := 4) (by decide)
  intro j _
  rw [nthByte_and, nthByte_ordered listed, nthByte_ordered listed, nthByte_ordered listed, nthByte_and]
  split
  · rfl
  · exact (BitVec.and_self).symm

/-- A step of at most `ARITH_MAX`, whatever word it is written as. -/
theorem withinArithMax_of_stepBy (small : blen ≤ 4) {minus : Bool} {j : Nat} (bound : j ≤ arithMax)
    (same : castU blen (stepBy minus j) = castU blen y) : withinArithMax blen 0 y = true := by
  have short : (castU blen (BitVec.ofNat 32 j)).toNat ≤ arithMax := by
    rw [toNat_castU, BitVec.toNat_ofNat]
    exact Nat.le_trans (Nat.mod_le _ _) (Nat.le_trans (Nat.mod_le _ _) bound)
  apply decide_eq_true
  cases minus with
  | false =>
    right
    rw [show y - 0 = y from BitVec.sub_zero y, ← same]
    exact short
  | true =>
    left
    rw [show 0 - y = -y from BitVec.zero_sub y, ← castU_neg small same,
      show -stepBy true j = BitVec.ofNat 32 j from BitVec.neg_neg]
    exact short

/-- A trial that crosses. -/
theorem adjusted_crosses (listed : blen ∈ [2, 4]) {orig : BitVec 32} (fits : castU blen orig = orig)
    {minus : Bool} {j : Nat} (bound : j ≤ arithMax)
    (carries : Overflows minus (blen / 2) (ordered be blen orig) j)
    (crosses : orig ^^^ adjusted be blen orig minus j ∈ crossingMasks) :
    blen = 2 ∧ (orig.toNat / 32 % 16 = 7 ∨ orig.toNat / 32 % 16 = 8) := by
  have whole : blen ∈ [1, 2, 4] := List.mem_cons_of_mem _ listed
  have small := (width_bounds whole).2
  generalize mask_eq : orig ^^^ adjusted be blen orig minus j = m at crosses
  have known : m ∈ crossingBits.map fun (n, sh) => lowBits n <<< sh := crossingMasks_eq ▸ crosses
  obtain ⟨⟨n, sh⟩, member, rfl⟩ := List.mem_map.mp known
  dsimp only at mask_eq
  have inside : castU blen (lowBits n <<< sh) = lowBits n <<< sh := by
    rw [← mask_eq, castU_xor, fits, adjusted, castU_ordered whole]
  -- in the byte order of the step, the mask is what the step adds
  have target : castU blen (ordered be blen orig + stepBy minus j) =
      ordered be blen orig ^^^ ordered be blen (lowBits n <<< sh) := by
    rw [← mask_eq, ordered_xor whole, adjusted, ordered_ordered whole, ← BitVec.xor_assoc,
      BitVec.xor_self, BitVec.zero_xor]
  rw [xor_eq_add, ← ordered_and whole, and_lowBits] at target
  have added := congrArg (castU blen) target
  rw [castU_castU] at added
  have step := castU_add_right (d := -ordered be blen orig) small added
  rw [← BitVec.add_assoc, ← BitVec.add_assoc, BitVec.add_left_neg, BitVec.zero_add,
    BitVec.zero_add] at step
  have narrow : 2 ^ n ≤ 16 := by
    have widths : ∀ bits ∈ crossingBits, 2 ^ bits.1 ≤ 16 := by decide
    exact widths _ member
  obtain ⟨rfl, only, met⟩ := crossing_steps (n, sh) member blen listed be
    (by cases be <;> decide) _ (Nat.lt_of_lt_of_le (Nat.mod_lt _ (Nat.two_pow_pos n)) narrow) inside
    (withinArithMax_of_stepBy small bound step)
  obtain ⟨rfl, rfl⟩ := Prod.mk.inj only
  refine ⟨?_, met⟩
  by_contra wide
  obtain rfl : blen = 4 := by
    simp only [List.mem_cons, List.not_mem_nil, or_false] at listed
    omega
  -- the low half overflows, so that its high bits are all set or all clear
  have limit : j ≤ 35 := bound
  rw [show ordered false 4 orig = orig from fits] at carries
  cases minus with
  | false =>
    have high : 256 ^ 2 ≤ orig.toNat % 256 ^ 2 + j := by
      simpa [Overflows, toNat_castU] using carries
    omega
  | true =>
    have low : orig.toNat % 256 ^ 2 < j := by
      simpa [Overflows, toNat_castU] using carries
    omega

/-- The two kinds of words that the stage of 16-bit arithmetics changes by a crossing mask. -/
theorem crosses_of_bits {orig : BitVec 32} (fits : castU 2 orig = orig)
    (met : orig.toNat / 32 % 16 = 7 ∨ orig.toNat / 32 % 16 = 8) :
    ∃ minus, Overflows minus 1 (ordered false 2 orig) 32 ∧
      orig ^^^ adjusted false 2 orig minus 32 ∈ crossingMasks := by
  have le : ordered false 2 orig = orig := fits
  have bits := and_lowBits orig 4 5
  have shape : orig ^^^ lowBits 4 <<< 5 = orig + maskStep (lowBits 4 <<< 5) (orig &&& lowBits 4 <<< 5) :=
    xor_eq_add orig _
  have narrow : castU 2 (orig ^^^ lowBits 4 <<< 5) = orig ^^^ lowBits 4 <<< 5 := by
    rw [castU_xor, fits]
    rfl
  have back {minus : Bool} (step : maskStep (lowBits 4 <<< 5) (orig &&& lowBits 4 <<< 5) =
      stepBy minus 32) : orig ^^^ adjusted false 2 orig minus 32 = lowBits 4 <<< 5 := by
    rw [adjusted, le, ← step, ← shape,
      show ordered false 2 (orig ^^^ lowBits 4 <<< 5) = castU 2 (orig ^^^ lowBits 4 <<< 5) from rfl,
      narrow, ← BitVec.xor_assoc, BitVec.xor_self, BitVec.zero_xor]
  have known : lowBits 4 <<< 5 ∈ crossingMasks := by decide
  rcases met with seven | eight
  · refine ⟨false, ?_, ?_⟩
    · show 256 ^ 1 ≤ (castU 1 (ordered false 2 orig)).toNat + 32
      rw [le, toNat_castU]
      omega
    · have step : maskStep (lowBits 4 <<< 5) (orig &&& lowBits 4 <<< 5) = stepBy false 32 := by
        rw [bits, show orig.toNat / 2 ^ 5 % 2 ^ 4 = 7 from seven]
        rfl
      rw [back step]
      exact known
  · refine ⟨true, ?_, ?_⟩
    · show (castU 1 (ordered false 2 orig)).toNat < 32
      rw [le, toNat_castU]
      omega
    · have step : maskStep (lowBits 4 <<< 5) (orig &&& lowBits 4 <<< 5) = stepBy true 32 := by
        rw [bits, show orig.toNat / 2 ^ 5 % 2 ^ 4 = 8 from eight]
        rfl
      rw [back step]
      exact known

end

end Swam.Afl
