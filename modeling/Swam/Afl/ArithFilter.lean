import Swam.Afl.AdjustedWords

/-!
# What `could_be_arith` skips

The arithmetic stages try a word only where the carry leaves its low half. The other adjustments
are those of the low half, which a stage before has tried.
-/
namespace Swam.Afl

open Lib

/-! ## The trials of the arithmetic stages -/

/-- A trial of the stages of 16- and 32-bit arithmetics. -/
def wordTrial (filters : Bool) (blen : Nat) (orig : BitVec 32) (j : Nat) (be minus : Bool) :
    Bool × BitVec 32 :=
  (decide (Overflows minus (blen / 2) (ordered be blen orig) j) &&
      !(filters && couldBeBitflip (orig ^^^ adjusted be blen orig minus j)),
    adjusted be blen orig minus j)

section
variable {filters : Bool} {orig : BitVec 32} {j : Nat}

theorem arithTrials_eq {blen most : Nat} {swap low lowBE : BitVec 32 → BitVec 32}
    (fits : castU blen orig = orig) (swaps : ∀ x, swap x = ordered true blen x)
    (lows : low orig = castU (blen / 2) orig) (lowsBE : lowBE orig = castU (blen / 2) (swap orig))
    (bound : most + 1 = 256 ^ (blen / 2)) :
    DetRun.arithTrials blen swap low lowBE most filters orig j =
      [wordTrial filters blen orig j false false, wordTrial filters blen orig j false true,
        wordTrial filters blen orig j true false, wordTrial filters blen orig j true true] := by
  have le : ordered false blen orig = orig := fits
  have cast (x : BitVec 32) : ordered false blen x = castU blen x := rfl
  have carries (n : Nat) : n > most ↔ 256 ^ (blen / 2) ≤ n := by omega
  simp only [DetRun.arithTrials, wordTrial, adjusted, Overflows, stepBy, swaps, lows, lowsBE, le,
    cast, carries, BitVec.sub_eq_add_neg, Bool.false_eq_true, if_true, if_false]

theorem and_low_byte (x : BitVec 32) : x &&& 0xff = castU 1 x := by
  have mask : ∀ j < 4, nthByte (0xff : BitVec 32) j = if j < 1 then 0xFF else 0 := by decide
  apply eq_of_nthByte (m := 4) (by decide)
  intro j bound
  rw [nthByte_and, mask j bound, nthByte_castU]
  split
  · exact BitVec.and_allOnes
  · exact BitVec.and_zero

theorem and_low_half (x : BitVec 32) : x &&& 0xffff = castU 2 x := by
  have mask : ∀ j < 4, nthByte (0xffff : BitVec 32) j = if j < 2 then 0xFF else 0 := by decide
  apply eq_of_nthByte (m := 4) (by decide)
  intro j bound
  rw [nthByte_and, mask j bound, nthByte_castU]
  split
  · exact BitVec.and_allOnes
  · exact BitVec.and_zero

theorem high_byte_eq (fits : castU 2 orig = orig) : orig >>> 8 = castU 1 (swap16 orig) := by
  apply eq_of_nthByte (m := 4) (by decide)
  intro j _
  rw [show orig >>> 8 = orig >>> (8 * 1) from rfl, nthByte_ushiftRight, nthByte_castU, nthByte_swap16]
  by_cases low : j < 1
  · rw [if_pos low, if_pos (by omega)]
    congr 1
    omega
  · rw [if_neg low, nthByte_fits fits (by omega)]

theorem mem_arith16Trials (fits : castU 2 orig = orig) {trial : Bool × BitVec 32} :
    trial ∈ DetRun.arith16Trials filters orig j ↔
      ∃ be minus, trial = wordTrial filters 2 orig j be minus := by
  have trials : DetRun.arith16Trials filters orig j = _ :=
    arithTrials_eq fits (fun _ => rfl) (and_low_byte orig) (high_byte_eq fits) rfl
  rw [trials]
  simp only [List.mem_cons, List.not_mem_nil, or_false, Bool.exists_bool, or_assoc]

theorem mem_arith32Trials {trial : Bool × BitVec 32} :
    trial ∈ DetRun.arith32Trials filters orig j ↔
      ∃ be minus, trial = wordTrial filters 4 orig j be minus := by
  have fits : castU 4 orig = orig := by
    apply eq_of_nthByte (m := 4) (by decide)
    intro t bound
    rw [nthByte_castU, if_pos bound]
  have trials : DetRun.arith32Trials filters orig j = _ :=
    arithTrials_eq fits (fun _ => rfl) (and_low_half orig) (and_low_half (swap32 orig)) rfl
  rw [trials]
  simp only [List.mem_cons, List.not_mem_nil, or_false, Bool.exists_bool, or_assoc]

/-- One byte: no carry is asked for. -/
theorem mem_arith8Trials (fits : castU 1 orig = orig) {trial : Bool × BitVec 32} :
    trial ∈ DetRun.arith8Trials filters orig j ↔
      ∃ minus, trial = (!(filters && couldBeBitflip (orig ^^^ adjusted false 1 orig minus j)),
        adjusted false 1 orig minus j) := by
  have le : ordered false 1 orig = orig := fits
  have cast (x : BitVec 32) : ordered false 1 x = castU 1 x := rfl
  simp only [DetRun.arith8Trials, adjusted, stepBy, le, cast, BitVec.sub_eq_add_neg, List.mem_cons,
    List.not_mem_nil, or_false, Bool.exists_bool, Bool.false_eq_true, if_true, if_false]

end

/-! ## The arithmetic stages -/

/-- The seed with one word adjusted by a trial of an arithmetic stage. -/
def AdjustsWord (filters : Bool) (blen : Nat) (buf out : List Byte) : Prop :=
  ∃ i, i + blen ≤ buf.length ∧ ∃ be minus, ∃ j, 0 < j ∧ j ≤ arithMax ∧
    (1 < blen → Overflows minus (blen / 2) (ordered be blen (loadWord blen buf i)) j) ∧
    (filters = true → couldBeBitflip (loadWord blen buf i ^^^
      adjusted be blen (loadWord blen buf i) minus j) = false) ∧
    out = storeWord blen buf i (adjusted be blen (loadWord blen buf i) minus j)

theorem mem_upToArithMax {trials : BitVec 32 → Nat → List (Bool × BitVec 32)} {orig : BitVec 32}
    {trial : Bool × BitVec 32} :
    trial ∈ upToArithMax trials orig ↔ ∃ j, 0 < j ∧ j ≤ arithMax ∧ trial ∈ trials orig j := by
  simp only [upToArithMax, List.mem_flatMap, List.mem_range]
  constructor
  · rintro ⟨j, bound, member⟩
    exact ⟨j + 1, Nat.succ_pos j, bound, member⟩
  · rintro ⟨j, pos, bound, member⟩
    exact ⟨j - 1, by omega, by rw [Nat.sub_add_cancel pos]; exact member⟩

theorem kept_iff {filters skipped : Bool} :
    (!(filters && skipped)) = true ↔ (filters = true → skipped = false) := by
  cases filters <;> cases skipped <;> decide

section
variable {filters : Bool} {buf out : List Byte}

theorem adjustsWord_one_iff :
    Replaces 1 (upToArithMax (DetRun.arith8Trials filters)) buf out ↔
      AdjustsWord filters 1 buf out := by
  refine exists_congr fun i => and_congr_right fun _ => ?_
  have fits : castU 1 (loadWord 1 buf i) = loadWord 1 buf i := castU_loadWord (by decide)
  constructor
  · rintro ⟨trial, member, tried, rfl⟩
    obtain ⟨j, pos, bound, member⟩ := mem_upToArithMax.mp member
    obtain ⟨minus, rfl⟩ := (mem_arith8Trials fits).mp member
    exact ⟨false, minus, j, pos, bound, fun wide => absurd wide (by decide),
      kept_iff.mp tried, rfl⟩
  · rintro ⟨be, minus, j, pos, bound, _, kept, rfl⟩
    -- the two byte orders are one
    have same (x : BitVec 32) : ordered be 1 x = ordered false 1 x := by cases be <;> rfl
    simp only [adjusted, same] at kept ⊢
    exact ⟨_, mem_upToArithMax.mpr ⟨j, pos, bound, (mem_arith8Trials fits).mpr ⟨minus, rfl⟩⟩,
      kept_iff.mpr kept, rfl⟩

theorem adjustsWord_iff {blen : Nat} (wide : 1 < blen)
    {trials : BitVec 32 → Nat → List (Bool × BitVec 32)}
    (known : ∀ i j trial, trial ∈ trials (loadWord blen buf i) j ↔
      ∃ be minus, trial = wordTrial filters blen (loadWord blen buf i) j be minus) :
    Replaces blen (upToArithMax trials) buf out ↔ AdjustsWord filters blen buf out := by
  refine exists_congr fun i => and_congr_right fun _ => ?_
  constructor
  · rintro ⟨trial, member, tried, rfl⟩
    obtain ⟨j, pos, bound, member⟩ := mem_upToArithMax.mp member
    obtain ⟨be, minus, rfl⟩ := (known i j trial).mp member
    have parts := Bool.and_eq_true_iff.mp tried
    exact ⟨be, minus, j, pos, bound, fun _ => of_decide_eq_true parts.1,
      kept_iff.mp parts.2, rfl⟩
  · rintro ⟨be, minus, j, pos, bound, carries, kept, rfl⟩
    refine ⟨_, mem_upToArithMax.mpr ⟨j, pos, bound, (known i j _).mpr ⟨be, minus, rfl⟩⟩, ?_, rfl⟩
    exact Bool.and_eq_true_iff.mpr ⟨decide_eq_true (carries wide), kept_iff.mpr kept⟩

/-- The three stages are one, at three widths. -/
theorem adjusts_iff :
    Adjusts filters buf out ↔ ∃ blen ∈ [1, 2, 4], AdjustsWord filters blen buf out := by
  have word : Replaces 2 (upToArithMax (DetRun.arith16Trials filters)) buf out ↔
      AdjustsWord filters 2 buf out :=
    adjustsWord_iff (by decide) fun i j trial =>
      mem_arith16Trials (castU_loadWord (by decide))
  have quad : Replaces 4 (upToArithMax (DetRun.arith32Trials filters)) buf out ↔
      AdjustsWord filters 4 buf out :=
    adjustsWord_iff (by decide) fun i j trial => mem_arith32Trials
  simp only [Adjusts, adjustsWord_one_iff, word, quad, List.mem_cons, List.not_mem_nil, or_false,
    exists_eq_or_imp, exists_eq_left]

/-- What no carry lets a stage try, the stage of half the width has tried. -/
theorem adjusts_of_adjusted {blen : Nat} (listed : blen ∈ [1, 2, 4])
    (adjusts : Adjusted blen buf out) : Adjusts false buf out := by
  have one {out : List Byte} (adjusts : Adjusted 1 buf out) : Adjusts false buf out := by
    obtain ⟨i, inside, be, minus, j, pos, bound, rfl⟩ := adjusts
    exact adjusts_iff.mpr ⟨1, by decide, i, inside, be, minus, j, pos, bound,
      fun wide => absurd wide (by decide), nofun, rfl⟩
  have wider {blen : Nat} {out : List Byte} (listed : blen ∈ [2, 4])
      (adjusts : Adjusted blen buf out) :
      Adjusts false buf out ∨ Adjusted (blen / 2) buf out := by
    obtain ⟨i, inside, be, minus, j, pos, bound, rfl⟩ := adjusts
    by_cases carries : Overflows minus (blen / 2) (ordered be blen (loadWord blen buf i)) j
    · exact .inl (adjusts_iff.mpr ⟨blen, List.mem_cons_of_mem _ listed, i, inside, be, minus, j, pos,
        bound, fun _ => carries, nofun, rfl⟩)
    · have fits := lowHalf_le be blen
      exact .inr ⟨i + lowHalf be blen, by omega, be, minus, j, pos, bound,
        storeWord_adjusted_half listed inside bound carries⟩
  simp only [List.mem_cons, List.not_mem_nil, or_false] at listed
  rcases listed with rfl | rfl | rfl
  · exact one adjusts
  · exact (wider (by decide) adjusts).elim id one
  · exact (wider (by decide) adjusts).elim id fun half => (wider (by decide) half).elim id one

end

/-! ## The filter -/

/-- Part `t` of a word, of `size` bytes. -/
def part (size : Nat) (x : BitVec 32) (t : Nat) : BitVec 32 := castU size (x >>> (8 * size * t))

theorem nthByte_part (size : Nat) (x : BitVec 32) (t : Nat) {j : Nat} (low : j < size) :
    nthByte (part size x t) j = nthByte x (size * t + j) := by
  rw [part, nthByte_castU, if_pos low, Nat.mul_assoc, nthByte_ushiftRight, Nat.add_comm]

/-- If one part differs, it is the one that is reported. -/
theorem differing_spec (oldVal newVal : BitVec 32) (size count : Nat) :
    ((differing oldVal newVal size count).1 = 0 →
      ∀ t < count, part size oldVal t = part size newVal t) ∧
    ((differing oldVal newVal size count).1 = 1 →
      ∃ t < count, part size oldVal t ≠ part size newVal t ∧
        (differing oldVal newVal size count).2 = (part size oldVal t, part size newVal t) ∧
        ∀ u < count, u ≠ t → part size oldVal u = part size newVal u) := by
  induction count with
  | zero => exact ⟨fun _ t bound => absurd bound (Nat.not_lt_zero t), nofun⟩
  | succ count ih =>
    obtain ⟨none, one⟩ := ih
    have step : differing oldVal newVal size (count + 1) =
        if part size oldVal count ≠ part size newVal count then
          ((differing oldVal newVal size count).1 + 1, part size oldVal count,
            part size newVal count)
        else differing oldVal newVal size count := by
      simp only [differing, List.range_succ, List.foldl_append, List.foldl_cons, List.foldl_nil]
      rfl
    rw [step]
    by_cases differs : part size oldVal count ≠ part size newVal count
    · rw [if_pos differs]
      refine ⟨nofun, fun single => ⟨count, Nat.lt_succ_self _, differs, rfl, fun u bound other => ?_⟩⟩
      exact none (by simpa using single) u (by omega)
    · rw [if_neg differs]
      have same := not_not.mp differs
      refine ⟨fun zero t bound => ?_, fun single => ?_⟩
      · rcases Nat.lt_succ_iff_lt_or_eq.mp bound with before | rfl
        · exact none zero t before
        · exact same
      · obtain ⟨t, bound, differ, reported, others⟩ := one single
        refine ⟨t, by omega, differ, reported, fun u below other => ?_⟩
        rcases Nat.lt_succ_iff_lt_or_eq.mp below with before | rfl
        · exact others u before other
        · exact same

/-- A difference within `ARITH_MAX` is an adjustment. -/
theorem step_of_withinArithMax {size : Nat} (small : size ≤ 4) {ov nv : BitVec 32}
    (differ : castU size ov ≠ castU size nv) (within : withinArithMax size ov nv = true) :
    ∃ minus, ∃ j, 0 < j ∧ j ≤ arithMax ∧ castU size nv = castU size (ov + stepBy minus j) := by
  -- the difference is the word that holds its value
  have holds (x : BitVec 32) : castU size (BitVec.ofNat 32 (castU size x).toNat) = castU size x := by
    rw [BitVec.ofNat_toNat, BitVec.setWidth_eq, castU_castU]
  have positive {x y : BitVec 32} (other : castU size x ≠ castU size y) :
      0 < (castU size (y - x)).toNat := by
    apply Nat.pos_of_ne_zero
    intro zero
    have none : castU size (y - x) = castU size 0 := by
      apply BitVec.eq_of_toNat_eq
      rw [zero]
      simp [castU]
    have sum := castU_add_right (d := x) small none
    rw [show x + (y - x) = y by bv_omega, show x + 0 = x from BitVec.add_zero x] at sum
    exact other sum.symm
  rcases of_decide_eq_true within with below | above
  · refine ⟨true, _, positive differ.symm, below, ?_⟩
    have step := castU_add_right (d := ov) small (castU_neg small (holds (ov - nv)))
    rw [show stepBy true _ = -BitVec.ofNat 32 _ from rfl, step]
    congr 1
    bv_omega
  · refine ⟨false, _, positive differ, above, ?_⟩
    have step := castU_add_right (d := ov) small (holds (nv - ov))
    rw [show stepBy false _ = BitVec.ofNat 32 _ from rfl, step]
    congr 1
    bv_omega

theorem withinArithMax_castU {size : Nat} (small : size ≤ 4) (ov nv : BitVec 32) :
    withinArithMax size (ordered false size ov) (ordered false size nv) =
      withinArithMax size ov nv := by
  have difference (x y : BitVec 32) :
      castU size (ordered false size x - ordered false size y) = castU size (x - y) := by
    rw [BitVec.sub_eq_add_neg, BitVec.sub_eq_add_neg,
      castU_add_left small (show castU size (ordered false size x) = castU size x from castU_castU),
      castU_add_right small (castU_neg small
        (show castU size (ordered false size y) = castU size y from castU_castU))]
  rw [withinArithMax, withinArithMax, difference, difference]

theorem adjusted_of_withinArithMax {size : Nat} (listed : size ∈ [1, 2, 4]) {be : Bool}
    {ov nv : BitVec 32} (fits : castU size ov = ov) (fits' : castU size nv = nv) (differ : ov ≠ nv)
    (within : withinArithMax size (ordered be size ov) (ordered be size nv) = true) :
    ∃ minus, ∃ j, 0 < j ∧ j ≤ arithMax ∧ nv = adjusted be size ov minus j := by
  have small := (width_bounds listed).2
  have other : castU size (ordered be size ov) ≠ castU size (ordered be size nv) := by
    intro same
    rw [castU_ordered listed, castU_ordered listed] at same
    have back := congrArg (ordered be size) same
    rw [ordered_ordered listed, ordered_ordered listed, fits, fits'] at back
    exact differ back
  obtain ⟨minus, j, pos, bound, sum⟩ := step_of_withinArithMax small other within
  refine ⟨minus, j, pos, bound, ?_⟩
  rw [castU_ordered listed] at sum
  have back := congrArg (ordered be size) sum
  rw [ordered_ordered listed, fits', ordered_castU listed] at back
  exact back

section
variable {buf : List Byte} {blen i : Nat} {v : BitVec 32}

/-- An adjusted part, the others being as they were. -/
theorem adjusted_of_part (small : blen ≤ 4) (inside : i + blen ≤ buf.length) {size t : Nat}
    (listed : size ∈ [1, 2, 4]) (within : size * t + size ≤ blen)
    (others : ∀ u, size * u + size ≤ blen → u ≠ t →
      part size (loadWord blen buf i) u = part size v u)
    (divides : size ∣ blen) {be minus : Bool} {j : Nat} (pos : 0 < j) (bound : j ≤ arithMax)
    (sum : part size v t = adjusted be size (part size (loadWord blen buf i) t) minus j) :
    Adjusted size buf (storeWord blen buf i v) := by
  have whole : loadWord size buf (i + size * t) = part size (loadWord blen buf i) t := by
    apply eq_of_nthByte (m := 4) (by decide)
    intro u _
    by_cases low : u < size
    · rw [nthByte_part _ _ _ low, nthByte_loadWord_within small within low]
    · rw [nthByte_loadWord (width_bounds listed).2, if_neg low, part, nthByte_castU, if_neg low]
  refine ⟨i + size * t, by omega, be, minus, j, pos, bound, ?_⟩
  rw [whole, ← sum]
  refine storeWord_narrow small inside within (fun u low outside => ?_) fun u low =>
    nthByte_part size v t low
  have unit := (width_bounds listed).1
  have place := Nat.div_add_mod u size
  have below := Nat.mod_lt u unit
  obtain ⟨count, rfl⟩ := divides
  have room : size * (u / size + 1) ≤ size * count :=
    Nat.mul_le_mul_left _ (Nat.div_lt_of_lt_mul low)
  have other : u / size ≠ t := by
    rintro rfl
    omega
  have same := congrArg (nthByte · (u % size)) (others (u / size) (by rw [← Nat.mul_succ]; exact room)
    other)
  simp only [nthByte_part _ _ _ below, place] at same
  exact same.symm

theorem part_castU {size t : Nat} {x : BitVec 32} : castU size (part size x t) = part size x t :=
  castU_castU

/-- The only part that differs, within `ARITH_MAX` in some order. -/
theorem adjusted_of_differing (small : blen ≤ 4) (inside : i + blen ≤ buf.length) {size count : Nat}
    (listed : size ∈ [1, 2, 4]) (whole : size * count = blen)
    (one : (differing (loadWord blen buf i) v size count).1 = 1) {be : Bool}
    (within : withinArithMax size
      (ordered be size (differing (loadWord blen buf i) v size count).2.1)
      (ordered be size (differing (loadWord blen buf i) v size count).2.2) = true) :
    Adjusted size buf (storeWord blen buf i v) := by
  obtain ⟨t, bound, differ, reported, others⟩ :=
    (differing_spec (loadWord blen buf i) v size count).2 one
  rw [reported] at within
  obtain ⟨minus, j, pos, step, sum⟩ :=
    adjusted_of_withinArithMax listed part_castU part_castU differ within
  subst whole
  have unit := (width_bounds listed).1
  have room {u : Nat} (below : u < count) : size * u + size ≤ size * count :=
    Nat.mul_le_mul_left size below
  refine adjusted_of_part small inside listed (room bound) (fun u fits other => ?_)
    (Nat.dvd_mul_right size count) pos step sum
  have below : u < count := Nat.lt_of_mul_lt_mul_left (a := size) (by omega)
  exact others u below other

/-- What `could_be_arith` skips is the old word or an adjusted one. -/
theorem adjusted_of_couldBeArith (listed : blen ∈ [1, 2, 4]) (inside : i + blen ≤ buf.length)
    (fits : castU blen v = v) (could : couldBeArith (loadWord blen buf i) v blen = true) :
    loadWord blen buf i = v ∨ ∃ size ∈ [1, 2, 4], Adjusted size buf (storeWord blen buf i v) := by
  have small := (width_bounds listed).2
  by_cases same : loadWord blen buf i = v
  · exact .inl same
  right
  have expand : couldBeArith (loadWord blen buf i) v blen =
      if loadWord blen buf i = v then true
      else if (differing (loadWord blen buf i) v 1 blen).1 = 1 ∧
          withinArithMax 1 (differing (loadWord blen buf i) v 1 blen).2.1
            (differing (loadWord blen buf i) v 1 blen).2.2 then true
      else if blen = 1 then false
      else if (differing (loadWord blen buf i) v 2 (blen / 2)).1 = 1 ∧
          (withinArithMax 2 (differing (loadWord blen buf i) v 2 (blen / 2)).2.1
              (differing (loadWord blen buf i) v 2 (blen / 2)).2.2 ∨
            withinArithMax 2 (swap16 (differing (loadWord blen buf i) v 2 (blen / 2)).2.1)
              (swap16 (differing (loadWord blen buf i) v 2 (blen / 2)).2.2)) then true
      else if blen = 4 then
        withinArithMax 4 (loadWord blen buf i) v ∨
          withinArithMax 4 (swap32 (loadWord blen buf i)) (swap32 v)
      else false := rfl
  rw [expand, if_neg same] at could
  split at could
  next byte =>
    exact ⟨1, by decide, adjusted_of_differing small inside (by decide) (Nat.one_mul blen) byte.1
      ((withinArithMax_castU (by decide) _ _).trans byte.2)⟩
  next =>
    split at could
    next => exact absurd could (by decide)
    next wide =>
      have halves : 2 * (blen / 2) = blen := by
        simp only [List.mem_cons, List.not_mem_nil, or_false] at listed
        omega
      split at could
      next half =>
        refine ⟨2, by decide, ?_⟩
        rcases half.2 with le | be
        · exact adjusted_of_differing small inside (by decide) halves half.1
            ((withinArithMax_castU (by decide) _ _).trans le)
        · exact @adjusted_of_differing _ _ _ _ small inside _ _ (by decide) halves half.1 true be
      next =>
        split at could
        next quad =>
          subst quad
          have step (be : Bool) (within : withinArithMax 4 (ordered be 4 (loadWord 4 buf i))
              (ordered be 4 v) = true) : Adjusted 4 buf (storeWord 4 buf i v) := by
            obtain ⟨minus, j, pos, bound, sum⟩ :=
              adjusted_of_withinArithMax (by decide) (castU_loadWord (by decide)) fits same within
            exact ⟨i, inside, be, minus, j, pos, bound, by rw [← sum]⟩
          rcases of_decide_eq_true could with le | be
          · exact ⟨4, by decide, step false ((withinArithMax_castU (by decide) _ _).trans le)⟩
          · exact ⟨4, by decide, step true be⟩
        next => exact absurd could (by decide)

end

end Swam.Afl
