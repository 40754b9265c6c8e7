import Swam.Afl.FlipMasks
import Mathlib.Tactic.IntervalCases

/-!
# Words within words

`could_be_arith` and `could_be_interest` ask whether a new word comes from a step of this or a
smaller width, in one of the two byte orders. Written into the buffer, such a word is what that
step writes.
-/
namespace Swam.Afl

open Lib

/-! ## Byte orders -/

theorem nthByte_swap16 (x : BitVec 32) (j : Nat) :
    nthByte (swap16 x) j = if j < 2 then nthByte x (1 - j) else 0 := by
  rw [swap16, nthByte_castU]
  refine if_ctx_congr Iff.rfl (fun low => ?_) fun _ => rfl
  have left : nthByte (castU 2 x <<< 8) j = if j < 1 then 0 else nthByte (castU 2 x) (j - 1) :=
    nthByte_shiftLeft _ 1 (by omega)
  have right : nthByte (castU 2 x >>> 8) j = nthByte (castU 2 x) (j + 1) := nthByte_ushiftRight _ 1 j
  rw [nthByte_or, left, right, nthByte_castU, nthByte_castU]
  interval_cases j <;> simp

theorem nthByte_beyond (x : BitVec 32) {j : Nat} (outside : 4 ≤ j) : nthByte x j = 0 := by
  apply BitVec.eq_of_getLsbD_eq
  intro t _
  rw [getLsbD_nthByte, BitVec.getLsbD_of_ge x _ (by omega)]
  simp

theorem nthByte_swap32 (x : BitVec 32) {j : Nat} (low : j < 4) :
    nthByte (swap32 x) j = nthByte x (3 - j) := by
  have left (m : Nat) := nthByte_shiftLeft x m (show 8 * (j + 1) ≤ 32 by omega)
  have right (m : Nat) := nthByte_ushiftRight x m j
  have masks : ∀ j < 4,
      nthByte (0x00FF0000 : BitVec 32) j = (if j = 2 then 0xFF else 0) ∧
        nthByte (0x0000FF00 : BitVec 32) j = (if j = 1 then 0xFF else 0) := by decide
  have top (m : Nat) (above : 4 ≤ m) := nthByte_beyond x above
  rw [swap32, nthByte_or, nthByte_or, nthByte_or, nthByte_and, nthByte_and, (masks j low).1,
    (masks j low).2, show x <<< 24 = x <<< (8 * 3) from rfl, show x >>> 24 = x >>> (8 * 3) from rfl,
    show x <<< 8 = x <<< (8 * 1) from rfl, show x >>> 8 = x >>> (8 * 1) from rfl, left, left, right,
    right]
  have whole (c : Byte) : c &&& 255#8 = c := BitVec.and_allOnes
  interval_cases j <;> simp [top, whole]

/-- A word read or written in little or in big endian order. -/
def ordered (be : Bool) (blen : Nat) (x : BitVec 32) : BitVec 32 :=
  match be, blen with
  | true, 2 => swap16 x
  | true, 4 => swap32 x
  | _, blen => castU blen x

/-- Where byte `j` of the one order stands in the other. -/
def lane (be : Bool) (blen j : Nat) : Nat := if be then blen - 1 - j else j

theorem nthByte_ordered {blen : Nat} (listed : blen ∈ [1, 2, 4]) (be : Bool) (x : BitVec 32)
    (j : Nat) :
    nthByte (ordered be blen x) j = if j < blen then nthByte x (lane be blen j) else 0 := by
  simp only [List.mem_cons, List.not_mem_nil, or_false] at listed
  cases be with
  | false =>
    rcases listed with rfl | rfl | rfl <;> exact nthByte_castU _ x j
  | true =>
    rcases listed with rfl | rfl | rfl
    · rw [show ordered true 1 x = castU 1 x from rfl, nthByte_castU]
      refine if_ctx_congr Iff.rfl (fun low => ?_) fun _ => rfl
      rw [show j = 0 by omega]
      rfl
    · exact nthByte_swap16 x j
    · by_cases low : j < 4
      · rw [if_pos low]
        exact nthByte_swap32 x low
      · rw [if_neg low, nthByte_beyond _ (by omega)]

theorem lane_lt {be : Bool} {blen j : Nat} (inside : j < blen) : lane be blen j < blen := by
  rw [lane]
  split <;> omega

theorem lane_lane {be : Bool} {blen j : Nat} (inside : j < blen) :
    lane be blen (lane be blen j) = j := by
  cases be
  · rfl
  · show blen - 1 - (blen - 1 - j) = j
    omega

section
variable {blen : Nat} {be : Bool} {x y : BitVec 32}

theorem castU_eq_of_nthByte (same : ∀ j < blen, nthByte x j = nthByte y j) :
    castU blen x = castU blen y := by
  apply eq_of_nthByte (m := 4) (by decide)
  intro j _
  rw [nthByte_castU, nthByte_castU]
  exact if_ctx_congr Iff.rfl (same j) fun _ => rfl

theorem nthByte_eq_of_castU (same : castU blen x = castU blen y) {j : Nat} (inside : j < blen) :
    nthByte x j = nthByte y j := by
  have here := congrArg (nthByte · j) same
  simp only [nthByte_castU, if_pos inside] at here
  exact here

@[simp] theorem castU_castU : castU blen (castU blen x) = castU blen x := by
  apply eq_of_nthByte (m := 4) (by decide)
  intro j _
  rw [nthByte_castU, nthByte_castU]
  split <;> rfl

theorem castU_ordered (listed : blen ∈ [1, 2, 4]) :
    castU blen (ordered be blen x) = ordered be blen x := by
  apply eq_of_nthByte (m := 4) (by decide)
  intro j _
  rw [nthByte_castU, nthByte_ordered listed]
  split <;> rfl

theorem ordered_castU (listed : blen ∈ [1, 2, 4]) :
    ordered be blen (castU blen x) = ordered be blen x := by
  apply eq_of_nthByte (m := 4) (by decide)
  intro j _
  rw [nthByte_ordered listed, nthByte_ordered listed]
  refine if_ctx_congr Iff.rfl (fun inside => ?_) fun _ => rfl
  rw [nthByte_castU, if_pos (lane_lt inside)]

theorem ordered_ordered (listed : blen ∈ [1, 2, 4]) :
    ordered be blen (ordered be blen x) = castU blen x := by
  apply eq_of_nthByte (m := 4) (by decide)
  intro j _
  rw [nthByte_ordered listed, nthByte_castU]
  refine if_ctx_congr Iff.rfl (fun inside => ?_) fun _ => rfl
  rw [nthByte_ordered listed, if_pos (lane_lt inside), lane_lane inside]

theorem castU_loadWord (small : blen ≤ 4) {buf : List Byte} {i : Nat} :
    castU blen (loadWord blen buf i) = loadWord blen buf i := by
  apply eq_of_nthByte (m := 4) (by decide)
  intro j _
  rw [nthByte_castU, nthByte_loadWord small]
  split <;> rfl

end

/-! ## Adding within a width -/

section
variable {blen : Nat} {x y d : BitVec 32}

theorem castU_eq_iff :
    castU blen x = castU blen y ↔ x.setWidth (8 * blen) = y.setWidth (8 * blen) := by
  constructor
  · intro same
    apply BitVec.eq_of_getLsbD_eq
    intro t bound
    have here := congrArg (·.getLsbD t) same
    simp only [getLsbD_castU, decide_eq_true bound, Bool.true_and] at here
    simpa [bound] using here
  · exact fun same => congrArg (BitVec.setWidth 32) same

theorem castU_add_left (small : blen ≤ 4) (same : castU blen x = castU blen y) :
    castU blen (x + d) = castU blen (y + d) := by
  rw [castU_eq_iff] at same ⊢
  rw [BitVec.setWidth_add _ _ (by omega), BitVec.setWidth_add _ _ (by omega), same]

theorem castU_add_right (small : blen ≤ 4) (same : castU blen x = castU blen y) :
    castU blen (d + x) = castU blen (d + y) := by
  rw [BitVec.add_comm d x, BitVec.add_comm d y]
  exact castU_add_left small same

theorem castU_neg (small : blen ≤ 4) (same : castU blen x = castU blen y) :
    castU blen (-x) = castU blen (-y) := by
  rw [castU_eq_iff] at same ⊢
  rw [BitVec.setWidth_neg_of_le (by omega), BitVec.setWidth_neg_of_le (by omega), same]

theorem toNat_castU : (castU blen x).toNat = x.toNat % 256 ^ blen := by
  have power : 2 ^ (8 * blen) = 256 ^ blen := by rw [Nat.pow_mul]
  have inside : x.toNat % 256 ^ blen < 2 ^ 32 :=
    Nat.lt_of_le_of_lt (Nat.mod_le _ _) x.isLt
  rw [castU, BitVec.toNat_setWidth, BitVec.toNat_setWidth, power, Nat.mod_eq_of_lt inside]

end

/-- `+ j` or `- j`. -/
def stepBy (minus : Bool) (j : Nat) : BitVec 32 :=
  if minus then -BitVec.ofNat 32 j else BitVec.ofNat 32 j

/-- The carry or borrow leaves the low `half` bytes. -/
def Overflows (minus : Bool) (half : Nat) (x : BitVec 32) (j : Nat) : Prop :=
  if minus then (castU half x).toNat < j else 256 ^ half ≤ (castU half x).toNat + j

instance (minus : Bool) (half : Nat) (x : BitVec 32) (j : Nat) :
    Decidable (Overflows minus half x j) := by
  unfold Overflows
  infer_instance

/-- Without a carry only the low bytes change. -/
theorem nthByte_add_stepBy {minus : Bool} {half : Nat} {x : BitVec 32} {j : Nat} (small : half ≤ 4)
    (step : j ≤ arithMax) (fine : ¬ Overflows minus half x j) {t : Nat} (high : half ≤ t) :
    nthByte (x + stepBy minus j) t = nthByte x t := by
  have size := x.isLt
  have unit : 0 < 256 ^ half := Nat.pow_pos (by decide)
  have parts := Nat.div_add_mod x.toNat (256 ^ half)
  have small_step : j ≤ 35 := step
  have value : (BitVec.ofNat 32 j).toNat = j := by
    rw [BitVec.toNat_ofNat, Nat.mod_eq_of_lt (by omega)]
  -- the new word has the old quotient and a remainder within bounds
  have remainder : ∃ r < 256 ^ half,
      (x + stepBy minus j).toNat = 256 ^ half * (x.toNat / 256 ^ half) + r := by
    cases minus with
    | false =>
      have fits : x.toNat % 256 ^ half + j < 256 ^ half := by
        simpa [Overflows, toNat_castU] using fine
      have whole : 2 ^ 32 = 256 ^ half * 256 ^ (4 - half) := by
        rw [← Nat.pow_add, Nat.add_sub_cancel' small]
        rfl
      have below : x.toNat / 256 ^ half < 256 ^ (4 - half) :=
        Nat.div_lt_of_lt_mul (by omega)
      have room : 256 ^ half * (x.toNat / 256 ^ half + 1) ≤ 2 ^ 32 := by
        rw [whole]
        exact Nat.mul_le_mul_left _ below
      refine ⟨x.toNat % 256 ^ half + j, fits, ?_⟩
      rw [show stepBy false j = BitVec.ofNat 32 j from rfl, BitVec.toNat_add, value,
        Nat.mod_eq_of_lt (by rw [Nat.mul_add] at room; omega)]
      omega
    | true =>
      have fits : j ≤ x.toNat % 256 ^ half := by
        simpa [Overflows, toNat_castU] using fine
      have below := Nat.mod_lt x.toNat unit
      refine ⟨x.toNat % 256 ^ half - j, by omega, ?_⟩
      rw [show stepBy true j = -BitVec.ofNat 32 j from rfl, ← BitVec.sub_eq_add_neg,
        BitVec.toNat_sub, value]
      omega
  obtain ⟨r, bound, sum⟩ := remainder
  have quotient : (x + stepBy minus j).toNat / 256 ^ half = x.toNat / 256 ^ half := by
    rw [sum, Nat.mul_add_div unit, Nat.div_eq_of_lt bound, Nat.add_zero]
  have split : 256 ^ t = 256 ^ half * 256 ^ (t - half) := by
    rw [← Nat.pow_add, Nat.add_sub_cancel' high]
  apply BitVec.eq_of_toNat_eq
  rw [toNat_nthByte, toNat_nthByte, split, ← Nat.div_div_eq_div_mul, ← Nat.div_div_eq_div_mul,
    quotient]

/-! ## Narrower stores -/

section
variable {buf : List Byte} {blen i : Nat}

/-- Where the words agree outside `m` bytes, storing these is enough. -/
theorem storeWord_narrow (small : blen ≤ 4) (inside : i + blen ≤ buf.length) {m s : Nat}
    (within : s + m ≤ blen) {v u : BitVec 32}
    (kept : ∀ j < blen, ¬ (s ≤ j ∧ j < s + m) → nthByte v j = nthByte (loadWord blen buf i) j)
    (same : ∀ j < m, nthByte u j = nthByte v (s + j)) :
    storeWord blen buf i v = storeWord m buf (i + s) u := by
  apply List.ext_getElem?
  intro p
  rw [getElem?_storeWord inside, getElem?_storeWord (by omega)]
  by_cases here : i ≤ p ∧ p < i + blen
  · rw [if_pos here]
    by_cases narrow : i + s ≤ p ∧ p < i + s + m
    · rw [if_pos narrow, same _ (by omega)]
      congr 2
      omega
    · rw [if_neg narrow, kept _ (by omega) (by omega), nthByte_loadWord small, if_pos (by omega),
        Nat.add_sub_cancel' here.1, cell_eq (by omega)]
  · rw [if_neg here, if_neg (by omega)]

theorem nthByte_loadWord_within (small : blen ≤ 4) {m s : Nat} (within : s + m ≤ blen) {j : Nat}
    (low : j < m) :
    nthByte (loadWord m buf (i + s)) j = nthByte (loadWord blen buf i) (s + j) := by
  rw [nthByte_loadWord (by omega), nthByte_loadWord small, if_pos low, if_pos (by omega),
    Nat.add_assoc]

end

/-! ## Adjusted words -/

/-- The word that adds or subtracts `j` in one of the byte orders. -/
def adjusted (be : Bool) (blen : Nat) (orig : BitVec 32) (minus : Bool) (j : Nat) : BitVec 32 :=
  ordered be blen (ordered be blen orig + stepBy minus j)

/-- The seed with some word adjusted, whether an arithmetic stage tries it or not. -/
def Adjusted (blen : Nat) (buf out : List Byte) : Prop :=
  ∃ i, i + blen ≤ buf.length ∧ ∃ be minus, ∃ j, 0 < j ∧ j ≤ arithMax ∧
    out = storeWord blen buf i (adjusted be blen (loadWord blen buf i) minus j)

/-- The byte at which the low half of a word begins. -/
def lowHalf (be : Bool) (blen : Nat) : Nat := if be then blen - blen / 2 else 0

theorem lowHalf_le (be : Bool) (blen : Nat) : lowHalf be blen + blen / 2 ≤ blen := by
  rw [lowHalf]
  split <;> omega

/-- An adjustment without a carry is one of the low half. -/
theorem storeWord_adjusted_half {blen i j : Nat} {buf : List Byte} {be minus : Bool}
    (listed : blen ∈ [2, 4]) (inside : i + blen ≤ buf.length) (step : j ≤ arithMax)
    (fine : ¬ Overflows minus (blen / 2) (ordered be blen (loadWord blen buf i)) j) :
    storeWord blen buf i (adjusted be blen (loadWord blen buf i) minus j) =
      storeWord (blen / 2) buf (i + lowHalf be blen)
        (adjusted be (blen / 2) (loadWord (blen / 2) buf (i + lowHalf be blen)) minus j) := by
  have widths : blen ∈ [1, 2, 4] ∧ blen / 2 ∈ [1, 2, 4] ∧ blen ≤ 4 := by
    revert listed
    simp only [List.mem_cons, List.not_mem_nil, or_false]
    omega
  obtain ⟨whole, half, small⟩ := widths
  have fits := lowHalf_le be blen
  -- the low half of the word is the word of half the width
  have low : castU (blen / 2) (ordered be blen (loadWord blen buf i)) =
      castU (blen / 2) (ordered be (blen / 2)
        (loadWord (blen / 2) buf (i + lowHalf be blen))) := by
    apply castU_eq_of_nthByte
    intro t bound
    rw [nthByte_ordered whole, nthByte_ordered half, if_pos (by omega), if_pos bound,
      nthByte_loadWord_within small fits (lane_lt bound)]
    congr 1
    simp only [lane, lowHalf]
    split <;> omega
  have sums := castU_add_left (d := stepBy minus j) (show blen / 2 ≤ 4 by omega) low
  refine storeWord_narrow small inside fits (fun t bound outside => ?_) fun t bound => ?_
  · rw [adjusted, nthByte_ordered whole, if_pos bound, nthByte_add_stepBy (by omega) step fine,
      nthByte_ordered whole, if_pos (lane_lt bound), lane_lane bound]
    revert outside
    simp only [lane, lowHalf]
    split <;> omega
  · rw [adjusted, adjusted, nthByte_ordered half, nthByte_ordered whole, if_pos bound,
      if_pos (by omega), ← nthByte_eq_of_castU sums (lane_lt bound)]
    congr 1
    simp only [lane, lowHalf]
    split <;> omega

end Swam.Afl
