import Swam.Afl.CrossingSteps
import Swam.Afl.InterestFilter

/-!
# What the filters lose

A mutation that a filter skips is executed by another step, unless its mask is one of two or four
adjacent bits that lie in two bytes: `could_be_bitflip` takes these for walking bits, which
number the bits of a byte the other way round. Without the arithmetic stages, an interesting byte
that is an adjustment is lost as well.
-/
namespace Swam.Afl

open Lib

/-- The buffers that are executed, but for the seed, are the same with the filters as without. -/
def FiltersLoseNothing (noArith : Bool) (skipEffMap buf : List Byte) : Prop :=
  ∀ out, out ≠ buf →
    (out ∈ (detStages true noArith skipEffMap buf).executed ↔
      out ∈ (detStages false noArith skipEffMap buf).executed)

/-- No trial of the stages of words changes its word by a crossing mask. -/
structure NoCrossing (buf : List Byte) : Prop where
  arith : ∀ i, i + 2 ≤ buf.length →
    loadWord 2 buf i &&& 0x1e0 ≠ 0x0e0 ∧ loadWord 2 buf i &&& 0x1e0 ≠ 0x100
  interest : ∀ blen ∈ [2, 4], ∀ i, i + blen ≤ buf.length → ∀ v ∈ interestingValues blen, ∀ be,
    loadWord blen buf i ^^^ ordered be blen v ∉ crossingMasks

/-- Every interesting byte that could be an adjustment could be a bit flip. -/
def AdjustmentsFlip (buf : List Byte) : Prop :=
  ∀ i, i + 1 ≤ buf.length → ∀ v ∈ interesting8,
    couldBeArith (loadWord 1 buf i) (castU 1 v) 1 = true →
      couldBeBitflip (loadWord 1 buf i ^^^ castU 1 v) = true

def NothingLost (noArith : Bool) (buf : List Byte) : Prop :=
  if noArith then AdjustmentsFlip buf else NoCrossing buf

section
variable {buf out : List Byte} {blen i : Nat} {be : Bool}

/-! ## Filtered steps -/

theorem AdjustsWord.unfiltered (adjusts : AdjustsWord true blen buf out) :
    AdjustsWord false blen buf out := by
  obtain ⟨i, inside, be, minus, j, pos, bound, carries, _, written⟩ := adjusts
  exact ⟨i, inside, be, minus, j, pos, bound, carries, nofun, written⟩

theorem InterestsAt.unfiltered (interests : InterestsAt true be blen buf out) :
    InterestsAt false be blen buf out := by
  obtain ⟨i, inside, v, known, other, _, written⟩ := interests
  exact ⟨i, inside, v, known, other, nofun, written⟩

theorem adjusts_unfiltered (adjusts : Adjusts true buf out) : Adjusts false buf out := by
  obtain ⟨blen, listed, adjusts⟩ := adjusts_iff.mp adjusts
  exact adjusts_iff.mpr ⟨blen, listed, adjusts.unfiltered⟩

theorem interestsByte_unfiltered (interests : InterestsByte true buf out) :
    InterestsByte false buf out :=
  interestsByte_iff.mpr (interestsByte_iff.mp interests).unfiltered

theorem interestsWord_unfiltered (interests : InterestsWord true buf out) :
    InterestsWord false buf out := by
  obtain ⟨blen, listed, be, interests⟩ := interestsWord_iff.mp interests
  exact interestsWord_iff.mpr ⟨blen, listed, be, interests.unfiltered⟩

theorem couldBeBitflip_of_skips {orig new : BitVec 32}
    (kept : skipsInterest be blen orig new = false) : couldBeBitflip (orig ^^^ new) = false := by
  simp only [skipsInterest, Bool.or_eq_false_iff] at kept
  exact kept.1.1

/-! ## Crossing masks are lost -/

theorem Crossing.not_adjusts (crossing : Crossing buf out) : ¬ Adjusts true buf out := by
  intro adjusts
  obtain ⟨blen, listed, i, inside, be, minus, j, _, _, _, kept, rfl⟩ := adjusts_iff.mp adjusts
  have flips := crossing.couldBeBitflip (width_bounds listed).2 inside (castU_ordered listed)
  exact absurd (flips.symm.trans (kept rfl)) (by decide)

theorem Crossing.not_interestsAt (listed : blen ∈ [1, 2, 4]) (crossing : Crossing buf out) :
    ¬ InterestsAt true be blen buf out := by
  rintro ⟨i, inside, v, _, _, kept, rfl⟩
  have flips := crossing.couldBeBitflip (width_bounds listed).2 inside (castU_ordered listed)
  exact absurd (flips.symm.trans (couldBeBitflip_of_skips (kept rfl))) (by decide)

/-- No step that passes the filters makes a crossing mask. -/
theorem Crossing.not_executed (crossing : Crossing buf out) {skipEffMap : List Byte}
    (marked : ∀ i < buf.length, bitmapRead skipEffMap i) (noArith : Bool) :
    out ∉ (detStages true noArith skipEffMap buf).executed := by
  rw [mem_detStages marked]
  rintro (same | flips | byte | ⟨_, adjusts | word⟩)
  · exact crossing.ne same
  · exact crossing.not_flips flips
  · exact crossing.not_interestsAt (by decide) (interestsByte_iff.mp byte)
  · exact crossing.not_adjusts adjusts
  · obtain ⟨blen, listed, be, interests⟩ := interestsWord_iff.mp word
    exact crossing.not_interestsAt (List.mem_cons_of_mem _ listed) interests

/-- The bits 5 to 8 of a word. -/
theorem met_iff (x : BitVec 32) :
    (x &&& 0x1e0 = 0x0e0 ↔ x.toNat / 32 % 16 = 7) ∧ (x &&& 0x1e0 = 0x100 ↔ x.toNat / 32 % 16 = 8) := by
  have values : ∀ t < 16, (BitVec.ofNat 32 t <<< 5 = 0x0e0 ↔ t = 7) ∧
      (BitVec.ofNat 32 t <<< 5 = 0x100 ↔ t = 8) := by decide
  have bits : x &&& (0x1e0 : BitVec 32) = BitVec.ofNat 32 (x.toNat / 32 % 16) <<< 5 :=
    and_lowBits x 4 5
  rw [bits]
  exact values _ (Nat.mod_lt _ (by decide))

/-- Where a trial crosses, the filters lose it. -/
theorem noCrossing_of_lossless {skipEffMap : List Byte}
    (marked : ∀ i < buf.length, bitmapRead skipEffMap i)
    (lossless : FiltersLoseNothing false skipEffMap buf) : NoCrossing buf := by
  have lost {out : List Byte} (crossing : Crossing buf out)
      (tried : Adjusts false buf out ∨ InterestsWord false buf out) : False :=
    crossing.not_executed marked false ((lossless out crossing.ne).mpr
      ((mem_detStages marked false false out).mpr (.inr (.inr (.inr ⟨rfl, tried⟩)))))
  have apart (i : Nat) (inside : i + 2 ≤ buf.length) :
      ¬ ((loadWord 2 buf i).toNat / 32 % 16 = 7 ∨ (loadWord 2 buf i).toNat / 32 % 16 = 8) := by
    intro met
    obtain ⟨minus, carries, crosses⟩ := crosses_of_bits (castU_loadWord (by decide)) met
    refine lost (crossing_of_mask (by decide) inside (castU_ordered (by decide)) crosses)
      (.inl (adjusts_iff.mpr ⟨2, by decide, i, inside, false, minus, 32, by decide, by decide,
        fun _ => carries, nofun, rfl⟩))
  constructor
  · intro i inside
    obtain ⟨seven, eight⟩ := met_iff (loadWord 2 buf i)
    exact ⟨fun met => apart i inside (.inl (seven.mp met)),
      fun met => apart i inside (.inr (eight.mp met))⟩
  · intro blen listed i inside v known be crosses
    have whole : blen ∈ [1, 2, 4] := List.mem_cons_of_mem _ listed
    obtain ⟨be', tried⟩ := interestsAt_of_interesting ⟨i, inside, v, known, rfl⟩
    exact lost (crossing_of_mask (width_bounds whole).2 inside (castU_ordered whole) crosses)
      (.inr (interestsWord_iff.mpr ⟨blen, listed, be', tried⟩))

/-! ## Everything else is kept -/

/-- A mask of one byte does not cross. -/
theorem clear_byte {v : BitVec 32} (fits : castU 1 v = v) :
    loadWord 1 buf i ^^^ v ∉ crossingMasks := by
  intro crosses
  obtain ⟨t, bound, pair, listed, shape⟩ := mem_crossingMasks crosses
  have second := nthByte_pairMask pair t (show t + 1 < 4 by omega)
  rw [← shape, nthByte_mask (by decide) fits (by omega), if_neg (by omega), if_pos rfl] at second
  exact (crossingPairs_nonzero pair listed).2.2 second.symm

/-- What the filtered stages execute. -/
def Kept (buf out : List Byte) : Prop :=
  out = buf ∨ Flips buf out ∨ InterestsByte true buf out ∨
    (Adjusts true buf out ∨ InterestsWord true buf out)

theorem kept_of_flips (kept : out = buf ∨ Flips buf out) : Kept buf out :=
  kept.imp_right .inl

theorem kept_of_adjusts (clear : NoCrossing buf) (adjusts : Adjusts false buf out) :
    Kept buf out := by
  obtain ⟨blen, listed, i, inside, be, minus, j, pos, bound, carries, _, rfl⟩ :=
    adjusts_iff.mp adjusts
  have small := (width_bounds listed).2
  cases flips : couldBeBitflip (loadWord blen buf i ^^^ adjusted be blen (loadWord blen buf i) minus j)
  case false =>
    exact .inr (.inr (.inr (.inl (adjusts_iff.mpr ⟨blen, listed, i, inside, be, minus, j, pos, bound,
      carries, fun _ => flips, rfl⟩))))
  case true =>
    refine kept_of_flips (flips_of_couldBeBitflip small inside (castU_ordered listed) flips ?_)
    rcases List.mem_cons.mp listed with rfl | wide
    · exact clear_byte (castU_ordered listed)
    · intro crosses
      have more : 1 < blen := by
        simp only [List.mem_cons, List.not_mem_nil, or_false] at wide
        omega
      obtain ⟨rfl, met⟩ :=
        adjusted_crosses wide (castU_loadWord small) bound (carries more) crosses
      obtain ⟨seven, eight⟩ := met_iff (loadWord 2 buf i)
      obtain ⟨notSeven, notEight⟩ := clear.arith i inside
      exact met.elim (fun met => notSeven (seven.mpr met)) fun met => notEight (eight.mpr met)

/-- An interesting value is kept, or is what a narrower stage or a little-endian trial writes. -/
theorem kept_or_narrower (clear : NoCrossing buf) (listed : blen ∈ [1, 2, 4])
    (interests : InterestsAt false be blen buf out) :
    Kept buf out ∨ 1 < blen ∧ (Interesting false 1 buf out ∨
      (blen = 4 ∧ ∃ be, Interesting be 2 buf out) ∨ (be = true ∧ Interesting false blen buf out)) := by
  obtain ⟨i, inside, v, known, other, _, rfl⟩ := interests
  have small := (width_bounds listed).2
  have fits : castU blen (ordered be blen v) = ordered be blen v := castU_ordered listed
  cases skipped : skipsInterest be blen (loadWord blen buf i) (ordered be blen v)
  case false =>
    left
    have tried : InterestsAt true be blen buf (storeWord blen buf i (ordered be blen v)) :=
      ⟨i, inside, v, known, other, fun _ => skipped, rfl⟩
    rcases List.mem_cons.mp listed with rfl | wide
    · cases be with
      | false => exact .inr (.inr (.inl (interestsByte_iff.mpr tried)))
      | true => exact absurd rfl (other rfl)
    · exact .inr (.inr (.inr (.inr (interestsWord_iff.mpr ⟨blen, wide, be, tried⟩))))
  case true =>
    simp only [skipsInterest, Bool.or_eq_true, Bool.and_eq_true] at skipped
    rcases skipped with (flips | adjusts) | ⟨wide, inserts⟩
    · left
      refine kept_of_flips (flips_of_couldBeBitflip small inside fits flips ?_)
      rcases List.mem_cons.mp listed with rfl | wide
      · exact clear_byte fits
      · exact clear.interest blen wide i inside v known be
    · left
      rcases adjusted_of_couldBeArith listed inside fits adjusts with same | ⟨size, sizes, adjusted⟩
      · exact .inl (by rw [← same]; exact storeWord_loadWord small inside)
      · exact kept_of_adjusts clear (adjusts_of_adjusted sizes adjusted)
    · have more : 1 < blen := of_decide_eq_true wide
      have words : blen ∈ [2, 4] := (List.mem_cons.mp listed).resolve_left (by omega)
      rcases interesting_of_couldBeInterest words inside inserts with same | narrower
      · exact .inl (.inl (by rw [← same]; exact storeWord_loadWord small inside))
      · exact .inr ⟨more, narrower⟩

/-- Byte values, then words of two bytes, then of four; little endian first. -/
theorem kept_of_interestsAt (clear : NoCrossing buf) (listed : blen ∈ [1, 2, 4])
    (interests : InterestsAt false be blen buf out) : Kept buf out := by
  have byte {out : List Byte} (interests : InterestsAt false false 1 buf out) : Kept buf out :=
    (kept_or_narrower clear (by decide) interests).elim id fun wide => absurd wide.1 (by decide)
  have le {blen : Nat} {out : List Byte} (listed : blen ∈ [1, 2, 4])
      (narrow : blen = 4 → ∀ be, Interesting be 2 buf out → Kept buf out)
      (interests : InterestsAt false false blen buf out) : Kept buf out := by
    rcases kept_or_narrower clear listed interests with
      kept | ⟨_, one | ⟨quad, be, two⟩ | ⟨big, _⟩⟩
    · exact kept
    · exact byte (interestsAt_le one)
    · exact narrow quad be two
    · exact absurd big (by decide)
  have any {blen : Nat} {be : Bool} {out : List Byte} (listed : blen ∈ [1, 2, 4])
      (narrow : blen = 4 → ∀ be, Interesting be 2 buf out → Kept buf out)
      (interests : InterestsAt false be blen buf out) : Kept buf out := by
    rcases kept_or_narrower clear listed interests with
      kept | ⟨_, one | ⟨quad, be, two⟩ | ⟨_, little⟩⟩
    · exact kept
    · exact byte (interestsAt_le one)
    · exact narrow quad be two
    · exact le listed narrow (interestsAt_le little)
  refine any listed (fun _ be two => ?_) interests
  obtain ⟨be', two⟩ := interestsAt_of_interesting two
  exact any (by decide) (fun quad => absurd quad (by decide)) two

theorem lossless_of_noCrossing {skipEffMap : List Byte}
    (marked : ∀ i < buf.length, bitmapRead skipEffMap i) (clear : NoCrossing buf) :
    FiltersLoseNothing false skipEffMap buf := by
  intro out _
  rw [mem_detStages marked, mem_detStages marked]
  constructor
  · rintro (same | flips | byte | ⟨_, adjusts | word⟩)
    · exact .inl same
    · exact .inr (.inl flips)
    · exact .inr (.inr (.inl (interestsByte_unfiltered byte)))
    · exact .inr (.inr (.inr ⟨rfl, .inl (adjusts_unfiltered adjusts)⟩))
    · exact .inr (.inr (.inr ⟨rfl, .inr (interestsWord_unfiltered word)⟩))
  · intro executed
    have kept : Kept buf out := by
      rcases executed with same | flips | byte | ⟨_, adjusts | word⟩
      · exact .inl same
      · exact .inr (.inl flips)
      · exact kept_of_interestsAt clear (by decide) (interestsByte_iff.mp byte)
      · exact kept_of_adjusts clear adjusts
      · obtain ⟨blen, listed, be, interests⟩ := interestsWord_iff.mp word
        exact kept_of_interestsAt clear (List.mem_cons_of_mem _ listed) interests
    rcases kept with same | flips | byte | words
    · exact .inl same
    · exact .inr (.inl flips)
    · exact .inr (.inr (.inl byte))
    · exact .inr (.inr (.inr ⟨rfl, words⟩))

/-! ## Without the arithmetic stages -/

/-- A walk that changes one byte stays within it. -/
theorem walked_byte :
    ∀ n ∈ [1, 2, 4], ∀ c < 8,
      (flipMask n c 0 ≠ 0 ∧ flipMask n c 1 ≠ 0) ∨
        (flipMask n c 1 = 0 ∧ couldBeBitflip ((flipMask n c 0).setWidth 32) = true) := by
  decide

theorem loadWord_xor_byte {v : BitVec 32} (fits : castU 1 v = v) :
    loadWord 1 buf i ^^^ v = (nthByte (loadWord 1 buf i ^^^ v) 0).setWidth 32 := by
  generalize mask : loadWord 1 buf i ^^^ v = x
  have shape : pairMask (nthByte x 0, 0) 0 = (nthByte x 0).setWidth 32 := by simp [pairMask]
  apply eq_of_nthByte (m := 4) (by decide)
  intro j bound
  rw [← shape, nthByte_pairMask _ _ bound]
  by_cases first : j = 0
  · rw [if_pos first, first]
  · rw [if_neg first, ← mask, nthByte_mask (by decide) fits (by omega), ite_self]

theorem wordMask_one (x : BitVec 32) (p : Nat) :
    wordMask 1 i x p = if p = i then nthByte x 0 else 0 := by
  rw [wordMask]
  by_cases here : p = i
  · rw [if_pos (by omega), if_pos here, here, Nat.sub_self]
  · rw [if_neg (by omega), if_neg here]

/-- A bit flip that changes one byte is one that `could_be_bitflip` accepts. -/
theorem couldBeBitflip_of_flips {v : BitVec 32} (inside : i + 1 ≤ buf.length)
    (fits : castU 1 v = v) (flips : Flips buf (storeWord 1 buf i v)) :
    couldBeBitflip (loadWord 1 buf i ^^^ v) = true := by
  rw [loadWord_xor_byte fits]
  have masked := masked_storeWord (by decide) inside v
  generalize loadWord 1 buf i ^^^ v = x at masked
  have untouched : couldBeBitflip ((0 : Byte).setWidth 32) = true := by decide
  have bits {n : Nat} (listed : n ∈ [1, 2, 4]) (flips : FlipsBits n buf (storeWord 1 buf i v)) :
      couldBeBitflip ((nthByte x 0).setWidth 32) = true := by
    obtain ⟨b, whole, written⟩ := flips
    have size := width_bounds listed
    have walk : Masked buf (flipMask n b) (storeWord 1 buf i v) := written ▸ masked_flipBits n b
    have same (p : Nat) (low : p < buf.length) :
        (if p = i then nthByte x 0 else 0) =
          if b / 8 ≤ p then flipMask n (b % 8) (p - b / 8) else 0 := by
      rw [← flipMask_shift, Nat.div_add_mod, ← wordMask_one]
      exact masked.same walk low
    have here := same i inside
    rw [if_pos rfl] at here
    rcases walked_byte n listed (b % 8) (Nat.mod_lt _ (by decide)) with ⟨first, second⟩ | ⟨none, could⟩
    · -- both bytes would change
      have crosses : 8 < b % 8 + n := by
        by_contra within
        exact second (flipMask_outside fun t bound => by omega)
      have byte := same (b / 8) (by omega)
      have next := same (b / 8 + 1) (by omega)
      rw [if_pos (Nat.le_refl _), Nat.sub_self] at byte
      rw [if_pos (Nat.le_succ _), Nat.add_sub_cancel_left] at next
      have start : b / 8 = i := by
        by_contra elsewhere
        exact first (byte.symm.trans (if_neg elsewhere))
      exact absurd (next.symm.trans (if_neg (by omega))) second
    · rw [here]
      rcases Nat.lt_trichotomy i (b / 8) with before | at_first | after
      · rw [if_neg (by omega)]
        exact untouched
      · rw [if_pos (by omega), at_first, Nat.sub_self]
        exact could
      · rw [if_pos (by omega)]
        by_cases second : i - b / 8 = 1
        · rw [second, none]
          exact untouched
        · rw [flipMask_outside fun t bound => by omega]
          exact untouched
  have bytes {m : Nat} (small : m ≤ 4) (flips : FlipsWord m buf (storeWord 1 buf i v)) :
      couldBeBitflip ((nthByte x 0).setWidth 32) = true := by
    obtain ⟨q, whole, written⟩ := flips
    have here := masked.same (written ▸ masked_flipWord small whole) (show i < buf.length from inside)
    rw [wordMask_one, if_pos rfl] at here
    rw [here]
    split <;> decide
  rcases flips with one | two | four | byte | word | quad
  · exact bits (by decide) one
  · exact bits (by decide) two
  · exact bits (by decide) four
  · exact bytes (by decide) byte
  · exact bytes (by decide) word
  · exact bytes (by decide) quad

/-- Only the trial itself changes a byte to its value. -/
theorem same_trial {i' : Nat} {v v' : BitVec 32} (inside : i + 1 ≤ buf.length)
    (inside' : i' + 1 ≤ buf.length) (fits : castU 1 v = v) (fits' : castU 1 v' = v')
    (changed : loadWord 1 buf i ^^^ v ≠ 0)
    (same : storeWord 1 buf i v = storeWord 1 buf i' v') : i = i' ∧ v = v' := by
  have masked := masked_storeWord (by decide) inside v
  rw [same] at masked
  have here := masked.same (masked_storeWord (by decide) inside' v') inside
  rw [wordMask_one, wordMask_one, if_pos rfl] at here
  by_cases place : i = i'
  · subst place
    rw [if_pos rfl] at here
    refine ⟨rfl, ?_⟩
    have mask : loadWord 1 buf i ^^^ v = loadWord 1 buf i ^^^ v' := by
      rw [loadWord_xor_byte fits, here, ← loadWord_xor_byte fits']
    exact (BitVec.xor_right_inj _).mp mask
  · rw [if_neg place] at here
    refine absurd ?_ changed
    rw [loadWord_xor_byte fits, here]
    rfl

theorem lossless_iff_adjustmentsFlip {skipEffMap : List Byte}
    (marked : ∀ i < buf.length, bitmapRead skipEffMap i) :
    FiltersLoseNothing true skipEffMap buf ↔ AdjustmentsFlip buf := by
  have executed (filters : Bool) (out : List Byte) :
      out ∈ (detStages filters true skipEffMap buf).executed ↔
        out = buf ∨ Flips buf out ∨ InterestsAt filters false 1 buf out := by
    rw [mem_detStages marked, interestsByte_iff]
    simp only [Bool.true_eq_false, false_and, or_false]
  constructor
  · intro lossless i inside v known adjusts
    have fits : castU 1 (castU 1 v) = castU 1 v := castU_castU
    by_contra other
    have differs : loadWord 1 buf i ^^^ castU 1 v ≠ 0 := by
      intro zero
      rw [zero] at other
      exact other rfl
    have changed : storeWord 1 buf i (castU 1 v) ≠ buf := by
      intro same
      have masked := masked_storeWord (by decide) inside (castU 1 v)
      rw [same] at masked
      have here := masked.same masked_self inside
      rw [wordMask_one, if_pos rfl] at here
      apply differs
      rw [loadWord_xor_byte fits, here]
      rfl
    have tried : InterestsAt false false 1 buf (storeWord 1 buf i (castU 1 v)) :=
      ⟨i, inside, v, known, nofun, nofun, rfl⟩
    rcases (executed true _).mp ((lossless _ changed).mpr ((executed false _).mpr (.inr (.inr tried))))
      with same | flips | ⟨i', inside', v', _, _, kept, written⟩
    · exact changed same
    · exact other (couldBeBitflip_of_flips inside fits flips)
    · obtain ⟨rfl, value⟩ := same_trial inside inside' fits (castU_ordered (by decide)) differs written
      have skips := kept rfl
      rw [← value, skipsInterest, adjusts] at skips
      simp at skips
  · intro flips out _
    rw [executed, executed]
    refine ⟨Or.imp_right (Or.imp_right InterestsAt.unfiltered), ?_⟩
    rintro (same | flip | ⟨i, inside, v, known, _, _, rfl⟩)
    · exact .inl same
    · exact .inr (.inl flip)
    · have fits : castU 1 (ordered false 1 v) = ordered false 1 v := castU_castU
      cases skipped : skipsInterest false 1 (loadWord 1 buf i) (ordered false 1 v)
      case false => exact .inr (.inr ⟨i, inside, v, known, nofun, fun _ => skipped, rfl⟩)
      case true =>
        have could : couldBeBitflip (loadWord 1 buf i ^^^ ordered false 1 v) = true := by
          simp only [skipsInterest, Nat.lt_irrefl, decide_false, Bool.false_and, Bool.or_false,
            Bool.or_eq_true] at skipped
          exact skipped.elim id (flips i inside v known)
        exact (flips_of_couldBeBitflip (by decide) inside fits could (clear_byte fits)).imp_right
          .inl

/-- The filters lose nothing where no trial crosses or, without the arithmetic stages, where every
interesting byte that could be an adjustment could be a bit flip. -/
theorem dedup_filters_lossless_iff {skipEffMap : List Byte}
    (marked : ∀ i < buf.length, bitmapRead skipEffMap i) (noArith : Bool) :
    FiltersLoseNothing noArith skipEffMap buf ↔ NothingLost noArith buf := by
  cases noArith with
  | false => exact ⟨noCrossing_of_lossless marked, lossless_of_noCrossing marked⟩
  | true => exact lossless_iff_adjustmentsFlip marked

end

theorem dedup_filters_lossless_zeros :
    (∀ i < 4, bitmapRead [0xFF] i) ∧ FiltersLoseNothing false [0xFF] [0, 0, 0, 0] := by
  have marked : ∀ i < 4, bitmapRead [0xFF] i := by decide
  refine ⟨marked, (@dedup_filters_lossless_iff [0, 0, 0, 0] [0xFF] marked false).mpr ?_⟩
  constructor
  · intro i inside
    have each : ∀ i < 3, loadWord 2 [0, 0, 0, 0] i = 0 := by decide
    rw [each i (by simp at inside; omega)]
    decide
  · have each : ∀ blen ∈ [2, 4], ∀ i < 4, ∀ be ∈ [false, true],
        ((interestingValues blen).all fun v => decide (loadWord blen [0, 0, 0, 0] i ^^^
          ordered be blen v ∉ crossingMasks)) = true := by decide
    intro blen listed i inside v known be
    have bound : i < 4 := by
      have pos := (width_bounds (List.mem_cons_of_mem 1 listed)).1
      simp at inside
      omega
    exact of_decide_eq_true (List.all_eq_true.mp (each blen listed i bound be (by cases be <;> decide))
      v known)

/-- The value 0 clears the two bits on either side of a byte boundary. -/
theorem dedup_filters_not_lossless :
    (∀ i < 4, bitmapRead [0xFF] i) ∧ ¬ FiltersLoseNothing false [0xFF] [0x80, 0x01, 0, 0] := by
  have marked : ∀ i < 4, bitmapRead [0xFF] i := by decide
  refine ⟨marked, fun lossless => ?_⟩
  have clear := @noCrossing_of_lossless [0x80, 0x01, 0, 0] _ marked lossless
  exact clear.interest 2 (by decide) 0 (by decide) 0 (by decide) false (by decide)

end Swam.Afl
