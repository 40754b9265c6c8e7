import Swam.Afl.ArithFilter

/-!
# What `could_be_interest` skips

An interesting word that only inserts a narrower interesting value has been tried with it. Of the
big-endian words, those equal to a little-endian one are left out as well.
-/
namespace Swam.Afl

open Lib

/-! ## Interesting words -/

def interestingValues (blen : Nat) : List (BitVec 32) :=
  if blen = 1 then interesting8 else if blen = 2 then interesting16 else interesting32

/-- The seed with an interesting value in some word, whether a stage tries it or not. -/
def Interesting (be : Bool) (blen : Nat) (buf out : List Byte) : Prop :=
  ∃ i, i + blen ≤ buf.length ∧ ∃ v ∈ interestingValues blen,
    out = storeWord blen buf i (ordered be blen v)

/-- What the three filters together say of an interesting value. -/
def skipsInterest (be : Bool) (blen : Nat) (orig new : BitVec 32) : Bool :=
  couldBeBitflip (orig ^^^ new) || couldBeArith orig new blen ||
    (decide (1 < blen) && couldBeInterest orig new blen be)

/-- The seed with an interesting value that a stage tries. -/
def InterestsAt (filters be : Bool) (blen : Nat) (buf out : List Byte) : Prop :=
  ∃ i, i + blen ≤ buf.length ∧ ∃ v ∈ interestingValues blen,
    (be = true → castU blen v ≠ ordered be blen v) ∧
    (filters = true → skipsInterest be blen (loadWord blen buf i) (ordered be blen v) = false) ∧
    out = storeWord blen buf i (ordered be blen v)

section
variable {filters : Bool} {buf out : List Byte}

theorem interestsByte_iff :
    InterestsByte filters buf out ↔ InterestsAt filters false 1 buf out := by
  refine exists_congr fun i => and_congr_right fun _ => ?_
  have skipped (v : BitVec 32) : skipsInterest false 1 (loadWord 1 buf i) (ordered false 1 v) =
      (couldBeBitflip (loadWord 1 buf i ^^^ castU 1 v) ||
        couldBeArith (loadWord 1 buf i) (castU 1 v) 1) := Bool.or_false _
  constructor
  · rintro ⟨trial, member, tried, rfl⟩
    obtain ⟨v, known, rfl⟩ := List.mem_map.mp member
    exact ⟨v, known, nofun, fun on => (skipped v).trans (kept_iff.mp tried on), rfl⟩
  · rintro ⟨v, known, _, kept, rfl⟩
    exact ⟨_, List.mem_map_of_mem known,
      kept_iff.mpr fun on => (skipped v).symm.trans (kept on), rfl⟩

theorem interestsWord_iff_of {blen : Nat} (wide : 1 < blen) {swap : BitVec 32 → BitVec 32}
    (swaps : ∀ v, swap v = ordered true blen v) :
    Replaces blen (fun orig => (interestingValues blen).flatMap
        (DetRun.interestTrials blen swap filters orig)) buf out ↔
      InterestsAt filters false blen buf out ∨ InterestsAt filters true blen buf out := by
  have le (v : BitVec 32) : ordered false blen v = castU blen v := rfl
  have skipped (be : Bool) (orig new : BitVec 32) : skipsInterest be blen orig new =
      (couldBeBitflip (orig ^^^ new) || couldBeArith orig new blen ||
        couldBeInterest orig new blen be) := by
    rw [skipsInterest, decide_eq_true wide, Bool.true_and]
  constructor
  · rintro ⟨i, inside, trial, member, tried, rfl⟩
    obtain ⟨v, known, listed⟩ := List.mem_flatMap.mp member
    simp only [DetRun.interestTrials, swaps, List.mem_cons, List.not_mem_nil, or_false] at listed
    rcases listed with rfl | rfl
    · refine .inl ⟨i, inside, v, known, nofun, fun on => ?_, rfl⟩
      exact (skipped false _ _).trans (kept_iff.mp tried on)
    · have parts := Bool.and_eq_true_iff.mp tried
      refine .inr ⟨i, inside, v, known, fun _ => of_decide_eq_true parts.1, fun on => ?_, rfl⟩
      exact (skipped true _ _).trans (kept_iff.mp parts.2 on)
  · have found {i : Nat} {v : BitVec 32} (known : v ∈ interestingValues blen)
        {trial : Bool × BitVec 32}
        (listed : trial ∈ DetRun.interestTrials blen swap filters (loadWord blen buf i) v) :
        trial ∈ (interestingValues blen).flatMap
          (DetRun.interestTrials blen swap filters (loadWord blen buf i)) :=
      List.mem_flatMap.mpr ⟨v, known, listed⟩
    rintro (⟨i, inside, v, known, _, kept, rfl⟩ | ⟨i, inside, v, known, other, kept, rfl⟩)
    · refine ⟨i, inside, _, found known (List.mem_cons_self), ?_, rfl⟩
      exact kept_iff.mpr fun on => (skipped false _ _).symm.trans (kept on)
    · refine ⟨i, inside, _, found known (List.mem_cons_of_mem _ List.mem_cons_self), ?_, by rw [swaps]⟩
      simp only [swaps]
      exact Bool.and_eq_true_iff.mpr ⟨decide_eq_true (other rfl),
        kept_iff.mpr fun on => (skipped true _ _).symm.trans (kept on)⟩

theorem interestsWord_iff :
    InterestsWord filters buf out ↔
      ∃ blen ∈ [2, 4], ∃ be, InterestsAt filters be blen buf out := by
  have word := @interestsWord_iff_of filters buf out 2 (by decide) swap16 fun _ => rfl
  have quad := @interestsWord_iff_of filters buf out 4 (by decide) swap32 fun _ => rfl
  simp only [List.mem_cons, List.not_mem_nil, or_false, exists_eq_or_imp, exists_eq_left,
    Bool.exists_bool]
  exact or_congr word quad

theorem interestsAt_le {blen : Nat} (interesting : Interesting false blen buf out) :
    InterestsAt false false blen buf out := by
  obtain ⟨i, inside, v, known, rfl⟩ := interesting
  exact ⟨i, inside, v, known, nofun, nofun, rfl⟩

/-- The big-endian words that are left out are little-endian words. -/
theorem interestsAt_of_interesting {be : Bool} {blen : Nat}
    (interesting : Interesting be blen buf out) : ∃ be, InterestsAt false be blen buf out := by
  cases be with
  | false => exact ⟨false, interestsAt_le interesting⟩
  | true =>
    obtain ⟨i, inside, v, known, rfl⟩ := interesting
    by_cases same : castU blen v = ordered true blen v
    · refine ⟨false, interestsAt_le ⟨i, inside, v, known, ?_⟩⟩
      rw [← same]
      rfl
    · exact ⟨true, i, inside, v, known, fun _ => same, nofun, rfl⟩

end

/-! ## The filter -/

section
variable {buf : List Byte} {blen i : Nat} {v : BitVec 32}

/-- An insertion is a narrower store. -/
theorem storeWord_tval (small : blen ≤ 4) (inside : i + blen ≤ buf.length) {m t : Nat}
    (within : t + m ≤ blen) {mask u : BitVec 32} (ones : mask = lowBits (8 * m))
    (fits : castU m u = u) :
    storeWord blen buf i (tval (loadWord blen buf i) mask u t) = storeWord m buf (i + t) u := by
  have zeros (p : Nat) (above : 8 * m ≤ p) : u.getLsbD p = false := by
    rw [← fits, getLsbD_castU, decide_eq_false (by omega), Bool.false_and]
  have bytes (j : Nat) (low : j < 4) :
      nthByte (tval (loadWord blen buf i) mask u t) j =
        if t ≤ j ∧ j < t + m then nthByte u (j - t) else nthByte (loadWord blen buf i) j := by
    rw [tval, ones]
    exact nthByte_insert _ _ m t (by omega) zeros
  refine storeWord_narrow small inside within (fun j low outside => ?_) fun j low => ?_
  · rw [bytes j (by omega), if_neg outside]
  · rw [bytes (t + j) (by omega), if_pos (by omega), Nat.add_sub_cancel_left]

/-- What `could_be_interest` skips is the old word, or one that a narrower stage or, where these
are asked for, the little-endian trials of the same stage write. -/
theorem interesting_of_couldBeInterest {checkLe : Bool} (listed : blen ∈ [2, 4])
    (inside : i + blen ≤ buf.length)
    (could : couldBeInterest (loadWord blen buf i) v blen checkLe = true) :
    loadWord blen buf i = v ∨ Interesting false 1 buf (storeWord blen buf i v) ∨
      (blen = 4 ∧ ∃ be, Interesting be 2 buf (storeWord blen buf i v)) ∨
      (checkLe = true ∧ Interesting false blen buf (storeWord blen buf i v)) := by
  have widths : blen = 2 ∨ blen = 4 := by simpa using listed
  have small : blen ≤ 4 := by omega
  rw [couldBeInterest] at could
  split at could
  next same => exact .inl same
  next =>
    split at could
    next byte =>
      obtain ⟨t, bound, values⟩ := List.any_eq_true.mp byte
      obtain ⟨w, known, new⟩ := List.any_eq_true.mp values
      have low := List.mem_range.mp bound
      refine .inr (.inl ⟨i + t, by omega, w, known, ?_⟩)
      rw [of_decide_eq_true new]
      exact storeWord_tval small inside (by omega) rfl castU_castU
    next =>
      split at could
      next => exact absurd could (by decide)
      next asked =>
        split at could
        next word =>
          obtain ⟨t, bound, values⟩ := List.any_eq_true.mp word
          obtain ⟨w, known, new⟩ := List.any_eq_true.mp values
          have low := List.mem_range.mp bound
          have store {u : BitVec 32} (fits : castU 2 u = u)
              (new : v = tval (loadWord blen buf i) 0xffff u t) :
              storeWord blen buf i v = storeWord 2 buf (i + t) u := by
            rw [new]
            exact storeWord_tval small inside (by omega) rfl fits
          rcases of_decide_eq_true new with le | ⟨wide, be⟩
          · have written := store castU_castU le
            rcases widths with rfl | rfl
            · have check : checkLe = true := by simpa using asked
              exact .inr (.inr (.inr ⟨check, i + t, by omega, w, known, written⟩))
            · exact .inr (.inr (.inl ⟨rfl, false, i + t, by omega, w, known, written⟩))
          · have quad : blen = 4 := by omega
            exact .inr (.inr (.inl ⟨quad, true, i + t, by omega, w, known,
              store (@castU_ordered 2 true _ (by decide)) be⟩))
        next =>
          split at could
          next quad =>
            obtain ⟨w, known, new⟩ := List.any_eq_true.mp could
            obtain ⟨rfl, check⟩ := quad
            exact .inr (.inr (.inr ⟨check, i, inside, w, known, by rw [of_decide_eq_true new]; rfl⟩))
          next => exact absurd could (by decide)

end

end Swam.Afl
