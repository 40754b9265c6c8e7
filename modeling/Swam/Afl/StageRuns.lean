import Swam.Afl.DeterministicStages

/-!
# What the stages execute

Every stage leaves `out_buf` as it found it, so that the executed buffers are those that differ
from the seed by one step.
-/
namespace Swam.Afl

open Lib

/-! ## Loads and stores -/

theorem getLsbD_castU (blen : Nat) (x : BitVec 32) (t : Nat) :
    (castU blen x).getLsbD t = (decide (t < 8 * blen) && x.getLsbD t) := by
  rw [castU, BitVec.getLsbD_setWidth, BitVec.getLsbD_setWidth]
  by_cases bound : t < 32
  · rw [decide_eq_true bound, Bool.true_and]
  · rw [decide_eq_false bound, Bool.false_and, BitVec.getLsbD_of_ge _ _ (by omega), Bool.and_false]

theorem nthByte_castU (blen : Nat) (x : BitVec 32) (j : Nat) :
    nthByte (castU blen x) j = if j < blen then nthByte x j else 0 := by
  apply BitVec.eq_of_getLsbD_eq
  intro t bound
  rw [getLsbD_nthByte, getLsbD_castU, decide_eq_true bound, Bool.true_and]
  by_cases low : j < blen
  · rw [if_pos low, decide_eq_true (by omega), Bool.true_and, getLsbD_nthByte, decide_eq_true bound,
      Bool.true_and]
  · rw [if_neg low, decide_eq_false (by omega), Bool.false_and]
    simp

section
variable {buf : List Byte} {blen i : Nat}

theorem getLsbD_loadWord (small : blen ≤ 4) (t : Nat) :
    (loadWord blen buf i).getLsbD t =
      (decide (t < 8 * blen) && (cell buf (i + t / 8)).getLsbD (t % 8)) := by
  induction blen with
  | zero =>
    rw [decide_eq_false (by omega), Bool.false_and]
    exact BitVec.getLsbD_zero
  | succ blen ih =>
    have step : loadWord (blen + 1) buf i =
        loadWord blen buf i ||| (cell buf (i + blen)).setWidth 32 <<< (8 * blen) := by
      simp only [loadWord, List.range_succ, List.foldl_append, List.foldl_cons, List.foldl_nil]
    rw [step, BitVec.getLsbD_or, ih (by omega), BitVec.getLsbD_shiftLeft, BitVec.getLsbD_setWidth]
    rcases Nat.lt_trichotomy (t / 8) blen with before | here | after
    · simp [show t < 8 * blen by omega, show t < 8 * (blen + 1) by omega]
    · have offset : t - 8 * blen = t % 8 := by omega
      simp [offset, here, show ¬ t < 8 * blen by omega, show t < 8 * (blen + 1) by omega,
        show t < 32 by omega, show t % 8 < 32 by omega]
    · have beyond : 8 ≤ t - 8 * blen := by omega
      simp [show ¬ t < 8 * blen by omega, show ¬ t < 8 * (blen + 1) by omega,
        BitVec.getLsbD_of_ge _ _ beyond]

/-- Little endian: byte `j` of the word is the one at offset `j`. -/
theorem nthByte_loadWord (small : blen ≤ 4) (j : Nat) :
    nthByte (loadWord blen buf i) j = if j < blen then cell buf (i + j) else 0 := by
  apply BitVec.eq_of_getLsbD_eq
  intro t bound
  rw [getLsbD_nthByte, getLsbD_loadWord small, decide_eq_true bound, Bool.true_and]
  by_cases low : j < blen
  · rw [if_pos low, decide_eq_true (by omega), Bool.true_and, show (8 * j + t) / 8 = j by omega,
      show (8 * j + t) % 8 = t by omega]
  · rw [if_neg low, decide_eq_false (by omega), Bool.false_and]
    simp

theorem cell_eq {i : Nat} (inside : i < buf.length) : buf[i]? = some (cell buf i) := by
  rw [cell, List.getElem?_eq_getElem inside, Option.getD_some]

theorem getElem?_storeWord (inside : i + blen ≤ buf.length) (x : BitVec 32) (p : Nat) :
    (storeWord blen buf i x)[p]? =
      if i ≤ p ∧ p < i + blen then some (nthByte x (p - i)) else buf[p]? := by
  rw [storeWord, getElem?_memcpy (by omega), List.length_map, List.length_range]
  split
  next within =>
    rw [List.getElem?_map, List.getElem?_range (by omega)]
    rfl
  next => rfl

theorem length_storeWord (inside : i + blen ≤ buf.length) (x : BitVec 32) :
    (storeWord blen buf i x).length = buf.length := by
  rw [storeWord, length_memcpy (by omega), List.length_map, List.length_range]
  omega

/-- The later store wins. -/
theorem storeWord_storeWord (inside : i + blen ≤ buf.length) (x y : BitVec 32) :
    storeWord blen (storeWord blen buf i x) i y = storeWord blen buf i y := by
  rw [storeWord, storeWord, storeWord, memcpy_memcpy (by omega)]
  simp only [List.length_map, List.length_range, Nat.le_refl]

theorem storeWord_loadWord (small : blen ≤ 4) (inside : i + blen ≤ buf.length) :
    storeWord blen buf i (loadWord blen buf i) = buf := by
  apply List.ext_getElem?
  intro p
  rw [getElem?_storeWord inside]
  split
  next within =>
    rw [nthByte_loadWord small, if_pos (by omega), cell_eq (by omega)]
    congr 2
    omega
  next => rfl

end

/-! ## Steps that record what they execute -/

/-- Started on a buffer of one kind, the step leaves one of another kind and adds the executions
described. -/
def Executes (before after : List Byte → Prop) (f : DetRun → DetRun) (P : List Byte → Prop) :
    Prop :=
  ∀ s : DetRun, before s.outBuf →
    after (f s).outBuf ∧ ∀ out, out ∈ (f s).executed ↔ out ∈ s.executed ∨ P out

section
variable {before between after : List Byte → Prop} {f g : DetRun → DetRun}
  {P Q : List Byte → Prop}

theorem Executes.comp (first : Executes before between f P) (second : Executes between after g Q) :
    Executes before after (fun s => g (f s)) (fun out => P out ∨ Q out) := by
  intro s start
  obtain ⟨middle, executed⟩ := first s start
  obtain ⟨final, executed'⟩ := second (f s) middle
  refine ⟨final, fun out => ?_⟩
  rw [executed', executed, or_assoc]

theorem Executes.congr (executes : Executes before after f P) (same : ∀ out, P out ↔ Q out) :
    Executes before after f Q := by
  intro s start
  obtain ⟨final, executed⟩ := executes s start
  exact ⟨final, fun out => by rw [executed, same]⟩

theorem Executes.foldl {α : Type} {f : DetRun → α → DetRun} {P : α → List Byte → Prop}
    {l : List α} (each : ∀ a ∈ l, Executes before before (f · a) (P a)) :
    Executes before before (fun s => l.foldl f s) (fun out => ∃ a ∈ l, P a out) := by
  induction l with
  | nil => exact fun s start => ⟨start, fun out => by simp⟩
  | cons a l ih =>
    have rest := (each a List.mem_cons_self).comp (ih fun b member => each b
      (List.mem_cons_of_mem _ member))
    exact rest.congr fun out => by simp

/-- The rounds of a stage whose bytes are all marked. -/
theorem Executes.stage {skipEffMap : List Byte} {rounds : Nat} {byte : Nat → Nat}
    {round : DetRun → Nat → DetRun} {P : Nat → List Byte → Prop}
    (marked : ∀ cur < rounds, bitmapRead skipEffMap (byte cur))
    (each : ∀ cur < rounds, Executes before before (round · cur) (P cur)) :
    Executes before before (DetRun.stage skipEffMap rounds byte round)
      (fun out => ∃ cur < rounds, P cur out) := by
  have loop : Executes before before
      (fun s => (List.range rounds).foldl
        (fun s cur => if bitmapRead skipEffMap (byte cur) then round s cur else s) s)
      (fun out => ∃ cur ∈ List.range rounds, P cur out) := by
    refine Executes.foldl fun cur member s start => ?_
    have bound := List.mem_range.mp member
    dsimp only
    rw [if_pos (marked cur bound)]
    exact each cur bound s start
  exact loop.congr fun out => by simp only [List.mem_range]

end

/-! ## Bit flips -/

/-- What flipping `n` bits from bit `b` on does to byte `p`. -/
def flipMask (n b p : Nat) : Byte :=
  (List.range n).foldl (fun m t => if (b + t) / 8 = p then m ^^^ (128 >>> ((b + t) % 8)) else m) 0

theorem getElem?_flipBits (n : Nat) (buf : List Byte) (b p : Nat) :
    (DetRun.flipBits n buf b)[p]? = buf[p]?.map (· ^^^ flipMask n b p) := by
  induction n with
  | zero =>
    have none_flipped : DetRun.flipBits 0 buf b = buf := rfl
    have no_mask : flipMask 0 b p = 0 := rfl
    rw [none_flipped, no_mask]
    simp
  | succ n ih =>
    have step : DetRun.flipBits (n + 1) buf b = DetRun.flipBit (DetRun.flipBits n buf b) (b + n) := by
      simp only [DetRun.flipBits, List.range_succ, List.foldl_append, List.foldl_cons,
        List.foldl_nil]
    have mask : flipMask (n + 1) b p =
        if (b + n) / 8 = p then flipMask n b p ^^^ (128 >>> ((b + n) % 8)) else flipMask n b p := by
      simp only [flipMask, List.range_succ, List.foldl_append, List.foldl_cons, List.foldl_nil]
    rw [step, DetRun.flipBit, List.getElem?_modify, ih, mask]
    split
    · cases buf[p]? with
      | none => rfl
      | some c => simp [BitVec.xor_assoc]
    · cases buf[p]? <;> rfl

theorem flipBits_flipBits (n : Nat) (buf : List Byte) (b : Nat) :
    DetRun.flipBits n (DetRun.flipBits n buf b) b = buf := by
  apply List.ext_getElem?
  intro p
  rw [getElem?_flipBits, getElem?_flipBits]
  cases buf[p]? with
  | none => rfl
  | some c => simp only [Option.map_some, BitVec.xor_assoc, BitVec.xor_self, BitVec.xor_zero]

theorem executes_walkingBits (n b : Nat) (buf : List Byte) :
    Executes (· = buf) (· = buf) (DetRun.walkingBits n · b) (· = DetRun.flipBits n buf b) := by
  rintro s rfl
  refine ⟨flipBits_flipBits n s.outBuf b, fun out => ?_⟩
  simp only [DetRun.walkingBits, DetRun.fuzz, List.mem_cons]
  exact or_comm

section
variable {buf : List Byte} {blen i : Nat}

theorem getElem?_flipWord (small : blen ≤ 4) (inside : i + blen ≤ buf.length) (p : Nat) :
    (DetRun.flipWord blen buf i)[p]? =
      if i ≤ p ∧ p < i + blen then buf[p]?.map (· ^^^ 0xFF) else buf[p]? := by
  rw [DetRun.flipWord, getElem?_storeWord inside]
  split
  next within =>
    have ones : ∀ j < 4, nthByte (0xFFFFFFFF : BitVec 32) j = 0xFF := by decide
    rw [nthByte_xor, nthByte_loadWord small, nthByte_castU, if_pos (by omega), if_pos (by omega),
      ones _ (by omega), cell_eq (by omega), Nat.add_sub_cancel' within.1]
    rfl
  next => rfl

theorem executes_walkingBytes (small : blen ≤ 4) (inside : i + blen ≤ buf.length) :
    Executes (· = buf) (· = buf) (DetRun.walkingBytes blen · i)
      (· = DetRun.flipWord blen buf i) := by
  rintro s rfl
  have size : (DetRun.flipWord blen s.outBuf i).length = s.outBuf.length := length_storeWord inside _
  refine ⟨?_, fun out => ?_⟩
  · show DetRun.flipWord blen (DetRun.flipWord blen s.outBuf i) i = s.outBuf
    apply List.ext_getElem?
    intro p
    rw [getElem?_flipWord small (by omega), getElem?_flipWord small inside]
    split
    · cases s.outBuf[p]? with
      | none => rfl
      | some c => simp only [Option.map_some, BitVec.xor_assoc, BitVec.xor_self, BitVec.xor_zero]
    · rfl
  · simp only [DetRun.walkingBytes, DetRun.fuzz, List.mem_cons]
    exact or_comm

/-! ## Trials -/

/-- The seed with some value at the offset in hand. -/
def Window (buf : List Byte) (blen i : Nat) (cur : List Byte) : Prop :=
  ∃ x, cur = storeWord blen buf i x

/-- A trial that is not skipped. -/
def Tries (buf : List Byte) (blen i : Nat) (trial : Bool × BitVec 32) (out : List Byte) : Prop :=
  trial.1 = true ∧ out = storeWord blen buf i trial.2

theorem executes_tryValue (inside : i + blen ≤ buf.length) (trial : Bool × BitVec 32) :
    Executes (Window buf blen i) (Window buf blen i) (DetRun.tryValue blen i · trial)
      (Tries buf blen i trial) := by
  rintro s ⟨x, window⟩
  dsimp only [DetRun.tryValue]
  split
  next tried =>
    have written : storeWord blen s.outBuf i trial.2 = storeWord blen buf i trial.2 := by
      rw [window, storeWord_storeWord inside]
    refine ⟨⟨trial.2, written⟩, fun out => ?_⟩
    simp only [DetRun.fuzz, written, List.mem_cons, Tries, tried, true_and]
    exact or_comm
  next skipped =>
    exact ⟨⟨x, window⟩, fun out => by simp [Tries, skipped]⟩

/-- Writing the old value back. -/
theorem executes_restore (small : blen ≤ 4) (inside : i + blen ≤ buf.length) :
    Executes (Window buf blen i) (· = buf)
      (fun s => { s with outBuf := storeWord blen s.outBuf i (loadWord blen buf i) })
      (fun _ => False) := by
  rintro s ⟨x, window⟩
  refine ⟨?_, fun out => by simp⟩
  show storeWord blen s.outBuf i (loadWord blen buf i) = buf
  rw [window, storeWord_storeWord inside, storeWord_loadWord small inside]

/-- The seed itself is such a buffer. -/
theorem Executes.start (small : blen ≤ 4) (inside : i + blen ≤ buf.length) {f : DetRun → DetRun}
    {after P : List Byte → Prop} (executes : Executes (Window buf blen i) after f P) :
    Executes (· = buf) after f P := by
  rintro s rfl
  exact executes s ⟨_, (storeWord_loadWord small inside).symm⟩

theorem executes_trials (inside : i + blen ≤ buf.length) (trials : List (Bool × BitVec 32)) :
    Executes (Window buf blen i) (Window buf blen i)
      (fun s => trials.foldl (DetRun.tryValue blen i) s)
      (fun out => ∃ trial ∈ trials, Tries buf blen i trial out) :=
  Executes.foldl fun trial _ => executes_tryValue inside trial

theorem executes_arithRound (small : blen ≤ 4) (inside : i + blen ≤ buf.length)
    (trials : BitVec 32 → Nat → List (Bool × BitVec 32)) :
    Executes (· = buf) (· = buf) (DetRun.arithRound blen trials · i)
      (fun out => ∃ j ∈ List.range arithMax, ∃ trial ∈ trials (loadWord blen buf i) (j + 1),
        Tries buf blen i trial out) := by
  rintro s rfl
  have loop : Executes (· = s.outBuf) (· = s.outBuf)
      (fun s' => (List.range arithMax).foldl
        (fun s' j =>
          let s' := (trials (loadWord blen s.outBuf i) (j + 1)).foldl (DetRun.tryValue blen i) s'
          { s' with outBuf := storeWord blen s'.outBuf i (loadWord blen s.outBuf i) }) s')
      (fun out => ∃ j ∈ List.range arithMax,
        ∃ trial ∈ trials (loadWord blen s.outBuf i) (j + 1), Tries s.outBuf blen i trial out) := by
    refine Executes.foldl fun j _ => ?_
    have round := (executes_trials inside (trials (loadWord blen s.outBuf i) (j + 1))).comp
      (executes_restore small inside)
    exact (round.start small inside).congr fun out => by rw [or_false]
  exact loop s rfl

theorem executes_interestRound (small : blen ≤ 4) (inside : i + blen ≤ buf.length)
    (values : List (BitVec 32)) (trials : BitVec 32 → BitVec 32 → List (Bool × BitVec 32)) :
    Executes (· = buf) (· = buf) (DetRun.interestRound blen values trials · i)
      (fun out => ∃ v ∈ values, ∃ trial ∈ trials (loadWord blen buf i) v,
        Tries buf blen i trial out) := by
  rintro s rfl
  have loop : Executes (Window s.outBuf blen i) (Window s.outBuf blen i)
      (fun s' => values.foldl
        (fun s' v => (trials (loadWord blen s.outBuf i) v).foldl (DetRun.tryValue blen i) s') s')
      (fun out => ∃ v ∈ values, ∃ trial ∈ trials (loadWord blen s.outBuf i) v,
        Tries s.outBuf blen i trial out) :=
    Executes.foldl fun v _ => executes_trials inside _
  exact (((loop.comp (executes_restore small inside)).start small inside).congr
    fun out => by rw [or_false]) s rfl

theorem executes_interest8Round (inside : i + 1 ≤ buf.length) (filters : Bool) :
    Executes (· = buf) (· = buf) (DetRun.interest8Round filters · i)
      (fun out => ∃ v ∈ interesting8,
        Tries buf 1 i (DetRun.interest8Trial filters (loadWord 1 buf i) v) out) := by
  rintro s rfl
  have loop : Executes (· = s.outBuf) (· = s.outBuf)
      (fun s' => interesting8.foldl
        (fun s' v =>
          let s' := DetRun.tryValue 1 i s' (DetRun.interest8Trial filters (loadWord 1 s.outBuf i) v)
          { s' with outBuf := storeWord 1 s'.outBuf i (loadWord 1 s.outBuf i) }) s')
      (fun out => ∃ v ∈ interesting8,
        Tries s.outBuf 1 i (DetRun.interest8Trial filters (loadWord 1 s.outBuf i) v) out) := by
    refine Executes.foldl fun v _ => ?_
    have round := (executes_tryValue inside
      (DetRun.interest8Trial filters (loadWord 1 s.outBuf i) v)).comp
        (executes_restore (by decide) inside)
    exact (round.start (by decide) inside).congr fun out => by rw [or_false]
  exact loop s rfl

end

/-! ## All stages -/

/-- The seed with `n` bits flipped. -/
def FlipsBits (n : Nat) (buf out : List Byte) : Prop :=
  ∃ b, b + n ≤ 8 * buf.length ∧ out = DetRun.flipBits n buf b

/-- The seed with the bytes of one word flipped. -/
def FlipsWord (blen : Nat) (buf out : List Byte) : Prop :=
  ∃ i, i + blen ≤ buf.length ∧ out = DetRun.flipWord blen buf i

/-- The seed with one word replaced by a value that is tried. -/
def Replaces (blen : Nat) (trials : BitVec 32 → List (Bool × BitVec 32)) (buf out : List Byte) :
    Prop :=
  ∃ i, i + blen ≤ buf.length ∧ ∃ trial ∈ trials (loadWord blen buf i), Tries buf blen i trial out

/-- The trials of an arithmetic stage at one offset. -/
def upToArithMax (trials : BitVec 32 → Nat → List (Bool × BitVec 32)) (orig : BitVec 32) :
    List (Bool × BitVec 32) :=
  (List.range arithMax).flatMap fun j => trials orig (j + 1)

def Flips (buf out : List Byte) : Prop :=
  FlipsBits 1 buf out ∨ FlipsBits 2 buf out ∨ FlipsBits 4 buf out ∨
    FlipsWord 1 buf out ∨ FlipsWord 2 buf out ∨ FlipsWord 4 buf out

def Adjusts (filters : Bool) (buf out : List Byte) : Prop :=
  Replaces 1 (upToArithMax (DetRun.arith8Trials filters)) buf out ∨
    Replaces 2 (upToArithMax (DetRun.arith16Trials filters)) buf out ∨
    Replaces 4 (upToArithMax (DetRun.arith32Trials filters)) buf out

def InterestsByte (filters : Bool) (buf out : List Byte) : Prop :=
  Replaces 1 (fun orig => interesting8.map (DetRun.interest8Trial filters orig)) buf out

def InterestsWord (filters : Bool) (buf out : List Byte) : Prop :=
  Replaces 2 (fun orig => interesting16.flatMap (DetRun.interestTrials 2 swap16 filters orig))
      buf out ∨
    Replaces 4 (fun orig => interesting32.flatMap (DetRun.interestTrials 4 swap32 filters orig))
      buf out

section
variable {buf skipEffMap : List Byte}

theorem executes_flipBitsStage (marked : ∀ i < buf.length, bitmapRead skipEffMap i) (n : Nat)
    (some : 0 < n) :
    Executes (· = buf) (· = buf)
      (DetRun.stage skipEffMap (buf.length * 8 - (n - 1)) (· / 8) (DetRun.walkingBits n))
      (FlipsBits n buf) := by
  have stage : Executes (· = buf) (· = buf)
      (DetRun.stage skipEffMap (buf.length * 8 - (n - 1)) (· / 8) (DetRun.walkingBits n))
      (fun out => ∃ cur < buf.length * 8 - (n - 1), out = DetRun.flipBits n buf cur) :=
    Executes.stage (fun cur bound => marked _ (by omega)) fun cur _ => executes_walkingBits n cur buf
  refine stage.congr fun out => exists_congr fun b => and_congr_left fun _ => ?_
  omega

theorem executes_wordStage {blen : Nat} (some : 0 < blen)
    (marked : ∀ i < buf.length, bitmapRead skipEffMap i) {round : DetRun → Nat → DetRun}
    {P : Nat → List Byte → Prop}
    (each : ∀ i, i + blen ≤ buf.length → Executes (· = buf) (· = buf) (round · i) (P i)) :
    Executes (· = buf) (· = buf) (DetRun.stage skipEffMap (buf.length - (blen - 1)) id round)
      (fun out => ∃ i, i + blen ≤ buf.length ∧ P i out) := by
  have stage : Executes (· = buf) (· = buf)
      (DetRun.stage skipEffMap (buf.length - (blen - 1)) id round)
      (fun out => ∃ i < buf.length - (blen - 1), P i out) :=
    Executes.stage (fun cur bound => marked _ (by simp only [id]; omega))
      fun cur bound => each cur (by omega)
  refine stage.congr fun out => exists_congr fun i => and_congr_left fun _ => ?_
  omega

theorem executes_arithStage {blen : Nat} (some : 0 < blen) (small : blen ≤ 4)
    (marked : ∀ i < buf.length, bitmapRead skipEffMap i)
    (trials : BitVec 32 → Nat → List (Bool × BitVec 32)) :
    Executes (· = buf) (· = buf)
      (DetRun.stage skipEffMap (buf.length - (blen - 1)) id (DetRun.arithRound blen trials))
      (Replaces blen (upToArithMax trials) buf) := by
  refine (executes_wordStage some marked fun i inside =>
    executes_arithRound small inside trials).congr fun out => ?_
  refine exists_congr fun i => and_congr_right fun _ => ?_
  simp only [upToArithMax, List.mem_flatMap]
  constructor
  · rintro ⟨j, bound, trial, member, tried⟩
    exact ⟨trial, ⟨j, bound, member⟩, tried⟩
  · rintro ⟨trial, ⟨j, bound, member⟩, tried⟩
    exact ⟨j, bound, trial, member, tried⟩

theorem executes_interestStage {blen : Nat} (some : 0 < blen) (small : blen ≤ 4)
    (marked : ∀ i < buf.length, bitmapRead skipEffMap i) (values : List (BitVec 32))
    (trials : BitVec 32 → BitVec 32 → List (Bool × BitVec 32)) :
    Executes (· = buf) (· = buf)
      (DetRun.stage skipEffMap (buf.length - (blen - 1)) id
        (DetRun.interestRound blen values trials))
      (Replaces blen (fun orig => values.flatMap (trials orig)) buf) := by
  refine (executes_wordStage some marked fun i inside =>
    executes_interestRound small inside values trials).congr fun out => ?_
  refine exists_congr fun i => and_congr_right fun _ => ?_
  simp only [List.mem_flatMap]
  constructor
  · rintro ⟨v, known, trial, member, tried⟩
    exact ⟨trial, ⟨v, known, member⟩, tried⟩
  · rintro ⟨trial, ⟨v, known, member⟩, tried⟩
    exact ⟨v, known, trial, member, tried⟩

theorem executes_interest8Stage (marked : ∀ i < buf.length, bitmapRead skipEffMap i)
    (filters : Bool) :
    Executes (· = buf) (· = buf) (DetRun.interest8 filters skipEffMap buf.length)
      (InterestsByte filters buf) := by
  have stage := executes_wordStage Nat.one_pos marked
    fun i inside => executes_interest8Round (i := i) inside filters
  refine stage.congr fun out => exists_congr fun i => and_congr_right fun _ => ?_
  simp only [List.mem_map, exists_exists_and_eq_and]

theorem executes_flipStages (marked : ∀ i < buf.length, bitmapRead skipEffMap i) :
    Executes (· = buf) (· = buf)
      (fun s => DetRun.flip32 skipEffMap buf.length (DetRun.flip16 skipEffMap buf.length
        (DetRun.flip8 skipEffMap buf.length (DetRun.flip4 skipEffMap buf.length
          (DetRun.flip2 skipEffMap buf.length (DetRun.flip1 skipEffMap buf.length s))))))
      (Flips buf) := by
  have word (blen : Nat) (some : 0 < blen) (small : blen ≤ 4) :
      Executes (· = buf) (· = buf)
        (DetRun.stage skipEffMap (buf.length - (blen - 1)) id (DetRun.walkingBytes blen))
        (FlipsWord blen buf) :=
    executes_wordStage some marked fun i inside => executes_walkingBytes small inside
  have bits := executes_flipBitsStage marked
  have all := (((((bits 1 (by decide)).comp (bits 2 (by decide))).comp (bits 4 (by decide))).comp
    (word 1 (by decide) (by decide))).comp (word 2 (by decide) (by decide))).comp
    (word 4 (by decide) (by decide))
  exact all.congr fun out => by simp only [Flips, or_assoc]

theorem executes_arithStages (marked : ∀ i < buf.length, bitmapRead skipEffMap i)
    (filters : Bool) :
    Executes (· = buf) (· = buf)
      (fun s => DetRun.arith32 filters skipEffMap buf.length
        (DetRun.arith16 filters skipEffMap buf.length
          (DetRun.arith8 filters skipEffMap buf.length s)))
      (Adjusts filters buf) := by
  have all := ((executes_arithStage Nat.one_pos (by decide) marked
    (DetRun.arith8Trials filters)).comp
    (executes_arithStage Nat.two_pos (by decide) marked (DetRun.arith16Trials filters))).comp
    (executes_arithStage (by decide : 0 < 4) (by decide) marked (DetRun.arith32Trials filters))
  exact all.congr fun out => by simp only [Adjusts, or_assoc]

theorem executes_interestStages (marked : ∀ i < buf.length, bitmapRead skipEffMap i)
    (filters : Bool) :
    Executes (· = buf) (· = buf)
      (fun s => DetRun.interest32 filters skipEffMap buf.length
        (DetRun.interest16 filters skipEffMap buf.length s))
      (InterestsWord filters buf) :=
  (executes_interestStage Nat.two_pos (by decide) marked interesting16
    (DetRun.interestTrials 2 swap16 filters)).comp
    (executes_interestStage (by decide : 0 < 4) (by decide) marked interesting32
      (DetRun.interestTrials 4 swap32 filters))

/-- Where every byte is marked, the stages execute the seed and what differs from it by one
step. -/
theorem mem_detStages (marked : ∀ i < buf.length, bitmapRead skipEffMap i)
    (filters noArith : Bool) (out : List Byte) :
    out ∈ (detStages filters noArith skipEffMap buf).executed ↔
      out = buf ∨ Flips buf out ∨ InterestsByte filters buf out ∨
        noArith = false ∧ (Adjusts filters buf out ∨ InterestsWord filters buf out) := by
  have flips := executes_flipStages marked
  have byte := executes_interest8Stage marked filters
  cases noArith with
  | true =>
    obtain ⟨_, executed⟩ := (flips.comp byte) ⟨buf, [buf]⟩ rfl
    refine (executed out).trans ?_
    simp only [List.mem_singleton, Bool.true_eq_false, false_and, or_false]
  | false =>
    have words := executes_interestStages marked filters
    obtain ⟨_, executed⟩ :=
      (((flips.comp (executes_arithStages marked filters)).comp byte).comp words)
        ⟨buf, [buf]⟩ rfl
    refine (executed out).trans ?_
    simp only [List.mem_singleton, true_and]
    tauto

end

end Swam.Afl
