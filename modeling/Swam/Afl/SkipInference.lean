import Swam.Afl.Testcases
import Swam.Lib.Loops

/-!
# The inference phase of the deterministic stages

`skip_deterministic_stage` first looks for ranges of a long seed whose bytes do not matter. It
flips a block, executes the target, flips the block back and doubles the block as long as the
checksum stays that of the seed; the last block that changed nothing is cleared in
`inf_eff_map`.
-/
namespace Swam.Afl

open Lib

def minimalBlockSize : Nat := 64

abbrev Cksum := BitVec 64

/-- What `common_fuzz_stuff` and the hash of the trace answer to the `n`-th execution of the
phase: `none` when the entry is to be abandoned. Nothing is assumed of a target; it may answer
differently to the same buffer. -/
abbrev Target := Nat → List Byte → Option Cksum

/-- One execution of the loop: the range that was flipped, the buffer and the answer. -/
structure Flip where
  pos : Nat
  size : Nat
  input : List Byte
  cksum : Option Cksum

/-- The locals of the phase; `flips` records its executions, the most recent first. -/
structure Inference where
  outBuf : List Byte
  infEffMap : List Byte
  pos : Nat
  curBlockSize : Nat
  stageCur : Nat
  infSkippedBytes : Nat
  flips : List Flip

namespace Inference

/-- Flips a block, executes the target and flips the block back. -/
def execute (target : Target) (size : Nat) (s : Inference) : Option Cksum × Inference :=
  let flipped := flipRange s.outBuf s.pos size
  -- execution 0 was that of the unchanged seed
  let cksum := target (s.flips.length + 1) flipped
  let s := { s with
    stageCur := s.stageCur + 1
    flips := ⟨s.pos, size, flipped, cksum⟩ :: s.flips }
  match cksum with
  | none => (none, { s with outBuf := flipped })
  | some cksum => (some cksum, { s with outBuf := flipRange flipped s.pos size })

/-- The body of the inner loop. -/
def probe (target : Target) (len : Nat) (prevCksum : Cksum) (s : Inference) :
    Round Inference Inference :=
  let flipBlockSize :=
    if u32 (s.curBlockSize + s.pos) < len then s.curBlockSize else len - 1 - s.pos
  match s.execute target flipBlockSize with
  | (none, s) => .stop s
  | (some cksum, s) =>
    -- continue until we fail or exceed length
    if cksum = prevCksum then
      let s := { s with curBlockSize := u32 (s.curBlockSize * 2) }
      if s.curBlockSize ≥ len - 1 - s.pos then .leave s else .next s
    else .leave s

/-- After the inner loop: to the next position, over what need not be fuzzed. -/
def advance (len : Nat) (s : Inference) : Inference :=
  if s.curBlockSize = minimalBlockSize then
    -- we failed early on
    { s with pos := u32 (s.pos + s.curBlockSize) }
  else
    let curSkipLen :=
      if u32 (s.curBlockSize / 2 + s.pos) < len then s.curBlockSize / 2 else len - s.pos - 1
    { s with
      infEffMap := memset s.infEffMap s.pos 0 curSkipLen
      infSkippedBytes := s.infSkippedBytes + curSkipLen
      pos := u32 (s.pos + curSkipLen) }

/-- The body of the outer loop. -/
def infer (target : Target) (len : Nat) (prevCksum : Cksum) (s : Inference) :
    Option (Round Inference Inference) :=
  match roundLoop (fun s => s.curBlockSize < len / 8)
      (fun s => some (s.probe target len prevCksum)) len
      { s with curBlockSize := minimalBlockSize } with
  | none => none
  | some (.error s) => some (.stop s)
  | some (.ok s) => some (.next (s.advance len))

end Inference

/-- The phase: `.error` where the stage returns `0`, `none` if a loop did not end within as
many rounds as the seed has bytes. -/
def skipInference (target : Target) (origBuf outBuf : List Byte) :
    Option (Except Inference Inference) :=
  let len := outBuf.length
  let s : Inference := ⟨outBuf, List.replicate len 1, 0, minimalBlockSize, 0, 0, []⟩
  match target 0 origBuf with
  | none => some (.error s)
  | some prevCksum =>
    if minimalBlockSize * 8 < len then
      roundLoop (fun s => s.pos < len - 1) (Inference.infer target len prevCksum) len s
    else some (.ok { s with infEffMap := memset s.infEffMap 0 1 len })

/-! ## What the phase may clear -/

/-- Each execution got the seed with one range flipped as a whole, each cleared byte lies in a
range whose flip left the checksum at that of the seed. -/
structure Inference.Sound (outBuf : List Byte) (baseline : Option Cksum) (s : Inference) :
    Prop where
  flips : ∀ f ∈ s.flips,
    f.input = flipRange outBuf f.pos f.size ∧ f.pos + f.size ≤ outBuf.length
  size : s.infEffMap.length = outBuf.length
  cleared : ∀ (i : Nat) (b : Byte), s.infEffMap[i]? = some b → b = 1 ∨ b = 0 ∧
    ∃ f ∈ s.flips, f.pos ≤ i ∧ i < f.pos + f.size ∧ f.cksum = baseline ∧ baseline.isSome

namespace Inference

section
variable (target : Target) {outBuf : List Byte} {prevCksum : Cksum}

/-- One more execution. -/
theorem Sound.execute {baseline : Option Cksum} {s : Inference} (size : Nat)
    (sound : s.Sound outBuf baseline) (same : s.outBuf = outBuf)
    (inside : s.pos + size ≤ outBuf.length) :
    (s.execute target size).2.Sound outBuf baseline := by
  have effects : (s.execute target size).2.infEffMap = s.infEffMap ∧
      (s.execute target size).2.flips =
        ⟨s.pos, size, flipRange s.outBuf s.pos size,
          target (s.flips.length + 1) (flipRange s.outBuf s.pos size)⟩ :: s.flips := by
    rw [Inference.execute]
    dsimp only
    split <;> exact ⟨rfl, rfl⟩
  constructor
  · intro f member
    rw [effects.2] at member
    rcases List.mem_cons.mp member with rfl | earlier
    · exact ⟨congrArg (flipRange · s.pos size) same, inside⟩
    · exact sound.flips f earlier
  · rw [effects.1]
    exact sound.size
  · intro i b found
    rw [effects.1] at found
    refine (sound.cleared i b found).imp_right fun ⟨zero, f, member, covers⟩ => ⟨zero, f, ?_, covers⟩
    rw [effects.2]
    exact List.mem_cons_of_mem _ member

/-- An answered execution leaves the buffer as it was. -/
theorem execute_some {target : Target} {s s' : Inference} {size : Nat} {cksum : Cksum}
    (ran : s.execute target size = (some cksum, s')) :
    s'.outBuf = s.outBuf ∧ s'.pos = s.pos ∧ s'.curBlockSize = s.curBlockSize ∧
      ∃ f, s'.flips = f :: s.flips ∧ f.pos = s.pos ∧ f.size = size ∧ f.cksum = some cksum := by
  rw [Inference.execute] at ran
  dsimp only at ran
  split at ran
  · simp at ran
  next answered =>
    obtain ⟨rfl, rfl⟩ := Prod.mk.inj ran |>.imp_left Option.some.inj
    exact ⟨flipRange_flipRange _ _ _, rfl, rfl, _, rfl, rfl, rfl, answered⟩

/-- The executed block. -/
def blockSize (len pos curBlockSize : Nat) : Nat :=
  if curBlockSize + pos < len then curBlockSize else len - 1 - pos

/-- The invariant of the inner loop at position `pos`: after its first round the last execution
has flipped the block of half the current size and met the checksum of the seed. -/
structure Probing (outBuf : List Byte) (prevCksum : Cksum) (pos : Nat) (s : Inference) : Prop where
  sound : s.Sound outBuf (some prevCksum)
  same : s.outBuf = outBuf
  here : s.pos = pos
  lower : minimalBlockSize ≤ s.curBlockSize
  upper : s.curBlockSize < outBuf.length
  grown : s.curBlockSize = minimalBlockSize ∨
    2 * minimalBlockSize ≤ s.curBlockSize ∧ ∃ f ∈ s.flips, f.pos = pos ∧
      f.size = blockSize outBuf.length pos (s.curBlockSize / 2) ∧ f.cksum = some prevCksum

theorem blockSize_inside {len pos : Nat} (inside : pos < len - 1) (curBlockSize : Nat) :
    pos + blockSize len pos curBlockSize ≤ len := by
  unfold blockSize
  split <;> omega

/-- Below `MAX_FILE` no sum wraps. -/
theorem blockSize_u32 {len pos curBlockSize : Nat} (small : len ≤ maxFile) (inside : pos < len - 1)
    (upper : curBlockSize < len) :
    (if u32 (curBlockSize + pos) < len then curBlockSize else len - 1 - pos) =
      blockSize len pos curBlockSize := by
  rw [u32_eq (by unfold maxFile at small; omega), blockSize]

theorem Probing.probe (small : outBuf.length ≤ maxFile) {pos : Nat}
    (inside : pos < outBuf.length - 1) {s : Inference}
    (probing : Probing outBuf prevCksum pos s) (runs : s.curBlockSize < outBuf.length / 8) :
    (s.probe target outBuf.length prevCksum).Ends
      (fun s' => Probing outBuf prevCksum pos s' ∧
        outBuf.length - s'.curBlockSize < outBuf.length - s.curBlockSize)
      (Probing outBuf prevCksum pos) (Sound outBuf (some prevCksum)) := by
  rw [Inference.probe, probing.here, blockSize_u32 small inside probing.upper]
  have sound := probing.sound.execute target (blockSize outBuf.length pos s.curBlockSize)
    probing.same (probing.here ▸ blockSize_inside inside _)
  split
  next s' ran =>
    rw [ran] at sound
    exact sound
  next cksum s' ran =>
    rw [ran] at sound
    obtain ⟨buffer, position, block, f, flips, fpos, fsize, answer⟩ := execute_some ran
    have lower := probing.lower
    have upper := probing.upper
    split
    next equal =>
      have doubled : u32 (s'.curBlockSize * 2) = 2 * s.curBlockSize := by
        rw [u32_eq (by unfold maxFile at small; omega)]
        omega
      have next : Probing outBuf prevCksum pos
          { s' with curBlockSize := u32 (s'.curBlockSize * 2) } := by
        constructor
        · exact ⟨sound.flips, sound.size, sound.cleared⟩
        · exact buffer.trans probing.same
        · exact position.trans probing.here
        · show minimalBlockSize ≤ u32 (s'.curBlockSize * 2)
          omega
        · show u32 (s'.curBlockSize * 2) < outBuf.length
          omega
        · refine .inr ⟨?_, f, flips ▸ List.mem_cons_self, fpos.trans probing.here, ?_, equal ▸ answer⟩
          · show 2 * minimalBlockSize ≤ u32 (s'.curBlockSize * 2)
            omega
          · rw [fsize]
            congr 1
            show s.curBlockSize = u32 (s'.curBlockSize * 2) / 2
            omega
      dsimp only
      split
      · exact next
      · refine ⟨next, ?_⟩
        show outBuf.length - u32 (s'.curBlockSize * 2) < _
        unfold minimalBlockSize at lower
        omega
    next different =>
      constructor
      · exact sound
      · exact buffer.trans probing.same
      · exact position.trans probing.here
      · rw [block]; exact lower
      · rw [block]; exact upper
      · rw [block]
        refine probing.grown.imp_right fun ⟨twice, f, member, found⟩ => ⟨twice, f, ?_, found⟩
        exact flips ▸ List.mem_cons_of_mem _ member

/-- The inner loop ends, with the invariant. -/
theorem probing_finishes (small : outBuf.length ≤ maxFile)
    (long : minimalBlockSize * 8 < outBuf.length) {s : Inference}
    (sound : s.Sound outBuf (some prevCksum)) (same : s.outBuf = outBuf)
    (inside : s.pos < outBuf.length - 1) :
    Finishes (Probing outBuf prevCksum s.pos) (Sound outBuf (some prevCksum))
      (roundLoop (fun s => s.curBlockSize < outBuf.length / 8)
        (fun s => some (s.probe target outBuf.length prevCksum)) outBuf.length
        { s with curBlockSize := minimalBlockSize }) := by
  refine roundLoop_finishes (Probing outBuf prevCksum s.pos)
    (fun s => outBuf.length - s.curBlockSize) (fun _ probing _ => probing) ?_ _ _ ?_ ?_
  · intro s' probing runs
    exact ⟨_, rfl, probing.probe target small inside (by simpa using runs)⟩
  · refine ⟨⟨sound.flips, sound.size, sound.cleared⟩, same, rfl, Nat.le_refl _, ?_, .inl rfl⟩
    show minimalBlockSize < outBuf.length
    omega
  · show outBuf.length - minimalBlockSize < outBuf.length
    unfold minimalBlockSize at long ⊢
    omega

/-- The invariant of the outer loop. -/
structure Inferring (outBuf : List Byte) (prevCksum : Cksum) (s : Inference) : Prop where
  sound : s.Sound outBuf (some prevCksum)
  same : s.outBuf = outBuf

/-- What is cleared is the range of the last execution that changed nothing. -/
theorem Probing.advance (small : outBuf.length ≤ maxFile) {pos : Nat}
    (inside : pos < outBuf.length - 1) {s : Inference} (probing : Probing outBuf prevCksum pos s) :
    Inferring outBuf prevCksum (s.advance outBuf.length) ∧
      pos < (s.advance outBuf.length).pos := by
  have here := probing.here
  have upper := probing.upper
  rw [Inference.advance]
  split
  next early =>
    refine ⟨⟨⟨probing.sound.flips, probing.sound.size, probing.sound.cleared⟩, probing.same⟩, ?_⟩
    show pos < u32 (s.pos + s.curBlockSize)
    rw [u32_eq (by unfold maxFile at small; omega), early, here]
    unfold minimalBlockSize
    omega
  next late =>
    obtain ⟨twice, f, member, fpos, fsize, answer⟩ := probing.grown.resolve_left late
    unfold minimalBlockSize at twice
    have last : (if u32 (s.curBlockSize / 2 + s.pos) < outBuf.length then s.curBlockSize / 2
        else outBuf.length - s.pos - 1) = f.size := by
      rw [here, Nat.sub_right_comm, blockSize_u32 small inside (by omega), fsize]
    have positive : 0 < f.size := by
      rw [fsize, blockSize]
      split <;> omega
    have within := (probing.sound.flips f member).2
    rw [last, here]
    refine ⟨⟨⟨probing.sound.flips, ?_, ?_⟩, probing.same⟩, ?_⟩
    · show (memset s.infEffMap pos 0 f.size).length = _
      rw [length_memset (by rw [probing.sound.size]; omega), probing.sound.size]
    · intro i b found
      change (memset s.infEffMap pos 0 f.size)[i]? = some b at found
      rw [getElem?_memset (by rw [probing.sound.size]; omega)] at found
      split at found
      next covered =>
        exact .inr ⟨(Option.some.inj found).symm, f, member, by omega, by omega, answer, rfl⟩
      next => exact probing.sound.cleared i b found
    · show pos < u32 (pos + f.size)
      rw [u32_eq (by unfold maxFile at small; omega)]
      omega

theorem Inferring.infer (small : outBuf.length ≤ maxFile)
    (long : minimalBlockSize * 8 < outBuf.length) {s : Inference}
    (inferring : Inferring outBuf prevCksum s) (inside : s.pos < outBuf.length - 1) :
    ∃ ending, s.infer target outBuf.length prevCksum = some ending ∧ ending.Ends
      (fun s' => Inferring outBuf prevCksum s' ∧
        outBuf.length - 1 - s'.pos < outBuf.length - 1 - s.pos)
      (Inferring outBuf prevCksum) (Sound outBuf (some prevCksum)) := by
  obtain ⟨result, ran, ends⟩ := probing_finishes target small long inferring.sound
    inferring.same inside
  rw [Inference.infer, ran]
  cases result with
  | error s' => exact ⟨_, rfl, ends⟩
  | ok s' =>
    obtain ⟨next, further⟩ := Probing.advance small inside ends
    exact ⟨_, rfl, next, by omega⟩

end

end Inference

/-- The phase ends; whatever the target answers, each byte it clears was flipped, in one range
with others, by an execution that met the checksum of the seed. No range reaches beyond the
seed, and a phase that was not abandoned leaves the buffer as it found it. -/
theorem skip_inference_sound (target : Target) (origBuf : List Byte) (seed : Testcase)
    (long : 8 * minimalBlockSize < seed.len) :
    ∃ result, skipInference target origBuf seed.bytes = some result ∧
      match result with
      | .ok s => s.Sound seed.bytes (target 0 origBuf) ∧ s.outBuf = seed.bytes
      | .error s => s.Sound seed.bytes (target 0 origBuf) := by
  have start (baseline : Option Cksum) : Inference.Sound seed.bytes baseline
      ⟨seed.bytes, List.replicate seed.len 1, 0, minimalBlockSize, 0, 0, []⟩ := by
    refine ⟨by simp, List.length_replicate, fun i b found => .inl ?_⟩
    exact List.eq_of_mem_replicate (List.mem_of_getElem? found)
  have big : minimalBlockSize * 8 < seed.bytes.length := by
    rw [Nat.mul_comm]
    exact long
  unfold skipInference
  cases target 0 origBuf with
  | none => exact ⟨_, rfl, start none⟩
  | some prevCksum =>
    simp only [if_pos big]
    have finishes : Finishes (Inference.Inferring seed.bytes prevCksum)
        (Inference.Sound seed.bytes (some prevCksum))
        (roundLoop (fun s => s.pos < seed.bytes.length - 1)
          (Inference.infer target seed.bytes.length prevCksum) seed.bytes.length
          ⟨seed.bytes, List.replicate seed.len 1, 0, minimalBlockSize, 0, 0, []⟩) := by
      refine roundLoop_finishes (Inference.Inferring seed.bytes prevCksum)
        (fun s => seed.bytes.length - 1 - s.pos) (fun _ inferring _ => inferring) ?_ _ _ ?_ ?_
      · intro s inferring runs
        exact inferring.infer target seed.fits big (by simpa using runs)
      · exact ⟨start (some prevCksum), rfl⟩
      · dsimp only
        omega
    obtain ⟨result, ran, ends⟩ := finishes
    refine ⟨result, ran, ?_⟩
    cases result with
    | ok s => exact ⟨ends.sound, ends.same⟩
    | error s => exact ends

/-- The shortest length that is probed. -/
def zeroSeed : Testcase where
  bytes := List.replicate 513 0
  fits := by rw [List.length_replicate]; decide

/-- A target that does not look at its input, and one that is given up at once. -/
theorem skip_inference_sound_zeros :
    (∃ result, skipInference (fun _ _ => some 0) zeroSeed.bytes zeroSeed.bytes = some result ∧
      match result with
      | .ok s => s.Sound zeroSeed.bytes (some 0) ∧ s.outBuf = zeroSeed.bytes
      | .error s => s.Sound zeroSeed.bytes (some 0)) ∧
    ∃ result, skipInference (fun _ _ => none) zeroSeed.bytes zeroSeed.bytes = some result ∧
      match result with
      | .ok s => s.Sound zeroSeed.bytes none ∧ s.outBuf = zeroSeed.bytes
      | .error s => s.Sound zeroSeed.bytes none := by
  have long : 8 * minimalBlockSize < zeroSeed.len := by
    show 8 * 64 < (List.replicate 513 (0 : Byte)).length
    rw [List.length_replicate]
    decide
  exact ⟨skip_inference_sound (fun _ _ => some 0) zeroSeed.bytes zeroSeed long,
    skip_inference_sound (fun _ _ => none) zeroSeed.bytes zeroSeed long⟩

end Swam.Afl
