import Swam.Afl.Handshake

/-!
# The steps of the handshake

The bytes in the status pipe and those that the target is still to write are, in this order, the
bytes that the fuzzer is still to read, and what it has agreed on is what they said.
-/
namespace Swam.Afl.Handshake

open Lib

/-! ## Words and their bytes -/

theorem wordOf_bytes (x : Word) : wordOf (nthByte x 0) (nthByte x 1) (nthByte x 2) (nthByte x 3) = x := by
  have whole (y : BitVec 8) : nthByte y 0 = y := by
    apply BitVec.eq_of_getLsbD_eq
    intro i small
    rw [getLsbD_nthByte, decide_eq_true small, Nat.mul_zero, Nat.zero_add, Bool.true_and]
  refine @eq_of_nthByte _ 4 (by decide) _ _ ?_
  intro j small
  rw [wordOf, nthByte_append _ _ 1 j rfl, nthByte_append _ _ 1 (j - 1) rfl,
    nthByte_append _ _ 1 (j - 1 - 1) rfl]
  match j with
  | 0 | 1 | 2 | 3 => simp [whole]

@[simp] theorem length_bytes (x : Word) : x.bytes.length = 4 := rfl

theorem hello_version (fsrv : Fsrv) : fuzzerHello fsrv version = (.sendReply version, fsrv) := by
  have known : ¬ version &&& fsNewError = fsNewError := by decide
  have inside : hello ≤ version ∧ version ≤ 0x41464cff := by decide
  have supported : ¬ (version - hello = 0 ∨ version - hello < fsNewVersionMin ∨
      fsNewVersionMax < version - hello) := by decide
  rw [fuzzerHello, if_neg known, if_pos inside]
  exact if_neg supported

section
variable (t : Target)

theorem options_mapsize : t.options &&& fsNewOptMapsize ≠ 0 := by
  unfold Target.options
  cases t.sharedmemFuzzing <;> cases t.dictionary.isEmpty <;> cases t.ijonEnabled <;> decide

theorem options_shdmem : t.options &&& fsNewOptShdmemFuzz ≠ 0 ↔ t.sharedmemFuzzing = true := by
  unfold Target.options
  cases t.sharedmemFuzzing <;> cases t.dictionary.isEmpty <;> cases t.ijonEnabled <;> decide

theorem options_autodict : t.options &&& fsNewOptAutodict ≠ 0 ↔ t.dictionary.isEmpty = false := by
  unfold Target.options
  cases t.sharedmemFuzzing <;> cases t.dictionary.isEmpty <;> cases t.ijonEnabled <;> decide

theorem options_ijon : t.options &&& fsOptIjon ≠ 0 ↔ t.ijonEnabled = true := by
  unfold Target.options
  cases t.sharedmemFuzzing <;> cases t.dictionary.isEmpty <;> cases t.ijonEnabled <;> decide

end

theorem welcome_version (fsrv : Fsrv) : fuzzerWelcome version fsrv version = (.up, fsrv) := by
  unfold fuzzerWelcome
  cases fsrv.useIjon
  · exact if_neg (by decide)
  · exact if_neg (by decide)

/-! ## The invariant -/

section
variable (t : Target)

/-- What follows the size of the map. -/
def lastPart : List Byte :=
  (if t.dictionary.isEmpty then []
    else Word.bytes (BitVec.ofNat 32 t.dictionary.length) ++ t.dictionary) ++ version.bytes

/-- The bytes that the target is still to write. -/
def toSend : TargetAt → List Byte
  | .sendVersion => version.bytes ++ (t.options.bytes ++ (t.mapSize.bytes ++ lastPart t))
  | .readReply => t.options.bytes ++ (t.mapSize.bytes ++ lastPart t)
  | .sendOptions => t.options.bytes ++ (t.mapSize.bytes ++ lastPart t)
  | .sendMapSize => t.mapSize.bytes ++ lastPart t
  | .sendDictLen => Word.bytes (BitVec.ofNat 32 t.dictionary.length) ++ (t.dictionary ++ version.bytes)
  | .sendDict rest => rest ++ version.bytes
  | .sendWelcome => version.bytes
  | .connected => []
  | .exited => []

/-- The bytes that the fuzzer is still to read. -/
def toRead : FuzzerAt → List Byte
  | .readHello => version.bytes ++ (t.options.bytes ++ (t.mapSize.bytes ++ lastPart t))
  | .sendReply _ => t.options.bytes ++ (t.mapSize.bytes ++ lastPart t)
  | .readOptions _ => t.options.bytes ++ (t.mapSize.bytes ++ lastPart t)
  | .readMapSize _ _ => t.mapSize.bytes ++ lastPart t
  | .readDictSize _ => Word.bytes (BitVec.ofNat 32 t.dictionary.length) ++ (t.dictionary ++ version.bytes)
  | .readDict _ _ dict => t.dictionary.drop dict.length ++ version.bytes
  | .readWelcome _ => version.bytes
  | .up => []
  | .oldModel => []
  | .fatal => []

/-- What the fuzzer agrees on before the dictionary. -/
def Fsrv.agreed (fsrv : Fsrv) : Fsrv := { fsrv with
  mapSize := roundedUp t.mapSize
  realMapSize := t.mapSize
  useShmemFuzz := fsrv.useShmemFuzz || t.sharedmemFuzzing
  useIjon := fsrv.useIjon || t.ijonEnabled }

/-- What the fuzzer agrees on. -/
def Fsrv.final (fsrv : Fsrv) : Fsrv :=
  if t.dictionary.isEmpty then fsrv.agreed t else (fsrv.agreed t).addExtras t.dictionary

/-- A target and a fuzzer that fit: the map is not too big for the fuzzer, which has shared memory
for the test cases if the target wants it, and the dictionary is neither tiny nor huge. -/
structure Fit (fsrv : Fsrv) : Prop where
  map : ¬ (if fsrv.mapSize = 0 then mapSizeDefault else fsrv.mapSize) < roundedUp t.mapSize
  shmem : t.sharedmemFuzzing = true → fsrv.supportShmemFuzz = true
  dictionary : t.dictionary.isEmpty = false → 2 ≤ t.dictionary.length ∧ t.dictionary.length ≤ 0xffffff

/-- The target is in the middle of its dictionary only with bytes of it left. -/
def TargetAt.Sound : TargetAt → Prop
  | .sendDictLen => t.dictionary.isEmpty = false
  | .sendDict rest => rest.isEmpty = false ∧ rest.length ≤ t.dictionary.length
  | .exited => False
  | _ => True

/-- Where the fuzzer is, and what it has agreed on. -/
def FuzzerAt.Sound (start now : Fsrv) : FuzzerAt → Prop
  | .readHello => now = start
  | .sendReply keep => keep = version ∧ now = start
  | .readOptions keep => keep = version ∧ now = start
  | .readMapSize keep status => keep = version ∧ status = t.options ∧ now = start
  | .readDictSize keep => keep = version ∧ t.dictionary.isEmpty = false ∧ now = start.agreed t
  | .readDict keep size dict => keep = version ∧ t.dictionary.isEmpty = false ∧
      size = t.dictionary.length ∧ dict = t.dictionary.take dict.length ∧ dict.length < size ∧
      now = start.agreed t
  | .readWelcome keep => keep = version ∧ now = start.final t
  | .up => now = start.final t
  | .oldModel => False
  | .fatal => False

/-- The answer of the fuzzer in the other pipe. -/
inductive Answered (ctl : List Byte) : TargetAt → FuzzerAt → Prop
  | before {target : TargetAt} {fuzzer : FuzzerAt}
      (first : target = .sendVersion ∨ target = .readReply)
      (silent : fuzzer = .readHello ∨ ∃ keep, fuzzer = .sendReply keep) (empty : ctl = []) :
      Answered ctl target fuzzer
  | sent {target : TargetAt} {fuzzer : FuzzerAt} (there : target = .readReply)
      (said : fuzzer ≠ .readHello ∧ ∀ keep, fuzzer ≠ .sendReply keep)
      (answer : ctl = Word.bytes (version ^^^ 0xffffffff)) : Answered ctl target fuzzer
  | heard {target : TargetAt} {fuzzer : FuzzerAt}
      (past : target ≠ .sendVersion ∧ target ≠ .readReply)
      (said : fuzzer ≠ .readHello ∧ ∀ keep, fuzzer ≠ .sendReply keep) (empty : ctl = []) :
      Answered ctl target fuzzer

structure Inv (start : Fsrv) (s : State) : Prop where
  stream : s.st ++ toSend t s.target = toRead t s.fuzzer
  target : s.target.Sound t
  fuzzer : s.fuzzer.Sound t start s.fsrv
  answered : Answered s.ctl s.target s.fuzzer

theorem initial_inv (start : Fsrv) : Inv t start (initial start) where
  stream := List.nil_append _
  target := trivial
  fuzzer := rfl
  answered := .before (.inl rfl) (.inl rfl) rfl

end

/-! ## Words that are read -/

section
variable {t : Target} {start : Fsrv} {s s' : State}

theorem isEmpty_iff_length (bytes : List Byte) : bytes.isEmpty = false ↔ 0 < bytes.length := by
  cases bytes <;> simp

theorem length_lastPart : (t.dictionary.length = 0 ∧ (lastPart t).length = 4) ∨
    (0 < t.dictionary.length ∧ (lastPart t).length = 8 + t.dictionary.length) := by
  unfold lastPart
  cases empty : t.dictionary.isEmpty with
  | true => exact .inl ⟨by simpa using empty, rfl⟩
  | false =>
    refine .inr ⟨(isEmpty_iff_length _).mp empty, ?_⟩
    simp only [Bool.false_eq_true, if_false, List.length_append, length_bytes]
    omega

/-- The fuzzer waits for a word. -/
def FuzzerAt.ReadsWord : FuzzerAt → Prop
  | .readHello => True
  | .readOptions _ => True
  | .readMapSize _ _ => True
  | .readDictSize _ => True
  | .readWelcome _ => True
  | _ => False

/-- There is never a part of a word in the pipe when the fuzzer reads one. -/
theorem Inv.whole_word (inv : Inv t start s) (reads : s.fuzzer.ReadsWord) :
    s.st = [] ∨ 4 ≤ s.st.length := by
  have lengths := congrArg List.length inv.stream
  have target := inv.target
  have fuzzer := inv.fuzzer
  have last := @length_lastPart t
  rw [← List.length_eq_zero_iff]
  rw [List.length_append] at lengths
  cases there : s.target with
  | exited =>
    rw [there] at target
    exact target.elim
  | sendVersion | readReply | sendOptions | sendMapSize | sendDictLen | sendDict | sendWelcome | connected =>
    rw [there] at lengths target
    cases here : s.fuzzer with
    | sendReply | readDict | up | oldModel | fatal =>
      rw [here] at reads
      exact reads.elim
    | readHello | readOptions | readMapSize | readDictSize | readWelcome =>
      -- How much of its stream the target has sent and the fuzzer has read.
      rw [here] at lengths fuzzer
      simp only [toSend, toRead, List.length_append, List.length_nil, length_bytes, TargetAt.Sound,
        FuzzerAt.Sound, isEmpty_iff_length] at lengths target fuzzer
      omega

/-- A read of a word that is whole in the pipe. -/
theorem hear_word {next : Word → FuzzerAt × Fsrv} {x : Word} {unsent more : List Byte}
    (stream : s.st ++ unsent = x.bytes ++ more) (whole : s.st = [] ∨ 4 ≤ s.st.length)
    (heard : s.hear next = some s') :
    ∃ st, st ++ unsent = more ∧ s' = { s with st, fuzzer := (next x).1, fsrv := (next x).2 } := by
  unfold State.hear at heard
  split at heard
  next => cases heard
  next a b c d st held =>
    rw [held] at stream
    simp only [Word.bytes, List.cons_append, List.nil_append, List.cons.injEq] at stream
    obtain ⟨rfl, rfl, rfl, rfl, rest⟩ := stream
    rw [wordOf_bytes] at heard
    exact ⟨st, rest, (Option.some.inj heard).symm⟩
  next empty short =>
    exfalso
    rcases whole with none | long
    · exact empty none
    · match held : s.st with
      | [] | [_] | [_, _] | [_, _, _] => simp [held] at long
      | a :: b :: c :: d :: st => exact short a b c d st held

/-- The answer has been sent: the other pipe is as it was whatever the fuzzer reads. -/
theorem Answered.move {ctl : List Byte} {target : TargetAt} {fuzzer fuzzer' : FuzzerAt}
    (answered : Answered ctl target fuzzer) (said : fuzzer ≠ .readHello ∧ ∀ keep, fuzzer ≠ .sendReply keep)
    (said' : fuzzer' ≠ .readHello ∧ ∀ keep, fuzzer' ≠ .sendReply keep) : Answered ctl target fuzzer' := by
  cases answered with
  | before _ silent =>
    rcases silent with here | ⟨keep, here⟩
    · exact absurd here said.1
    · exact absurd here (said.2 keep)
  | sent there _ answer => exact .sent there said' answer
  | heard past _ empty => exact .heard past said' empty

theorem afterMapSize_options (fsrv : Fsrv) (shmem : t.sharedmemFuzzing = true → fsrv.supportShmemFuzz = true) :
    afterMapSize version t.options fsrv =
      (if t.dictionary.isEmpty then .readWelcome version else .readDictSize version, { fsrv with
        useShmemFuzz := fsrv.useShmemFuzz || t.sharedmemFuzzing
        useIjon := fsrv.useIjon || t.ijonEnabled }) := by
  unfold afterMapSize
  rw [if_neg]
  · simp only [options_shdmem, options_ijon, options_autodict]
    cases t.dictionary.isEmpty <;> simp
  · rintro ⟨asked, missing⟩
    rw [shmem ((options_shdmem t).mp asked)] at missing
    cases missing

theorem fuzzerMapSize_fit {start : Fsrv} (fit : Fit t start) :
    fuzzerMapSize version t.options start t.mapSize =
      (if t.dictionary.isEmpty then .readWelcome version else .readDictSize version, start.agreed t) := by
  unfold fuzzerMapSize
  simp only
  rw [if_neg fit.map, afterMapSize_options]
  · rfl
  · exact fit.shmem

theorem fuzzerDictSize_fit {start : Fsrv} (fit : Fit t start) (some : t.dictionary.isEmpty = false) (fsrv : Fsrv) :
    fuzzerDictSize version fsrv (BitVec.ofNat 32 t.dictionary.length) =
      (.readDict version t.dictionary.length [], fsrv) := by
  obtain ⟨low, high⟩ := fit.dictionary some
  have size : (BitVec.ofNat 32 t.dictionary.length).toNat = t.dictionary.length := by
    rw [BitVec.toNat_ofNat]
    omega
  unfold fuzzerDictSize
  rw [size, if_neg]
  rintro (tiny | huge)
  · have tiny := BitVec.lt_def.mp tiny
    rw [size] at tiny
    exact absurd tiny (Nat.not_lt_of_le low)
  · have huge := BitVec.lt_def.mp huge
    rw [size] at huge
    exact absurd huge (Nat.not_lt_of_le high)

/-! ## The steps of the fuzzer -/

/-- A piece of the dictionary. -/
theorem readDict_inv {capacity rlen size : Nat} {keep : Word} {dict : List Byte} (inv : Inv t start s)
    (here : s.fuzzer = .readDict keep size dict) (step : fuzzerStep capacity s rlen = some s') :
    Inv t start s' := by
  have said : s.fuzzer ≠ .readHello ∧ ∀ keep, s.fuzzer ≠ .sendReply keep := by simp [here]
  have sound := inv.fuzzer
  have stream := inv.stream
  rw [here] at sound stream
  obtain ⟨rfl, some, rfl, prefix_, short, settings⟩ := sound
  simp only [toRead] at stream
  simp only [fuzzerStep, here] at step
  split at step
  next bounds =>
    obtain ⟨_, inside, fits⟩ := bounds
    -- The piece is the next one of the dictionary.
    have piece : s.st.take rlen = (t.dictionary.drop dict.length).take rlen := by
      have front := congrArg (List.take rlen) stream
      rw [List.take_append_of_le_length inside, List.take_append_of_le_length (by simpa using fits)] at front
      exact front
    have grown : dict ++ s.st.take rlen = t.dictionary.take (dict.length + rlen) := by
      rw [piece, List.take_add, ← prefix_]
    have length : (dict ++ s.st.take rlen).length = dict.length + rlen := by
      rw [List.length_append, List.length_take]
      omega
    have rest : s.st.drop rlen ++ toSend t s.target =
        t.dictionary.drop (dict.length + rlen) ++ version.bytes := by
      have back := congrArg (List.drop rlen) stream
      rw [List.drop_append_of_le_length inside, List.drop_append_of_le_length (by simpa using fits),
        List.drop_drop] at back
      exact back
    split at step
    next more =>
      cases step
      refine ⟨?_, inv.target, ⟨rfl, some, rfl, ?_, more, settings⟩, inv.answered.move said (by simp)⟩
      · simp only [toRead, length]
        exact rest
      · rw [length]
        exact grown
    next done =>
      cases step
      have all : dict.length + rlen = t.dictionary.length := by omega
      rw [all] at grown rest
      rw [List.drop_length, List.nil_append] at rest
      rw [List.take_length] at grown
      refine ⟨rest, inv.target, ⟨rfl, ?_⟩, inv.answered.move said (by simp)⟩
      simp only [grown, Fsrv.final, some, settings]
      rfl
  next => cases step

theorem fuzzerStep_inv {capacity rlen : Nat} (fit : Fit t start) (inv : Inv t start s)
    (step : fuzzerStep capacity s rlen = some s') : Inv t start s' := by
  have sound := inv.fuzzer
  have stream := inv.stream
  have whole := inv.whole_word
  have answered := inv.answered
  cases here : s.fuzzer with
  | readHello =>
    rw [here] at sound stream answered
    simp only [fuzzerStep, here] at step
    obtain ⟨st, rest, rfl⟩ := hear_word stream (whole (here ▸ trivial)) step
    rw [hello_version]
    refine ⟨rest, inv.target, ⟨rfl, sound⟩, ?_⟩
    cases answered with
    | before first _ empty => exact .before first (.inr ⟨version, rfl⟩) empty
    | sent _ said | heard _ said => exact absurd rfl said.1
  | sendReply keep =>
    rw [here] at sound stream answered
    obtain ⟨rfl, settings⟩ := sound
    simp only [fuzzerStep, here] at step
    split at step
    next =>
      cases step
      refine ⟨stream, inv.target, ⟨rfl, settings⟩, ?_⟩
      cases answered with
      | before first _ empty =>
        rcases first with there | there
        · -- The hello that the fuzzer has read was sent.
          rw [there] at stream
          have lengths := congrArg List.length stream
          simp only [toSend, toRead, List.length_append, length_bytes] at lengths
          omega
        · simp only [empty, List.nil_append]
          exact .sent there (by simp) rfl
      | sent _ said | heard _ said => exact absurd rfl (said.2 version)
    next => cases step
  | readOptions keep =>
    rw [here] at sound stream answered
    obtain ⟨rfl, settings⟩ := sound
    simp only [fuzzerStep, here] at step
    obtain ⟨st, rest, rfl⟩ := hear_word stream (whole (here ▸ trivial)) step
    rw [fuzzerOptions, if_pos (options_mapsize t)]
    exact ⟨rest, inv.target, ⟨rfl, rfl, settings⟩, answered.move (by simp) (by simp)⟩
  | readMapSize keep status =>
    rw [here] at sound stream answered
    obtain ⟨rfl, rfl, settings⟩ := sound
    simp only [fuzzerStep, here] at step
    obtain ⟨st, rest, rfl⟩ := hear_word stream (whole (here ▸ trivial)) step
    rw [settings, fuzzerMapSize_fit fit]
    unfold lastPart at rest
    cases some : t.dictionary.isEmpty with
    | true =>
      rw [some] at rest
      refine ⟨rest, inv.target, ⟨rfl, ?_⟩, answered.move (by simp) (by simp)⟩
      simp only [Fsrv.final, some, if_true]
    | false =>
      rw [some] at rest
      refine ⟨?_, inv.target, ⟨rfl, some, rfl⟩, answered.move (by simp) (by simp)⟩
      simpa [toRead] using rest
  | readDictSize keep =>
    rw [here] at sound stream answered
    obtain ⟨rfl, some, settings⟩ := sound
    simp only [fuzzerStep, here] at step
    obtain ⟨st, rest, rfl⟩ := hear_word stream (whole (here ▸ trivial)) step
    rw [fuzzerDictSize_fit fit some]
    have positive := (isEmpty_iff_length _).mp some
    exact ⟨rest, inv.target, ⟨rfl, some, rfl, rfl, positive, settings⟩, answered.move (by simp) (by simp)⟩
  | readDict keep size dict => exact readDict_inv inv here step
  | readWelcome keep =>
    rw [here] at sound stream answered
    obtain ⟨rfl, settings⟩ := sound
    simp only [fuzzerStep, here] at step
    have stream : s.st ++ toSend t s.target = version.bytes ++ [] := stream
    obtain ⟨st, rest, rfl⟩ := hear_word stream (whole (here ▸ trivial)) step
    rw [welcome_version]
    exact ⟨rest, inv.target, settings, answered.move (by simp) (by simp)⟩
  | up | oldModel | fatal => simp [fuzzerStep, here] at step

/-! ## The steps of the target -/

/-- A write leaves the stream as it is. -/
theorem tell_inv {capacity : Nat} {bytes : List Byte} {next : TargetAt} (inv : Inv t start s)
    (told : s.tell capacity bytes next = some s') (split : toSend t s.target = bytes ++ toSend t next)
    (target : next.Sound t) (answered : Answered s.ctl next s.fuzzer) : Inv t start s' := by
  unfold State.tell at told
  split at told
  · cases told
    refine ⟨?_, target, inv.fuzzer, answered⟩
    have stream := inv.stream
    rw [split, ← List.append_assoc] at stream
    exact stream
  · cases told

/-- The answer has been read: the target goes on writing. -/
theorem Answered.advance {ctl : List Byte} {target target' : TargetAt} {fuzzer : FuzzerAt}
    (answered : Answered ctl target fuzzer) (past : target ≠ .sendVersion ∧ target ≠ .readReply)
    (past' : target' ≠ .sendVersion ∧ target' ≠ .readReply) : Answered ctl target' fuzzer := by
  cases answered with
  | before first =>
    rcases first with here | here
    · exact absurd here past.1
    · exact absurd here past.2
  | sent there => exact absurd there past.2
  | heard _ said empty => exact .heard past' said empty

theorem targetStep_inv {capacity ret : Nat} (inv : Inv t start s)
    (step : targetStep capacity t s ret = some s') : Inv t start s' := by
  have sound := inv.target
  have answered := inv.answered
  cases here : s.target with
  | sendVersion =>
    rw [here] at answered
    simp only [targetStep, here] at step
    refine tell_inv inv step (by rw [here]; rfl) trivial ?_
    cases answered with
    | before _ silent empty => exact .before (.inr rfl) silent empty
    | sent there => cases there
    | heard past => exact absurd rfl past.1
  | readReply =>
    rw [here] at answered
    simp only [targetStep, here] at step
    cases answered with
    | before _ _ empty => simp [empty] at step
    | heard past => exact absurd rfl past.2
    | sent _ said answer =>
      rw [answer] at step
      simp only [Word.bytes, wordOf_bytes, if_true] at step
      cases step
      refine ⟨?_, trivial, inv.fuzzer, .heard (by simp) said rfl⟩
      have stream := inv.stream
      rw [here] at stream
      exact stream
  | sendOptions =>
    rw [here] at answered
    simp only [targetStep, here] at step
    exact tell_inv inv step (by rw [here]; rfl) trivial (answered.advance (by simp) (by simp))
  | sendMapSize =>
    rw [here] at answered
    simp only [targetStep, here, Target.afterMapSize] at step
    cases some : t.dictionary.isEmpty with
    | true =>
      rw [some] at step
      refine tell_inv inv step ?_ trivial (answered.advance (by simp) (by simp))
      simp [here, toSend, lastPart, some]
    | false =>
      rw [some] at step
      refine tell_inv inv step ?_ some (answered.advance (by simp) (by simp))
      simp [here, toSend, lastPart, some]
  | sendDictLen =>
    rw [here] at answered sound
    simp only [targetStep, here] at step
    exact tell_inv inv step (by rw [here]; rfl) ⟨sound, Nat.le_refl _⟩
      (answered.advance (by simp) (by simp))
  | sendDict rest =>
    rw [here] at answered sound
    simp only [targetStep, here] at step
    split at step
    next bounds =>
      have pieces : rest ++ version.bytes = rest.take ret ++ (rest.drop ret ++ version.bytes) := by
        rw [← List.append_assoc, List.take_append_drop]
      cases left : (rest.drop ret).isEmpty with
      | true =>
        rw [left] at step
        refine tell_inv inv step ?_ trivial (answered.advance (by simp) (by simp))
        rw [List.isEmpty_iff.mp left] at pieces
        rw [here]
        exact pieces
      | false =>
        rw [left] at step
        refine tell_inv inv step ?_ ⟨left, ?_⟩ (answered.advance (by simp) (by simp))
        · rw [here]
          exact pieces
        · rw [List.length_drop]
          exact Nat.le_trans (Nat.sub_le _ _) sound.2
    next => cases step
  | sendWelcome =>
    rw [here] at answered
    simp only [targetStep, here] at step
    exact tell_inv inv step (by rw [here]; rfl) trivial (answered.advance (by simp) (by simp))
  | connected | exited => simp [targetStep, here] at step

theorem step_inv {capacity : Nat} {act : Act} (fit : Fit t start) (inv : Inv t start s)
    (took : step capacity t s act = some s') : Inv t start s' := by
  cases act with
  | target ret => exact targetStep_inv inv took
  | fuzzer rlen => exact fuzzerStep_inv fit inv took

end

end Swam.Afl.Handshake
