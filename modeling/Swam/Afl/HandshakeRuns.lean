import Swam.Lib.Trace
import Swam.Afl.HandshakeSteps
import Swam.Afl.UserTokens

/-!
# What the handshake agrees on

However the two sides take turns, and in whatever pieces the dictionary goes through, they end, and
with the same settings.
-/
namespace Swam.Afl.Handshake

open Lib

section
variable {t : Target} {start : Fsrv} {s s' : State}

/-! ## Runs end -/

/-- The target has not read the answer. -/
def TargetAt.early : TargetAt → Nat
  | .sendVersion => 1
  | .readReply => 1
  | _ => 0

/-- The fuzzer has not sent the answer. -/
def FuzzerAt.silent : FuzzerAt → Nat
  | .readHello => 1
  | .sendReply _ => 1
  | _ => 0

theorem FuzzerAt.silent_le (fuzzer : FuzzerAt) : fuzzer.silent ≤ 1 := by
  cases fuzzer <;> simp [FuzzerAt.silent]

/-- What is left to be written and to be read, and the answer. -/
def State.left (t : Target) (s : State) : Nat :=
  (toSend t s.target).length + (toRead t s.fuzzer).length + s.target.early + s.fuzzer.silent

theorem tell_effect {capacity : Nat} {bytes : List Byte} {next : TargetAt}
    (told : s.tell capacity bytes next = some s') (some_bytes : 0 < bytes.length)
    (order : next.early ≤ s.target.early) :
    s'.fuzzer = s.fuzzer ∧ s.st.length < s'.st.length ∧ s'.target.early ≤ s.target.early := by
  unfold State.tell at told
  split at told
  · cases told
    refine ⟨rfl, ?_, order⟩
    simp only [List.length_append]
    omega
  · cases told

/-- The target writes something, or reads the answer. -/
theorem targetStep_effect {capacity ret : Nat} (step : targetStep capacity t s ret = some s') :
    (s'.fuzzer = s.fuzzer ∧ s.st.length < s'.st.length ∧ s'.target.early ≤ s.target.early) ∨
      (s'.fuzzer = s.fuzzer ∧ s.st = s'.st ∧ s'.target.early < s.target.early) := by
  cases here : s.target with
  | readReply =>
    simp only [targetStep, here] at step
    refine .inr ?_
    split at step
    · cases step
    · split at step
      · cases step
        exact ⟨rfl, rfl, Nat.one_pos⟩
      · cases step
        exact ⟨rfl, rfl, Nat.one_pos⟩
    · cases step
      exact ⟨rfl, rfl, Nat.one_pos⟩
  | sendVersion | sendOptions | sendDictLen | sendWelcome =>
    simp only [targetStep, here] at step
    rw [← here]
    exact .inl (tell_effect step (by simp) (by simp [here, TargetAt.early]))
  | sendMapSize =>
    simp only [targetStep, here, Target.afterMapSize] at step
    rw [← here]
    refine .inl (tell_effect step (by simp) ?_)
    split <;> exact Nat.zero_le _
  | sendDict rest =>
    simp only [targetStep, here] at step
    rw [← here]
    split at step
    next bounds =>
      refine .inl (tell_effect step ?_ ?_)
      · rw [List.length_take]
        omega
      · split <;> exact Nat.zero_le _
    next => cases step
  | connected | exited => simp [targetStep, here] at step

theorem hear_effect {next : Word → FuzzerAt × Fsrv} (whole : s.st = [] ∨ 4 ≤ s.st.length)
    (heard : s.hear next = some s') : s'.target = s.target ∧ s'.st.length + 4 = s.st.length := by
  unfold State.hear at heard
  split at heard
  next => cases heard
  next a b c d st held =>
    cases heard
    exact ⟨rfl, by rw [held]; rfl⟩
  next empty short =>
    exfalso
    rcases whole with none | long
    · exact empty none
    · match held : s.st with
      | [] | [_] | [_, _] | [_, _, _] => simp [held] at long
      | a :: b :: c :: d :: st => exact short a b c d st held

/-- The fuzzer reads a word, a piece of the dictionary, or sends the answer. -/
theorem fuzzerStep_effect {capacity rlen : Nat} (inv : Inv t start s)
    (step : fuzzerStep capacity s rlen = some s') :
    s'.target = s.target ∧ (s'.st.length + 4 = s.st.length ∨
      (s'.st.length < s.st.length ∧ s'.fuzzer.silent = 0) ∨
      (s'.st = s.st ∧ s'.fuzzer.silent < s.fuzzer.silent)) := by
  have whole := inv.whole_word
  cases here : s.fuzzer with
  | readHello | readOptions | readMapSize | readDictSize | readWelcome =>
    simp only [fuzzerStep, here] at step
    obtain ⟨target, shorter⟩ := hear_effect (whole (here ▸ trivial)) step
    exact ⟨target, .inl shorter⟩
  | sendReply keep =>
    simp only [fuzzerStep, here] at step
    split at step
    · cases step
      exact ⟨rfl, .inr (.inr ⟨rfl, Nat.one_pos⟩)⟩
    · cases step
  | readDict keep size dict =>
    simp only [fuzzerStep, here] at step
    split at step
    next bounds =>
      have shorter : (s.st.drop rlen).length < s.st.length := by
        rw [List.length_drop]
        omega
      split at step
      · cases step
        exact ⟨rfl, .inr (.inl ⟨shorter, rfl⟩)⟩
      · cases step
        exact ⟨rfl, .inr (.inl ⟨shorter, rfl⟩)⟩
    next => cases step
  | up | oldModel | fatal => simp [fuzzerStep, here] at step

/-- Every step leaves less to do. -/
theorem step_left {capacity : Nat} {act : Act} (inv : Inv t start s) (inv' : Inv t start s')
    (took : step capacity t s act = some s') : s'.left t < s.left t := by
  have before := congrArg List.length inv.stream
  have after := congrArg List.length inv'.stream
  rw [List.length_append] at before after
  unfold State.left
  cases act with
  | target ret =>
    rcases targetStep_effect took with ⟨fuzzer, longer, order⟩ | ⟨fuzzer, same, order⟩
    · rw [fuzzer] at after ⊢
      omega
    · rw [fuzzer] at after ⊢
      rw [same] at before
      omega
  | fuzzer rlen =>
    have quiet := s'.fuzzer.silent_le
    obtain ⟨target, shorter | ⟨shorter, said⟩ | ⟨same, said⟩⟩ := fuzzerStep_effect inv took
    · rw [target] at after ⊢
      omega
    · rw [target] at after ⊢
      omega
    · rw [target, same] at after
      rw [target]
      omega

/-- With nothing in the pipe it is the turn of the target. -/
theorem Inv.target_enabled {capacity : Nat} (inv : Inv t start s) (room : 4 ≤ capacity) (empty : s.st = [])
    (some_left : toSend t s.target ≠ []) (answer : s.target = .readReply → s.ctl ≠ []) :
    ∃ act s', step capacity t s act = some s' := by
  have fits {bytes : List Byte} {next : TargetAt} (few : bytes.length ≤ 4) :
      ∃ s', s.tell capacity bytes next = some s' := by
    unfold State.tell
    rw [empty, if_pos (by simp; omega)]
    exact ⟨_, rfl⟩
  have sound := inv.target
  cases here : s.target with
  | sendVersion =>
    obtain ⟨s', took⟩ := @fits version.bytes .readReply (Nat.le_refl _)
    exact ⟨.target 0, s', by simpa [step, targetStep, here] using took⟩
  | readReply =>
    have some_answer := answer here
    refine ⟨.target 0, ?_⟩
    simp only [step, targetStep, here]
    split
    next none => exact absurd none some_answer
    next => split <;> exact ⟨_, rfl⟩
    next => exact ⟨_, rfl⟩
  | sendOptions =>
    obtain ⟨s', took⟩ := @fits t.options.bytes .sendMapSize (Nat.le_refl _)
    exact ⟨.target 0, s', by simpa [step, targetStep, here] using took⟩
  | sendMapSize =>
    obtain ⟨s', took⟩ := @fits t.mapSize.bytes t.afterMapSize (Nat.le_refl _)
    exact ⟨.target 0, s', by simpa [step, targetStep, here] using took⟩
  | sendDictLen =>
    obtain ⟨s', took⟩ := @fits (Word.bytes (BitVec.ofNat 32 t.dictionary.length)) (.sendDict t.dictionary)
      (Nat.le_refl _)
    exact ⟨.target 0, s', by simpa [step, targetStep, here] using took⟩
  | sendDict rest =>
    rw [here] at sound
    have positive := (isEmpty_iff_length _).mp sound.1
    obtain ⟨s', took⟩ := @fits (rest.take 1)
      (if (rest.drop 1).isEmpty then .sendWelcome else .sendDict (rest.drop 1))
      (by rw [List.length_take]; omega)
    refine ⟨.target 1, s', ?_⟩
    simp only [step, targetStep, here]
    rw [if_pos ⟨Nat.le_refl _, positive⟩]
    exact took
  | sendWelcome =>
    obtain ⟨s', took⟩ := @fits version.bytes .connected (Nat.le_refl _)
    exact ⟨.target 0, s', by simpa [step, targetStep, here] using took⟩
  | connected | exited => simp [here, toSend] at some_left

theorem hear_enabled {next : Word → FuzzerAt × Fsrv} (some_left : s.st ≠ []) :
    ∃ s', s.hear next = some s' := by
  unfold State.hear
  split
  next none => exact absurd none some_left
  next => exact ⟨_, rfl⟩
  next => exact ⟨_, rfl⟩

/-- As long as the fuzzer is not up somebody can go on. -/
theorem Inv.progress {capacity : Nat} (inv : Inv t start s) (room : 4 ≤ capacity)
    (unfinished : s.fuzzer ≠ .up) : ∃ act s', step capacity t s act = some s' := by
  have sound := inv.fuzzer
  have answered := inv.answered
  have stream := inv.stream
  by_cases empty : s.st = []
  · cases here : s.fuzzer with
    | sendReply keep =>
      rw [here] at answered
      have none : s.ctl = [] := by
        cases answered with
        | before _ _ none => exact none
        | sent _ said | heard _ said => exact absurd rfl (said.2 keep)
      refine ⟨.fuzzer 0, ?_⟩
      simp only [step, fuzzerStep, here, none]
      rw [if_pos (by simpa using room)]
      exact ⟨_, rfl⟩
    | up => exact absurd here unfinished
    | oldModel | fatal =>
      rw [here] at sound
      exact sound.elim
    | readHello | readOptions | readMapSize | readDictSize | readDict | readWelcome =>
      rw [empty, List.nil_append] at stream
      rw [here] at stream answered
      refine inv.target_enabled room empty ?_ ?_
      · rw [stream]
        simp [toRead, Word.bytes]
      · intro there
        cases answered with
        | before _ silent =>
          -- The hello is not in the pipe, so it was not sent.
          have lengths := congrArg List.length stream
          simp [there, toSend, toRead] at lengths silent
        | sent _ _ answer =>
          rw [answer]
          exact List.cons_ne_nil _ _
        | heard past => exact absurd there past.2
  · cases here : s.fuzzer with
    | readHello | readOptions | readMapSize | readDictSize | readWelcome =>
      refine ⟨.fuzzer 0, ?_⟩
      simp only [step, fuzzerStep, here]
      exact hear_enabled empty
    | sendReply keep =>
      rw [here] at answered
      have none : s.ctl = [] := by
        cases answered with
        | before _ _ none => exact none
        | sent _ said | heard _ said => exact absurd rfl (said.2 keep)
      refine ⟨.fuzzer 0, ?_⟩
      simp only [step, fuzzerStep, here, none]
      rw [if_pos (by simpa using room)]
      exact ⟨_, rfl⟩
    | readDict keep size dict =>
      rw [here] at sound
      refine ⟨.fuzzer 1, ?_⟩
      have positive : 0 < s.st.length := List.length_pos_iff.mpr empty
      simp only [step, fuzzerStep, here]
      rw [if_pos ⟨Nat.le_refl _, positive, by have := sound.2.2.2.2.1; omega⟩]
      split <;> exact ⟨_, rfl⟩
    | up => exact absurd here unfinished
    | oldModel | fatal =>
      rw [here] at sound
      exact sound.elim

end

/-! ## Whole runs -/

section
variable {t : Target} {start : Fsrv} {capacity : Nat} {acts : List Act} {s : State}

abbrev Reachable (capacity : Nat) (t : Target) (start : Fsrv) : List Act → State → Prop :=
  Trace (· = initial start) fun s act s' => step capacity t s act = some s'

theorem reachable_inv (fit : Fit t start) (run : Reachable capacity t start acts s) : Inv t start s := by
  refine run.invariant ?_ fun _ _ _ inv took => step_inv fit inv took
  rintro _ rfl
  exact initial_inv t start

/-- Whatever turns the two take and however the dictionary is cut, neither gives up, and when the
fuzzer is up the target is connected, the pipes are empty and the settings are those of the target.
The fuzzer waits for the first word no longer than `init_tmout`: the runs are those in which it
arrives in time. -/
theorem handshake_agrees (fit : Fit t start) (run : Reachable capacity t start acts s) :
    s.fuzzer ≠ .fatal ∧ s.fuzzer ≠ .oldModel ∧ s.target ≠ .exited ∧
      (s.fuzzer = .up → s.target = .connected ∧ s.ctl = [] ∧ s.st = [] ∧ s.fsrv = start.final t) := by
  have inv := reachable_inv fit run
  have fuzzer := inv.fuzzer
  have target := inv.target
  refine ⟨?_, ?_, ?_, ?_⟩
  · intro here
    rw [here] at fuzzer
    exact fuzzer
  · intro here
    rw [here] at fuzzer
    exact fuzzer
  · intro there
    rw [there] at target
    exact target
  · intro here
    have stream := inv.stream
    have answered := inv.answered
    rw [here] at stream fuzzer answered
    obtain ⟨empty, sent⟩ := List.append_eq_nil_iff.mp stream
    have there : s.target = .connected := by
      cases there : s.target with
      | connected => rfl
      | exited =>
        rw [there] at target
        exact target.elim
      | sendDict rest =>
        rw [there] at sent
        simp [toSend, Word.bytes] at sent
      | sendVersion | readReply | sendOptions | sendMapSize | sendDictLen | sendWelcome =>
        rw [there] at sent
        simp [toSend, Word.bytes] at sent
    refine ⟨there, ?_, empty, fuzzer⟩
    cases answered with
    | before _ silent => simp at silent
    | sent waiting =>
      rw [there] at waiting
      cases waiting
    | heard _ _ none => exact none

/-- The handshake of a target that fits comes to its end: there are never more steps than the
dictionary is long allows, and as long as the fuzzer is not up one is possible, if a word fits into
a pipe. A fuzzer that stops waiting for the first word is left out here too. -/
theorem handshake_ends (fit : Fit t start) (room : 4 ≤ capacity) (run : Reachable capacity t start acts s) :
    acts.length ≤ 2 * t.dictionary.length + 42 ∧
      (s.fuzzer ≠ .up → ∃ act s', step capacity t s act = some s') := by
  refine ⟨?_, (reachable_inv fit run).progress room⟩
  have spent : Inv t start s ∧ acts.length + s.left t ≤ (initial start).left t := by
    refine run.history (P := fun acts s => Inv t start s ∧
      acts.length + s.left t ≤ (initial start).left t) ?_ ?_
    · rintro _ rfl
      exact ⟨initial_inv t start, Nat.le_of_eq (Nat.zero_add _)⟩
    · rintro acts s act s' ⟨inv, bound⟩ took
      have inv' := step_inv fit inv took
      have less := step_left inv inv' took
      refine ⟨inv', ?_⟩
      rw [List.length_cons]
      omega
  have all : (initial start).left t ≤ 2 * t.dictionary.length + 42 := by
    have last := @length_lastPart t
    simp only [State.left, initial, toSend, toRead, TargetAt.early, FuzzerAt.silent, List.length_append,
      length_bytes]
    omega
  have := spent.2
  omega

end

/-! ## The dictionary -/

/-- What the fuzzer takes apart is what the compiler pass put together. -/
theorem tokensOf_packed {tokens : List (List Byte)} (small : ∀ token ∈ tokens, token.length < 256)
    {fuel : Nat} (enough : tokens.length ≤ fuel) : tokensOf fuel (packed tokens) = tokens := by
  induction tokens generalizing fuel with
  | nil => cases fuel <;> rfl
  | cons token tokens ih =>
    cases fuel with
    | zero => simp at enough
    | succ fuel =>
      have length : (BitVec.ofNat 8 token.length).toNat = token.length := by
        rw [BitVec.toNat_ofNat]
        exact Nat.mod_eq_of_lt (small token List.mem_cons_self)
      have rest := ih (fun token member => small token (List.mem_cons_of_mem _ member))
        (Nat.le_of_succ_le_succ enough)
      have whole : packed (token :: tokens) =
          BitVec.ofNat 8 token.length :: (token ++ packed tokens) := rfl
      rw [whole, tokensOf, length, if_pos (by rw [List.length_append]; omega),
        List.take_left, List.drop_left, rest]

theorem fitting_subset (tokens : List (List Byte)) (offset count : Nat) :
    fitting tokens offset count ⊆ tokens := by
  induction tokens generalizing offset count with
  | nil => exact List.Subset.refl _
  | cons token tokens ih =>
    rw [fitting]
    split
    · exact List.cons_subset_cons token (ih _ _)
    · exact List.Subset.trans (ih _ _) (List.subset_cons_self _ _)

theorem length_packed_cons (token : List Byte) (tokens : List (List Byte)) :
    (packed (token :: tokens)).length = 1 + token.length + (packed tokens).length := by
  simp only [packed, List.flatMap_cons, List.length_append, List.length_cons]
  omega

/-- The dictionary stays below the size at which the fuzzer gives up. -/
theorem length_fitting_le (tokens : List (List Byte)) {offset : Nat} (count : Nat)
    (below : offset ≤ 0xfffff0) : offset + (packed (fitting tokens offset count)).length ≤ 0xfffff0 := by
  induction tokens generalizing offset count with
  | nil => exact below
  | cons token tokens ih =>
    rw [fitting]
    split
    next fits =>
      have rest := @ih (offset + 1 + token.length) (count + 1) (by omega)
      rw [length_packed_cons]
      omega
    next => exact ih count below

theorem length_le_packed (tokens : List (List Byte)) : tokens.length ≤ (packed tokens).length := by
  induction tokens with
  | nil => exact Nat.le_refl _
  | cons token tokens ih =>
    rw [length_packed_cons, List.length_cons]
    omega

/-- Every token finds room when all of them together do. -/
theorem fitting_all {tokens : List (List Byte)} {offset count : Nat}
    (room : offset + (packed tokens).length ≤ 0xfffff0) (few : count + tokens.length ≤ maxAutoExtras) :
    fitting tokens offset count = tokens := by
  induction tokens generalizing offset count with
  | nil => rfl
  | cons token tokens ih =>
    rw [length_packed_cons] at room
    rw [List.length_cons] at few
    rw [fitting, if_pos (by omega), ih (by omega) (by omega)]

/-- From the compiler pass to a fuzzer that wants the dictionary: the tokens that found room arrive,
all of them and in their order, whatever turns the two sides take. They are the calls of
`add_extra_func`; `add_extra` leaves out what it knows and what is too long, and sorts. -/
theorem dictionary_arrives {tokens : List (List Byte)} {t : Target} {start : Fsrv} {capacity : Nat}
    {acts : List Act} {s : State} (sizes : ∀ token ∈ tokens, 0 < token.length ∧ token.length < 256)
    (made : t.dictionary = dictionaryOf tokens)
    (map : ¬ (if start.mapSize = 0 then mapSizeDefault else start.mapSize) < roundedUp t.mapSize)
    (shmem : t.sharedmemFuzzing = true → start.supportShmemFuzz = true)
    (wanted : start.ignoreAutodict = false ∧ start.hasAddExtra = true)
    (run : Reachable capacity t start acts s) :
    s.fuzzer ≠ .fatal ∧ (s.fuzzer = .up → s.fsrv.extras = start.extras ++ fitting tokens 0 0) ∧
      (s.fuzzer = .up → ∀ extras, UserTokens.Kept extras →
        ∀ calls : List (UserTokens.LengthSort × Token), calls.map Prod.snd = s.fsrv.extras →
          UserTokens.Kept (UserTokens.addExtras calls extras) ∧
            ∀ token, token ∈ UserTokens.addExtras calls extras ↔ token ∈ extras ∨
              token ∈ start.extras ++ fitting tokens 0 0 ∧ token.length ≤ maxDictFile) ∧
      ((packed tokens).length ≤ 0xfffff0 → tokens.length ≤ maxAutoExtras → fitting tokens 0 0 = tokens) := by
  have subset := fitting_subset tokens 0 0
  have fit : Fit t start := by
    refine ⟨map, shmem, ?_⟩
    rw [made]
    intro some
    have short := length_fitting_le tokens 0 (Nat.zero_le 0xfffff0)
    refine ⟨?_, by unfold dictionaryOf; omega⟩
    unfold dictionaryOf at some ⊢
    cases first : fitting tokens 0 0 with
    | nil =>
      rw [first] at some
      cases some
    | cons token rest =>
      have here : token ∈ tokens := subset (by rw [first]; exact List.mem_cons_self)
      have := (sizes token here).1
      rw [length_packed_cons]
      omega
  obtain ⟨alive, _, _, agreed⟩ := handshake_agrees fit run
  have arrived (up : s.fuzzer = .up) : s.fsrv.extras = start.extras ++ fitting tokens 0 0 := by
    rw [(agreed up).2.2.2, Fsrv.final]
    split
    next none =>
      rw [made] at none
      have nothing : fitting tokens 0 0 = [] := by
        have empty : packed (fitting tokens 0 0) = [] := List.isEmpty_iff.mp none
        have few := length_le_packed (fitting tokens 0 0)
        rw [empty] at few
        exact List.eq_nil_of_length_eq_zero (Nat.le_zero.mp few)
      rw [nothing, List.append_nil]
      rfl
    next =>
      have apart := tokensOf_packed (fun token member => (sizes token (subset member)).2)
        (length_le_packed (fitting tokens 0 0))
      rw [made, Fsrv.addExtras]
      simp only [Fsrv.agreed, wanted, Bool.not_false, Bool.and_self, if_true]
      exact congrArg (start.extras ++ ·) apart
  refine ⟨alive, arrived, ?_, ?_⟩
  · intro up extras kept calls made
    refine ⟨UserTokens.addExtras_kept kept calls, fun token => ?_⟩
    rw [UserTokens.mem_addExtras kept calls, made, arrived up]
  · intro room few
    exact fitting_all (by omega) (by omega)

/-! ## A run -/

def steps (capacity : Nat) (t : Target) : List Act → State → Option State
  | [], s => some s
  | act :: acts, s => (step capacity t s act).bind (steps capacity t acts)

theorem reachable_steps {t : Target} {start : Fsrv} {capacity : Nat} {past acts : List Act} {s s' : State}
    (run : Reachable capacity t start past s) (went : steps capacity t acts s = some s') :
    Reachable capacity t start (acts.reverse ++ past) s' := by
  induction acts generalizing past s with
  | nil =>
    cases went
    exact run
  | cons act acts ih =>
    obtain ⟨mid, took, rest⟩ := Option.bind_eq_some_iff.mp went
    rw [List.reverse_cons, List.append_assoc]
    exact ih (run.next took) rest

/-- A target with one token. -/
def oneToken : Target := ⟨100, true, false, dictionaryOf [[1, 2, 3]]⟩

def freshFsrv : Fsrv := ⟨0, 0, true, false, false, false, true, []⟩

theorem oneToken_fit : Fit oneToken freshFsrv := ⟨by decide, fun _ => rfl, fun _ => by decide⟩

/-- The dictionary goes through in two pieces, which the fuzzer reads as two others. -/
def twoPieces : List Act :=
  [.target 0, .fuzzer 0, .fuzzer 0, .target 0, .target 0, .target 0, .target 0, .target 3, .fuzzer 0,
    .fuzzer 0, .fuzzer 0, .fuzzer 1, .target 1, .fuzzer 3, .target 0, .fuzzer 0]

theorem twoPieces_up : ∃ s, Reachable 64 oneToken freshFsrv twoPieces.reverse s ∧ s.fuzzer = .up := by
  obtain ⟨s, went, up⟩ : ∃ s, steps 64 oneToken twoPieces (initial freshFsrv) = some s ∧ s.fuzzer = .up :=
    ⟨_, rfl, rfl⟩
  refine ⟨s, ?_, up⟩
  simpa using reachable_steps (.start rfl) went

theorem handshake_agrees_twoPieces : ∃ s, Reachable 64 oneToken freshFsrv twoPieces.reverse s ∧
    s.fsrv.realMapSize = 100 ∧ s.fsrv.mapSize = 128 ∧ s.target = .connected := by
  obtain ⟨s, run, up⟩ := twoPieces_up
  obtain ⟨there, _, _, settings⟩ := (handshake_agrees oneToken_fit run).2.2.2 up
  exact ⟨s, run, by rw [settings]; rfl, by rw [settings]; rfl, there⟩

theorem handshake_ends_twoPieces : ∃ s, Reachable 64 oneToken freshFsrv twoPieces.reverse s ∧
    twoPieces.reverse.length ≤ 2 * oneToken.dictionary.length + 42 := by
  obtain ⟨s, run, _⟩ := twoPieces_up
  exact ⟨s, run, (handshake_ends oneToken_fit (by decide) run).1⟩

theorem dictionary_arrives_twoPieces : ∃ s, Reachable 64 oneToken freshFsrv twoPieces.reverse s ∧
    s.fsrv.extras = [[1, 2, 3]] := by
  obtain ⟨s, run, up⟩ := twoPieces_up
  have arrived := (@dictionary_arrives [[1, 2, 3]] _ _ _ _ _ (by decide) rfl oneToken_fit.map oneToken_fit.shmem
    ⟨rfl, rfl⟩ run).2.1 up
  exact ⟨s, run, arrived⟩

end Swam.Afl.Handshake
