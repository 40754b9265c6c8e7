import Swam.Afl.Classification

/-!
# How many entries one call queues

The timeout case of `save_if_interesting` jumps back to the queueing code without changing
`fault` and is then entered again on the trace the calibration left. The call queues at most
one entry unless that second round jumps back as well.
-/
namespace Swam.Afl

/-! ## Simplified traces -/

theorem getElem?_rewriteWords (f : Word → Word) (words : Nat) (mem : List Word) (i : Nat) :
    (rewriteWords f words mem)[i]? = mem[i]?.map fun w => if i < words then f w else w := by
  rw [rewriteWords]
  by_cases first : i < (mem.take words).length
  · have bound : i < words := by
      rw [List.length_take] at first
      omega
    rw [List.getElem?_append_left (by simpa using first), List.getElem?_map,
      List.getElem?_take_of_lt bound]
    simp only [bound, if_true]
  · have second : ((mem.take words).map f).length ≤ i := by
      rw [List.length_map]
      exact Nat.le_of_not_lt first
    rw [List.getElem?_append_right second, List.length_map, List.getElem?_drop]
    rw [List.length_take] at first ⊢
    by_cases bound : i < words
    · have past : mem.length ≤ i := by omega
      rw [List.getElem?_eq_none (by omega), List.getElem?_eq_none past]
      rfl
    · have position : words + (i - min words mem.length) = i ∨ mem.length ≤ i := by omega
      rcases position with inside | past
      · simp [inside, bound]
      · rw [List.getElem?_eq_none (by omega), List.getElem?_eq_none past]
        rfl

private theorem simplifyLookup_classified (count : BitVec 8) :
    simplifyLookup (countClassLookup8 count) = simplifyLookup count := by
  simp only [simplifyLookup, countClassLookup8_eq_zero_iff]

theorem classifyWord_ne_zero {w : Word} (nonzero : w ≠ 0) : classifyWord w ≠ 0 := by
  intro empty
  apply nonzero
  apply Word.eq_zero_of_bytes
  intro k bound
  apply (countClassLookup8_eq_zero_iff _).mp
  rw [← classifyWord_byte w bound, empty]
  simp [Word.byte]

/-- Simplification forgets classification. -/
theorem simplifyWord_classified (w : Word) :
    simplifyWord (if w ≠ 0 then classifyWord w else w) = simplifyWord w := by
  by_cases zero : w = 0
  · rw [if_neg (not_not_intro zero)]
  · rw [if_pos zero, simplifyWord, simplifyWord, if_neg (classifyWord_ne_zero zero), if_neg zero]
    simp (disch := decide) only [classifyWord_byte, simplifyLookup_classified]

theorem simplifyTrace_classifyCounts (c : Coverage) :
    simplifyTrace (classifyCounts c) = simplifyTrace c := by
  have same : (simplifyTrace (classifyCounts c)).traceBits = (simplifyTrace c).traceBits := by
    apply List.ext_getElem?
    intro i
    simp only [simplifyTrace, classifyCounts, getElem?_rewriteWords, Option.map_map]
    congr 1
    funext w
    by_cases bound : i < c.mapSize / 8
    · simp only [Function.comp, bound, if_true]
      exact simplifyWord_classified w
    · simp only [Function.comp, bound, if_false]
  calc simplifyTrace (classifyCounts c)
      = { c with traceBits := (simplifyTrace (classifyCounts c)).traceBits } := rfl
    _ = { c with traceBits := (simplifyTrace c).traceBits } := by rw [same]
    _ = simplifyTrace c := rfl

/-! ## The hang test -/

/-- The trace has bits that are new to the hang map; without instrumentation every trace is
new. -/
def NewHang (env : SaveEnv) (c : Coverage) : Prop :=
  env.nonInstrumentedMode = true ∨ (hasNewBits .tmout (simplifyTrace c)).1 ≠ 0

theorem newHang_congr {env : SaveEnv} {c d : Coverage}
    (trace : (simplifyTrace c).traceBits = (simplifyTrace d).traceBits)
    (virgin : c.virginTmout = d.virginTmout) (real : c.realMapSize = d.realMapSize) :
    NewHang env c ↔ NewHang env d := by
  have bits : (hasNewBits .tmout (simplifyTrace c)).1 = (hasNewBits .tmout (simplifyTrace d)).1 := by
    have left : (simplifyTrace c).virgin .tmout = (simplifyTrace d).virgin .tmout := virgin
    have size : (simplifyTrace c).realMapSize = (simplifyTrace d).realMapSize := real
    simp only [hasNewBits, trace, left, size]
  rw [NewHang, NewHang, bits]

/-- The second execution ended neither in a timeout nor in a crash, or the run is stopping. -/
def Completes (e : Execution) : Prop :=
  e.stopSoon = true ∨ e.fault ≠ .tmout ∧ e.fault ≠ .crash

/-- What the timeout case needs to jump back to the queueing code. -/
structure Retries (env : SaveEnv) (a : AflState) : Prop where
  keepTimeouts : env.keepTimeouts = true
  retry : env.execTmout < env.hangTmout
  room : a.savedHangs < env.keepUniqueHang
  hang : NewHang env a.cov
  completes : Completes (env.target a.execs)

private theorem uniqueFault_iff (env : SaveEnv) (a : AflState) :
    (uniqueFault env .tmout a).1 = true ↔ NewHang env a.cov := by
  rw [uniqueFault]
  split
  next free => exact ⟨fun _ => Or.inl free, fun _ => rfl⟩
  next instrumented =>
    constructor
    · intro found
      exact Or.inr (of_decide_eq_true found)
    · intro hang
      exact decide_eq_true (hang.resolve_left instrumented)

private theorem uniqueFault_same (env : SaveEnv) (which : VirginMap) (a : AflState) :
    (uniqueFault env which a).2.savedHangs = a.savedHangs ∧
      (uniqueFault env which a).2.queuedItems = a.queuedItems ∧
      (uniqueFault env which a).2.execs = a.execs := by
  simp only [uniqueFault]
  split <;> exact ⟨rfl, rfl, rfl⟩

/-- The timeout case jumps back exactly when it retries; otherwise it ends the call, at once
or as a crash. It queues nothing. -/
theorem saveHang_spec (env : SaveEnv) (s : Call) :
    ((saveHang env s).1 = .saveToQueue ↔ Retries env s.afl) ∧
      ((saveHang env s).1 = .saveToQueue ∨ (saveHang env s).1 = .keepAsCrash ∨
        (saveHang env s).1 = .returned s.keeping) ∧
      (saveHang env s).2.keeping = s.keeping ∧ (saveHang env s).2.fault = s.fault ∧
      (saveHang env s).2.afl.queuedItems = s.afl.queuedItems := by
  obtain ⟨hangs, queued, execs⟩ :=
    uniqueFault_same env .tmout { s.afl with totalTmouts := s.afl.totalTmouts + 1 }
  have hang := uniqueFault_iff env { s.afl with totalTmouts := s.afl.totalTmouts + 1 }
  simp only [saveHang]
  split
  next full =>
    refine ⟨⟨by simp, fun retries => ?_⟩, by simp, rfl, rfl, rfl⟩
    exact absurd retries.room (Nat.not_lt.mpr full)
  next room =>
    split
    next stale =>
      refine ⟨⟨by simp, fun retries => ?_⟩, by simp, rfl, rfl, queued⟩
      exact absurd (hang.mpr retries.hang) stale
    next fresh =>
      have isNew : NewHang env s.afl.cov := hang.mp (not_not.mp fresh)
      split
      next retry =>
        simp only [AflState.run, execs]
        split
        next crash =>
          refine ⟨⟨by simp, fun retries => ?_⟩, by simp, rfl, rfl, queued⟩
          rcases retries.completes with stop | ⟨_, alive⟩
          · exact absurd stop crash.1
          · exact absurd crash.2 alive
        next alive =>
          split
          next ended =>
            have completes : Completes (env.target s.afl.execs) := by
              rcases ended with stop | noTimeout
              · exact Or.inl stop
              · by_cases stop : (env.target s.afl.execs).stopSoon = true
                · exact Or.inl stop
                · exact Or.inr ⟨noTimeout, fun crash => alive ⟨stop, crash⟩⟩
            split
            next keep =>
              refine ⟨⟨fun _ => ?_, fun _ => rfl⟩, by simp, rfl, rfl, queued⟩
              exact ⟨keep, retry, Nat.lt_of_not_le room, isNew, completes⟩
            next drop =>
              refine ⟨⟨by simp, fun retries => ?_⟩, by simp, rfl, rfl, queued⟩
              exact absurd retries.keepTimeouts drop
          next hung =>
            refine ⟨⟨by simp, fun retries => ?_⟩, by simp, rfl, rfl, queued⟩
            rcases retries.completes with stop | ⟨noTimeout, _⟩
            · exact absurd (Or.inl stop) hung
            · exact absurd (Or.inr noTimeout) hung
      next generous =>
        refine ⟨⟨by simp, fun retries => ?_⟩, by simp, rfl, rfl, queued⟩
        exact absurd retries.retry generous

/-! ## Between the two rounds -/

/-- The trace in `trace_bits` after execution `k`, seen from state `a`. -/
def traceSince (env : SaveEnv) (a : AflState) (k : Nat) : List Word :=
  if k ≤ a.execs then a.cov.traceBits else (env.target (k - 1)).trace

/-- What a state keeps of the first round: hangs saved and entries queued so far, the hang map
and the maps' sizes. Simplified, the trace is that of the last execution. -/
structure Between (env : SaveEnv) (a b : AflState) : Prop where
  savedHangs : b.savedHangs = a.savedHangs
  queuedItems : b.queuedItems = a.queuedItems
  virginTmout : b.cov.virginTmout = a.cov.virginTmout
  mapSize : b.cov.mapSize = a.cov.mapSize
  realMapSize : b.cov.realMapSize = a.cov.realMapSize
  execs : a.execs ≤ b.execs
  trace : (simplifyTrace b.cov).traceBits =
    (simplifyTrace { a.cov with traceBits := traceSince env a b.execs }).traceBits

namespace Between

variable {env : SaveEnv} {a b c : AflState}

theorem initial (a : AflState) : Between env a a := by
  refine ⟨rfl, rfl, rfl, rfl, rfl, Nat.le_refl _, ?_⟩
  rw [traceSince, if_pos (Nat.le_refl _)]

/-- Fields that do not matter here. -/
theorem same (between : Between env a b) (cov : c.cov = b.cov) (execs : c.execs = b.execs)
    (savedHangs : c.savedHangs = b.savedHangs) (queuedItems : c.queuedItems = b.queuedItems) :
    Between env a c := by
  constructor
  · exact savedHangs.trans between.savedHangs
  · exact queuedItems.trans between.queuedItems
  · rw [cov]
    exact between.virginTmout
  · rw [cov]
    exact between.mapSize
  · rw [cov]
    exact between.realMapSize
  · rw [execs]
    exact between.execs
  · rw [cov, execs]
    exact between.trace

theorem run (between : Between env a b) : Between env a (b.run env).2 := by
  have later := between.execs
  refine ⟨between.savedHangs, between.queuedItems, between.virginTmout, between.mapSize,
    between.realMapSize, Nat.le_succ_of_le later, ?_⟩
  have past : ¬ b.execs + 1 ≤ a.execs := by omega
  simp only [AflState.run, simplifyTrace, traceSince, past, if_false, Nat.add_sub_cancel,
    between.mapSize]

theorem classify (between : Between env a b) : Between env a b.classify := by
  refine ⟨between.savedHangs, between.queuedItems, between.virginTmout, between.mapSize,
    between.realMapSize, between.execs, ?_⟩
  simp only [AflState.classify, simplifyTrace_classifyCounts]
  exact between.trace

theorem scan (between : Between env a b) : Between env a (b.scan .bits).2 := by
  obtain ⟨size, real, trace, virgin⟩ := hasNewBits_same .bits b.cov
  refine ⟨between.savedHangs, between.queuedItems,
    (virgin .tmout (by decide)).trans between.virginTmout, size.trans between.mapSize,
    real.trans between.realMapSize, between.execs, ?_⟩
  simp only [AflState.scan, simplifyTrace, trace, size]
  exact between.trace

theorem observe {k : Calibration} (between : Between env a k.afl) :
    Between env a (k.observe env).afl := by
  have scanned := between.classify.scan
  simp only [Calibration.observe]
  split
  · split
    · exact ⟨scanned.savedHangs, scanned.queuedItems, scanned.virginTmout, scanned.mapSize,
        scanned.realMapSize, scanned.execs, scanned.trace⟩
    · exact scanned.same rfl rfl rfl rfl
  · exact between.classify

theorem calibrateLoop : ∀ n (k : Calibration), Between env a k.afl →
    Between env a (calibrateLoop env n k).2.afl
  | 0, k, between => between
  | n + 1, k, between => by
    have ran := between.run
    simp only [Afl.calibrateLoop]
    split
    · split
      · exact ran
      · split
        · exact ran
        · exact Between.calibrateLoop n _ ran.observe
    · exact between

theorem calibrateCase (between : Between env a b) : Between env a (calibrateCase env b).2 := by
  rw [Afl.calibrateCase]
  split
  · exact between
  next entry queue _ =>
    have begun : Between env a (beginCalibration env entry b).afl := by
      simp only [beginCalibration]
      generalize (if env.cmplogMode then { entry with execCksum := 0 } else entry) = current
      split
      · exact between.scan.same rfl rfl rfl rfl
      · exact between
    exact (Between.calibrateLoop calCyclesLong _ begun).same rfl rfl rfl rfl

theorem classifyIfNecessary {s : Call} (between : Between env a s.afl) :
    Between env a (classifyIfNecessary s).afl := by
  rw [Afl.classifyIfNecessary]
  split
  · exact between
  · exact between.classify

theorem calculateCksumIfNecessary {s : Call} (between : Between env a s.afl) :
    Between env a (calculateCksumIfNecessary env s).afl := by
  rw [Afl.calculateCksumIfNecessary]
  split
  · exact between
  · exact between.classifyIfNecessary

theorem calculateNewBitsIfNecessary {s : Call} (between : Between env a s.afl) :
    Between env a (calculateNewBitsIfNecessary env s).afl := by
  simp only [Afl.calculateNewBitsIfNecessary, AflState.scanUnclassified]
  split
  · exact between
  · split
    · exact between.scan
    · split
      · exact between
      · exact between.classify.scan

end Between

/-! ## Blocks and entries -/

private theorem addToQueue_same (env : SaveEnv) (s : Call) :
    (addToQueue env s).cov = s.afl.cov ∧ (addToQueue env s).execs = s.afl.execs ∧
      (addToQueue env s).savedHangs = s.afl.savedHangs ∧
      (addToQueue env s).queuedItems = s.afl.queuedItems + 1 := by
  simp only [addToQueue]
  split <;> exact ⟨rfl, rfl, rfl, rfl⟩

/-- The queueing code adds one entry and goes on with the same fault, or stops the process. -/
theorem saveToQueue_spec {env : SaveEnv} {a : AflState} {s : Call}
    (between : Between env a s.afl) :
    Between env { a with queuedItems := a.queuedItems + 1 } (saveToQueue env s).2.afl ∧
      ((saveToQueue env s).1 = .fatal ∨
        (saveToQueue env s).1 = .maySaveFault ∧ (saveToQueue env s).2.keeping = true) ∧
      (saveToQueue env s).2.fault = s.fault := by
  have ready := between.calculateCksumIfNecessary.calculateNewBitsIfNecessary
  have fault : (calculateNewBitsIfNecessary env (calculateCksumIfNecessary env s)).fault = s.fault := by
    simp only [calculateNewBitsIfNecessary, calculateCksumIfNecessary, classifyIfNecessary,
      AflState.scanUnclassified]
    split_ifs <;> rfl
  obtain ⟨cov, execs, hangs, queued⟩ :=
    addToQueue_same env (calculateNewBitsIfNecessary env (calculateCksumIfNecessary env s))
  have added : Between env { a with queuedItems := a.queuedItems + 1 }
      (addToQueue env (calculateNewBitsIfNecessary env (calculateCksumIfNecessary env s))) := by
    constructor
    · exact hangs.trans ready.savedHangs
    · exact queued.trans (congrArg (· + 1) ready.queuedItems)
    · rw [cov]
      exact ready.virginTmout
    · rw [cov]
      exact ready.mapSize
    · rw [cov]
      exact ready.realMapSize
    · rw [execs]
      exact ready.execs
    · rw [cov, execs]
      exact ready.trace
  have calibrated := added.calibrateCase
  simp only [saveToQueue]
  split
  · exact ⟨calibrated, Or.inl rfl, fault⟩
  · exact ⟨calibrated, Or.inr ⟨rfl, rfl⟩, fault⟩

theorem keepAsCrash_spec (env : SaveEnv) (s : Call) :
    (keepAsCrash env s).1 = .returned s.keeping ∧
      (keepAsCrash env s).2.afl.queuedItems = s.afl.queuedItems := by
  obtain ⟨_, queued, _⟩ :=
    uniqueFault_same env .crash { s.afl with totalCrashes := s.afl.totalCrashes + 1 }
  simp only [keepAsCrash]
  split
  · exact ⟨rfl, rfl⟩
  · split
    · exact ⟨rfl, queued⟩
    · exact ⟨rfl, queued⟩

/-- No block takes entries out of the queue. -/
theorem stepCall_queued (env : SaveEnv) (c : Point × Call) :
    c.2.afl.queuedItems ≤ (stepCall env c).2.afl.queuedItems := by
  obtain ⟨p, s⟩ := c
  cases p with
  | saveToQueue =>
    have added := (saveToQueue_spec (@Between.initial env s.afl)).1.queuedItems
    exact Nat.le_of_lt (Nat.lt_of_lt_of_eq (Nat.lt_succ_self _) added.symm)
  | maySaveFault =>
    simp only [stepCall, maySaveFault]
    split
    · exact Nat.le_of_eq (saveHang_spec env s).2.2.2.2.symm
    all_goals exact Nat.le_refl _
  | keepAsCrash => exact Nat.le_of_eq (keepAsCrash_spec env s).2.symm
  | returned => exact Nat.le_refl _
  | fatal => exact Nat.le_refl _

/-! ## The start of a call -/

private theorem calculate_same (env : SaveEnv) (s : Call) :
    (calculateCksumIfNecessary env s).keeping = s.keeping ∧
      (calculateCksumIfNecessary env s).fault = s.fault ∧
      (calculateNewBitsIfNecessary env s).keeping = s.keeping ∧
      (calculateNewBitsIfNecessary env s).fault = s.fault := by
  simp only [calculateNewBitsIfNecessary, calculateCksumIfNecessary, classifyIfNecessary,
    AflState.scanUnclassified]
  refine ⟨?_, ?_, ?_, ?_⟩ <;> split_ifs <;> rfl

private theorem runSanitizers_spec (env : SaveEnv) : ∀ n (b : AflState),
    ((runSanitizers env n b).1 = .ok ∨ (runSanitizers env n b).1 = .crash) ∧
      (runSanitizers env n b).2.queuedItems = b.queuedItems
  | 0, b => ⟨Or.inl rfl, rfl⟩
  | n + 1, b => by
    simp only [runSanitizers]
    split
    · exact ⟨Or.inr rfl, rfl⟩
    · exact runSanitizers_spec env n _

private theorem calculateNewBits_queued (env : SaveEnv) (s : Call) :
    (calculateNewBitsIfNecessary env s).afl.queuedItems = s.afl.queuedItems :=
  (@Between.initial env s.afl).calculateNewBitsIfNecessary.queuedItems

private theorem feedSan_spec (env : SaveEnv) (s : Call) :
    (feedSan env s).2.keeping = s.keeping ∧
      (feedSan env s).2.afl.queuedItems = s.afl.queuedItems := by
  simp only [feedSan]
  split
  · exact ⟨rfl, rfl⟩
  · split
    · split <;> exact ⟨rfl, rfl⟩
    · exact ⟨(calculate_same env s).2.2.1, calculateNewBits_queued env s⟩
    · have classified : (classifyIfNecessary s).keeping = s.keeping ∧
          (classifyIfNecessary s).afl.queuedItems = s.afl.queuedItems := by
        rw [classifyIfNecessary]
        split <;> exact ⟨rfl, rfl⟩
      split <;> exact classified

/-- The sanitizers report a crash or nothing, and queue nothing. -/
private theorem sanitize_spec (env : SaveEnv) (s : Call) :
    ((sanitize env s).1 = .ok ∨ (sanitize env s).1 = .crash) ∧
      (sanitize env s).2.keeping = s.keeping ∧
      (sanitize env s).2.afl.queuedItems = s.afl.queuedItems := by
  obtain ⟨keeping, queued⟩ := feedSan_spec env s
  obtain ⟨fault, count⟩ := runSanitizers_spec env env.sanBinaryLength (feedSan env s).2.afl
  simp only [sanitize]
  split
  · exact ⟨fault, keeping, count.trans queued⟩
  · exact ⟨Or.inl rfl, keeping, queued⟩

/-- What holds when a call reaches its first label without a timeout: nothing is queued or
kept so far, and the fault is not a timeout unless the call is over. -/
structure Entered (a : AflState) (c : Point × Call) : Prop where
  queued : c.2.afl.queuedItems = a.queuedItems
  keeping : c.2.keeping = false
  point : c.1 = .returned false ∨
    (c.1 = .saveToQueue ∨ c.1 = .maySaveFault) ∧ c.2.fault ≠ .tmout

private theorem normalExecution_entered (env : SaveEnv) {s : Call} (keeping : s.keeping = false) :
    Entered s.afl (normalExecution env s) := by
  obtain ⟨fault, kept, queued⟩ := sanitize_spec env s
  have noTimeout : (sanitize env s).1 ≠ .tmout := by
    rcases fault with ok | crash
    · simp [ok]
    · simp [crash]
  have count := (calculateNewBits_queued env (sanitize env s).2).trans queued
  have keep := ((calculate_same env (sanitize env s).2).2.2.1.trans kept).trans keeping
  simp only [normalExecution]
  split
  · split
    · exact ⟨count, keep, Or.inl rfl⟩
    · exact ⟨count, keep, Or.inr ⟨Or.inr rfl, noTimeout⟩⟩
  · exact ⟨count, keep, Or.inr ⟨Or.inl rfl, noTimeout⟩⟩

private theorem updateFrequency_spec (env : SaveEnv) (s : Call) :
    Between env s.afl (updateFrequency env s).afl ∧ (updateFrequency env s).keeping = s.keeping ∧
      (updateFrequency env s).fault = s.fault ∧ (updateFrequency env s).afl.execs = s.afl.execs := by
  obtain ⟨keeping, fault, _⟩ := calculate_same env s
  have between := (@Between.initial env s.afl).calculateCksumIfNecessary
  have execs : (calculateCksumIfNecessary env s).afl.execs = s.afl.execs := by
    rw [calculateCksumIfNecessary, classifyIfNecessary]
    split_ifs <;> rfl
  rw [updateFrequency]
  split
  · exact ⟨between.same rfl rfl rfl rfl, keeping, fault, execs⟩
  · exact ⟨Between.initial s.afl, rfl, rfl, rfl⟩

/-- The case of a timeout that the call looks at. -/
def TimedOut (env : SaveEnv) (len : Nat) (fault : FsrvRun) : Prop :=
  len ≠ 0 ∧ fault = .tmout ∧ env.ignoreTimeouts = false

theorem enterCall_entered {env : SaveEnv} (a : AflState) {len : Nat} {fault : FsrvRun}
    (other : ¬ TimedOut env len fault) : Entered a (enterCall env a len fault) := by
  simp only [enterCall]
  split
  next => exact ⟨rfl, rfl, Or.inl rfl⟩
  next some =>
    split
    next =>
      split
      · exact ⟨rfl, rfl, Or.inl rfl⟩
      · exact ⟨rfl, rfl, Or.inl rfl⟩
    next noticed =>
      obtain ⟨between, keeping, same, _⟩ := updateFrequency_spec env (Call.initial a fault).resetSan
      split
      · have entered := normalExecution_entered env keeping
        exact ⟨entered.queued.trans between.queuedItems, entered.keeping, entered.point⟩
      · refine ⟨between.queuedItems, keeping, Or.inr ⟨Or.inr rfl, ?_⟩⟩
        intro timeout
        have fault : fault = .tmout := same.symm.trans timeout
        apply other
        refine ⟨some, fault, ?_⟩
        by_contra ignored
        exact noticed ⟨fault, Bool.not_eq_false _ ▸ ignored⟩

/-- A timeout goes straight to its case, with the trace perhaps classified. -/
theorem enterCall_timeout {env : SaveEnv} (a : AflState) {len : Nat} {fault : FsrvRun}
    (timedOut : TimedOut env len fault) :
    ∃ s, enterCall env a len fault = (.maySaveFault, s) ∧ Between env a s.afl ∧
      s.keeping = false ∧ s.fault = .tmout ∧ s.afl.execs = a.execs := by
  obtain ⟨some, rfl, noticed⟩ := timedOut
  have abnormal : FsrvRun.tmout ≠ env.normal := by
    rw [SaveEnv.normal]
    split <;> decide
  obtain ⟨between, keeping, fault, execs⟩ :=
    updateFrequency_spec env (Call.initial a .tmout).resetSan
  refine ⟨updateFrequency env (Call.initial a .tmout).resetSan, ?_, ⟨between.savedHangs,
    between.queuedItems, between.virginTmout, between.mapSize, between.realMapSize, between.execs,
    between.trace⟩, keeping, fault, execs⟩
  have heeded : ¬ (FsrvRun.tmout = .tmout ∧ env.ignoreTimeouts = true) := by simp [noticed]
  rw [enterCall, if_neg some, if_neg heeded, if_neg abnormal]

/-! ## The second round -/

/-- The hang map after the first test. -/
def clearedTmout (c : Coverage) : List Word :=
  (hasNewBits .tmout (simplifyTrace c)).2.virginTmout

/-- Coverage as the second test sees it: the trace of execution `last`, the hang map without
what the first test found. -/
def secondTest (env : SaveEnv) (a : AflState) (last : Nat) : Coverage :=
  { a.cov with traceBits := (env.target last).trace, virginTmout := clearedTmout a.cov }

/-- A call whose timeout is not confirmed, with a calibration that leaves a trace that still
looks new as a hang, and a further execution that does not confirm it either. -/
structure Requeues (env : SaveEnv) (a : AflState) (len : Nat) (fault : FsrvRun) : Prop where
  timedOut : TimedOut env len fault
  first : Retries env a
  calibrated : (saveIfInteresting env a len fault 2).1 ≠ .fatal
  still : NewHang env
    (secondTest env a ((saveIfInteresting env a len fault 2).2.afl.execs - 1))
  again : Completes (env.target (saveIfInteresting env a len fault 2).2.afl.execs)

/-- The state in which the queueing code is entered again. -/
private theorem saveHang_retries {env : SaveEnv} {s : Call} (retries : Retries env s.afl) :
    let t := (saveHang env s).2
    t.afl.savedHangs = s.afl.savedHangs ∧ t.afl.execs = s.afl.execs + 1 ∧
      t.afl.cov.traceBits = (env.target s.afl.execs).trace ∧
      t.afl.cov.mapSize = s.afl.cov.mapSize ∧ t.afl.cov.realMapSize = s.afl.cov.realMapSize ∧
      (env.nonInstrumentedMode = true ∨ t.afl.cov.virginTmout = clearedTmout s.afl.cov) := by
  have fresh := (uniqueFault_iff env { s.afl with totalTmouts := s.afl.totalTmouts + 1 }).mpr
    retries.hang
  have room : ¬ s.afl.savedHangs ≥ env.keepUniqueHang := Nat.not_le.mpr retries.room
  obtain ⟨hangs, _, execs⟩ :=
    uniqueFault_same env .tmout { s.afl with totalTmouts := s.afl.totalTmouts + 1 }
  have cov : ∀ b : AflState, (uniqueFault env .tmout b).2.cov.mapSize = b.cov.mapSize ∧
      (uniqueFault env .tmout b).2.cov.realMapSize = b.cov.realMapSize ∧
      (env.nonInstrumentedMode = true ∨
        (uniqueFault env .tmout b).2.cov.virginTmout = clearedTmout b.cov) := by
    intro b
    rw [uniqueFault]
    split
    next free => exact ⟨rfl, rfl, Or.inl free⟩
    next =>
      obtain ⟨size, real, _⟩ := hasNewBits_same .tmout (simplifyTrace b.cov)
      exact ⟨size, real, Or.inr rfl⟩
  obtain ⟨size, real, virgin⟩ := cov { s.afl with totalTmouts := s.afl.totalTmouts + 1 }
  have noCrash : ¬ (¬ (env.target s.afl.execs).stopSoon = true ∧
      (env.target s.afl.execs).fault = .crash) := by
    rintro ⟨running, crash⟩
    rcases retries.completes with stop | ⟨_, alive⟩
    · exact running stop
    · exact alive crash
  have ended : (env.target s.afl.execs).stopSoon = true ∨
      (env.target s.afl.execs).fault ≠ .tmout := by
    rcases retries.completes with stop | ⟨noTimeout, _⟩
    · exact Or.inl stop
    · exact Or.inr noTimeout
  simp only [saveHang, room, fresh, retries.retry, retries.keepTimeouts, AflState.run, execs,
    noCrash, ended, if_true, if_false, not_true_eq_false, hangs, size, real, virgin, and_self]

/-- Before the first test nothing of the test's data has changed, whether or not the trace
was classified. -/
private theorem Between.simplified {env : SaveEnv} {a b : AflState} (between : Between env a b)
    (execs : b.execs = a.execs) :
    (simplifyTrace b.cov).traceBits = (simplifyTrace a.cov).traceBits := by
  rw [between.trace, traceSince, if_pos (Nat.le_of_eq execs)]

private theorem first_retries_iff {env : SaveEnv} {a b : AflState} (between : Between env a b)
    (execs : b.execs = a.execs) : Retries env b ↔ Retries env a := by
  have hang : NewHang env b.cov ↔ NewHang env a.cov :=
    newHang_congr (between.simplified execs) between.virginTmout between.realMapSize
  constructor
  · rintro ⟨keep, retry, room, isNew, completes⟩
    exact ⟨keep, retry, between.savedHangs ▸ room, hang.mp isNew, execs ▸ completes⟩
  · rintro ⟨keep, retry, room, isNew, completes⟩
    exact ⟨keep, retry, between.savedHangs ▸ room, hang.mpr isNew, execs ▸ completes⟩

private theorem clearedTmout_congr {c d : Coverage}
    (trace : (simplifyTrace c).traceBits = (simplifyTrace d).traceBits)
    (virgin : c.virginTmout = d.virginTmout) (real : c.realMapSize = d.realMapSize) :
    clearedTmout c = clearedTmout d := by
  have left : (simplifyTrace c).virgin .tmout = (simplifyTrace d).virgin .tmout := virgin
  have size : (simplifyTrace c).realMapSize = (simplifyTrace d).realMapSize := real
  simp only [clearedTmout, hasNewBits, trace, left, size]
  split <;> rfl

/-- In the second round the timeout case jumps back exactly when the trace of the last
execution still looks new and the next execution does not confirm the hang. -/
private theorem second_retries_iff {env : SaveEnv} {a : AflState} {s : Call}
    (start : Between env a s.afl) (execs : s.afl.execs = a.execs) (first : Retries env a) :
    let t := (saveToQueue env (saveHang env s).2).2.afl
    Retries env t ↔
      NewHang env (secondTest env a (t.execs - 1)) ∧ Completes (env.target t.execs) := by
  dsimp only
  obtain ⟨hangs, ran, trace, size, real, virgin⟩ :=
    saveHang_retries ((first_retries_iff start execs).mpr first)
  have queued := (saveToQueue_spec (@Between.initial env (saveHang env s).2.afl)).1
  generalize (saveHang env s).2 = r at *
  generalize (saveToQueue env r).2.afl = t at *
  have later : r.afl.execs ≤ t.execs := queued.execs
  -- the trace is the second execution's own or that of the last calibration run
  have last : traceSince env { r.afl with queuedItems := r.afl.queuedItems + 1 } t.execs =
      (env.target (t.execs - 1)).trace := by
    rw [traceSince]
    split
    next none =>
      have same : t.execs - 1 = s.afl.execs := by
        have : t.execs ≤ r.afl.execs := none
        omega
      rw [same]
      exact trace
    next => rfl
  have simplified : (simplifyTrace t.cov).traceBits =
      (simplifyTrace (secondTest env a (t.execs - 1))).traceBits := by
    rw [queued.trace, last]
    simp only [simplifyTrace, secondTest, size, start.mapSize]
  have hang : NewHang env t.cov ↔ NewHang env (secondTest env a (t.execs - 1)) := by
    rcases virgin with free | cleared
    · exact ⟨fun _ => Or.inl free, fun _ => Or.inl free⟩
    · apply newHang_congr simplified
      · exact (queued.virginTmout.trans cleared).trans
          (clearedTmout_congr (start.simplified execs) start.virginTmout start.realMapSize)
      · exact (queued.realMapSize.trans real).trans start.realMapSize
  have room : t.savedHangs < env.keepUniqueHang := by
    have same : t.savedHangs = a.savedHangs :=
      (queued.savedHangs.trans hangs).trans start.savedHangs
    rw [same]
    exact first.room
  constructor
  · intro retries
    exact ⟨hang.mp retries.hang, retries.completes⟩
  · rintro ⟨isNew, completes⟩
    exact ⟨first.keepTimeouts, first.retry, room, hang.mpr isNew, completes⟩

/-! ## One entry -/

/-- The call ends; it returns `1` when it queued one entry and `0` when it queued none, or it
stops the process after at most one. -/
def QueuesOnce (env : SaveEnv) (a : AflState) (len : Nat) (fault : FsrvRun) : Prop :=
  ∃ n, ∃ s : Call,
    (∃ keeping, saveIfInteresting env a len fault n = (.returned keeping, s) ∧
      s.afl.queuedItems = a.queuedItems + if keeping then 1 else 0) ∨
    saveIfInteresting env a len fault n = (.fatal, s) ∧
      (s.afl.queuedItems = a.queuedItems ∨ s.afl.queuedItems = a.queuedItems + 1)

private theorem saveIfInteresting_succ (env : SaveEnv) (a : AflState) (len : Nat)
    (fault : FsrvRun) (n : Nat) : saveIfInteresting env a len fault (n + 1) =
      stepCall env (saveIfInteresting env a len fault n) := by
  rw [saveIfInteresting, saveIfInteresting, Function.iterate_succ_apply']

private theorem queuesOnce_of_crash {env : SaveEnv} {a : AflState} {len : Nat} {fault : FsrvRun}
    {n : Nat} {s : Call} (reached : saveIfInteresting env a len fault n = (.keepAsCrash, s))
    (queued : s.afl.queuedItems = a.queuedItems + if s.keeping then 1 else 0) :
    QueuesOnce env a len fault := by
  obtain ⟨point, same⟩ := keepAsCrash_spec env s
  refine ⟨n + 1, (keepAsCrash env s).2, Or.inl ⟨s.keeping, ?_, same.trans queued⟩⟩
  rw [saveIfInteresting_succ, reached]
  exact Prod.ext point rfl

/-- A call ends from the fault cases, unless it retries a timeout. -/
private theorem queuesOnce_of_fault {env : SaveEnv} {a : AflState} {len : Nat} {fault : FsrvRun}
    {n : Nat} {s : Call} (reached : saveIfInteresting env a len fault n = (.maySaveFault, s))
    (queued : s.afl.queuedItems = a.queuedItems + if s.keeping then 1 else 0)
    (settled : s.fault = .tmout → ¬ Retries env s.afl) : QueuesOnce env a len fault := by
  have next : saveIfInteresting env a len fault (n + 1) = maySaveFault env s := by
    rw [saveIfInteresting_succ, reached]
    rfl
  rw [maySaveFault] at next
  split at next
  next timeout =>
    obtain ⟨jumps, point, keeping, _, same⟩ := saveHang_spec env s
    have count : (saveHang env s).2.afl.queuedItems =
        a.queuedItems + if (saveHang env s).2.keeping then 1 else 0 := by
      rw [same, keeping]
      exact queued
    rcases point with back | crash | ended
    · exact absurd (jumps.mp back) (settled timeout)
    · exact queuesOnce_of_crash (next.trans (Prod.ext crash rfl)) count
    · exact ⟨n + 1, (saveHang env s).2, Or.inl ⟨s.keeping, next.trans (Prod.ext ended rfl),
        same.trans queued⟩⟩
  next => exact queuesOnce_of_crash next queued
  next =>
    refine ⟨n + 1, s, Or.inr ⟨next, ?_⟩⟩
    split at queued
    · exact Or.inr queued
    · exact Or.inl queued
  next => exact ⟨n + 1, s, Or.inl ⟨s.keeping, next, queued⟩⟩

/-- From the queueing code, entered for the first time, the call ends unless the timeout case
retries after it. -/
private theorem queuesOnce_of_queue {env : SaveEnv} {a : AflState} {len : Nat} {fault : FsrvRun}
    {n : Nat} {s : Call} (reached : saveIfInteresting env a len fault n = (.saveToQueue, s))
    (queued : s.afl.queuedItems = a.queuedItems)
    (settled : (saveToQueue env s).1 ≠ .fatal → s.fault = .tmout →
      ¬ Retries env (saveToQueue env s).2.afl) : QueuesOnce env a len fault := by
  obtain ⟨added, point, same⟩ := saveToQueue_spec (@Between.initial env s.afl)
  have count : (saveToQueue env s).2.afl.queuedItems = a.queuedItems + 1 :=
    added.queuedItems.trans (congrArg (· + 1) queued)
  have next : saveIfInteresting env a len fault (n + 1) = saveToQueue env s := by
    rw [saveIfInteresting_succ, reached]
    rfl
  rcases point with fatal | ⟨fault, keeping⟩
  · exact ⟨n + 1, (saveToQueue env s).2, Or.inr ⟨next.trans (Prod.ext fatal rfl), Or.inr count⟩⟩
  · apply queuesOnce_of_fault (next.trans (Prod.ext fault rfl))
    · rw [keeping]
      exact count
    · intro timeout
      exact settled (by simp [fault]) (same.symm.trans timeout)

private theorem queued_mono (env : SaveEnv) (a : AflState) (len : Nat) (fault : FsrvRun)
    (m n : Nat) : (saveIfInteresting env a len fault m).2.afl.queuedItems ≤
      (saveIfInteresting env a len fault (m + n)).2.afl.queuedItems := by
  induction n with
  | zero => exact Nat.le_refl _
  | succ n ih =>
    rw [← Nat.add_assoc, saveIfInteresting_succ]
    exact Nat.le_trans ih (stepCall_queued env _)

/-- Two entries by the fourth block, none of the blocks before at an end: the call does not
queue once. -/
private theorem not_queuesOnce {env : SaveEnv} {a : AflState} {len : Nat} {fault : FsrvRun}
    (two : a.queuedItems + 2 ≤ (saveIfInteresting env a len fault 4).2.afl.queuedItems)
    (going : ∀ n < 4, (saveIfInteresting env a len fault n).1 = .saveToQueue ∨
      (saveIfInteresting env a len fault n).1 = .maySaveFault) :
    ¬ QueuesOnce env a len fault := by
  have late : ∀ n s p, saveIfInteresting env a len fault n = (p, s) → p ≠ .saveToQueue →
      p ≠ .maySaveFault → a.queuedItems + 2 ≤ s.afl.queuedItems := by
    intro n s p ended noQueue noFault
    by_cases early : n < 4
    · rcases going n early with queue | fault
      · rw [ended] at queue
        exact absurd queue noQueue
      · rw [ended] at fault
        exact absurd fault noFault
    · have mono := queued_mono env a len fault 4 (n - 4)
      rw [Nat.add_sub_of_le (Nat.le_of_not_lt early), ended] at mono
      exact Nat.le_trans two mono
  rintro ⟨n, s, ⟨keeping, ended, count⟩ | ⟨ended, count⟩⟩
  · have many := late n s _ ended (by simp) (by simp)
    split at count <;> omega
  · have many := late n s _ ended (by simp) (by simp)
    omega

/-- The two rounds of a call that requeues. -/
private theorem requeues_twice {env : SaveEnv} {a : AflState} {len : Nat} {fault : FsrvRun}
    {s t : Call} (queued : s.afl.queuedItems = a.queuedItems)
    (zero : (saveIfInteresting env a len fault 0).1 = .maySaveFault)
    (one : saveIfInteresting env a len fault 1 = (.saveToQueue, s))
    (two : saveIfInteresting env a len fault 2 = (.maySaveFault, t)) (timeout : t.fault = .tmout)
    (retries : Retries env t.afl) : ¬ QueuesOnce env a len fault := by
  obtain ⟨jumps, _, _, _, kept⟩ := saveHang_spec env t
  have first := (saveToQueue_spec (@Between.initial env s.afl)).1.queuedItems
  have again := (saveToQueue_spec (@Between.initial env (saveHang env t).2.afl)).1.queuedItems
  have block : saveToQueue env s = (.maySaveFault, t) := by
    rw [saveIfInteresting_succ, one] at two
    exact two
  have three : saveIfInteresting env a len fault 3 = (.saveToQueue, (saveHang env t).2) := by
    rw [saveIfInteresting_succ, two]
    simp only [stepCall, maySaveFault, timeout]
    exact Prod.ext (jumps.mpr retries) rfl
  have four : saveIfInteresting env a len fault 4 = saveToQueue env (saveHang env t).2 := by
    rw [saveIfInteresting_succ, three]
    rfl
  apply not_queuesOnce
  · rw [block] at first
    rw [four, again, kept, first, queued]
  · intro n early
    rcases n with _ | _ | _ | _ | n
    · exact Or.inr zero
    · exact Or.inl (congrArg Prod.fst one)
    · exact Or.inr (congrArg Prod.fst two)
    · exact Or.inl (congrArg Prod.fst three)
    · omega

/-- One call queues at most one entry, ends, and reports it, unless it requeues. -/
theorem queuesOnce_iff (env : SaveEnv) (a : AflState) (len : Nat) (fault : FsrvRun) :
    QueuesOnce env a len fault ↔ ¬ Requeues env a len fault := by
  by_cases timedOut : TimedOut env len fault
  · obtain ⟨s, entered, start, keeping, isTimeout, execs⟩ := enterCall_timeout a timedOut
    have zero : saveIfInteresting env a len fault 0 = (.maySaveFault, s) := entered
    have count : s.afl.queuedItems = a.queuedItems + if s.keeping then 1 else 0 := by
      rw [keeping]
      exact start.queuedItems
    have one : saveIfInteresting env a len fault 1 = saveHang env s := by
      rw [saveIfInteresting_succ, zero]
      simp only [stepCall, maySaveFault, isTimeout]
    by_cases first : Retries env a
    · obtain ⟨jumps, _, _, stillTimeout, same⟩ := saveHang_spec env s
      have back := jumps.mpr ((first_retries_iff start execs).mpr first)
      have queueing : saveIfInteresting env a len fault 1 = (.saveToQueue, (saveHang env s).2) :=
        one.trans (Prod.ext back rfl)
      have two : saveIfInteresting env a len fault 2 = saveToQueue env (saveHang env s).2 := by
        rw [saveIfInteresting_succ, queueing]
        rfl
      have second := second_retries_iff start execs first
      dsimp only at second
      constructor
      · intro once requeues
        obtain ⟨_, point, sameFault⟩ :=
          saveToQueue_spec (@Between.initial env (saveHang env s).2.afl)
        have faulty := (point.resolve_left (two ▸ requeues.calibrated)).1
        have retries := second.mpr ⟨two ▸ requeues.still, two ▸ requeues.again⟩
        exact requeues_twice (same.trans start.queuedItems) (congrArg Prod.fst zero) queueing
          (two.trans (Prod.ext faulty rfl)) ((sameFault.trans stillTimeout).trans isTimeout)
          retries once
      · intro calm
        apply queuesOnce_of_queue queueing (same.trans start.queuedItems)
        intro calibrated _ retries
        obtain ⟨isNew, completes⟩ := second.mp retries
        apply calm
        refine ⟨timedOut, first, ?_, ?_, ?_⟩
        · rw [two]
          exact calibrated
        · rw [two]
          exact isNew
        · rw [two]
          exact completes
    · constructor
      · intro _ requeues
        exact first requeues.first
      · intro _
        apply queuesOnce_of_fault zero count
        intro _ retries
        exact first ((first_retries_iff start execs).mp retries)
  · have entered := enterCall_entered a timedOut
    constructor
    · intro _ requeues
      exact timedOut requeues.timedOut
    · intro _
      have queued := entered.queued
      have zero : saveIfInteresting env a len fault 0 = enterCall env a len fault := rfl
      generalize enterCall env a len fault = c at *
      obtain ⟨p, s⟩ := c
      rcases entered.point with ended | ⟨queueing | faulty, noTimeout⟩
      · cases ended
        exact ⟨0, s, Or.inl ⟨false, zero, queued⟩⟩
      · cases queueing
        apply queuesOnce_of_queue zero queued
        intro _ timeout
        exact absurd timeout noTimeout
      · cases faulty
        apply queuesOnce_of_fault zero
        · rw [entered.keeping]
          exact queued
        · intro timeout
          exact absurd timeout noTimeout

/-- Without instrumentation a timeout that the second execution does not confirm is queued
over and over. -/
theorem queuesOnce_steady :
    (saveIfInteresting steadyEnv emptyState 1 .tmout 4).2.afl.queuedItems = 2 ∧
      ¬ QueuesOnce steadyEnv emptyState 1 .tmout := by
  have going : ∀ n < 4, (saveIfInteresting steadyEnv emptyState 1 .tmout n).1 = .saveToQueue ∨
      (saveIfInteresting steadyEnv emptyState 1 .tmout n).1 = .maySaveFault := by decide
  have two : (saveIfInteresting steadyEnv emptyState 1 .tmout 4).2.afl.queuedItems = 2 := by decide
  exact ⟨two, not_queuesOnce (Nat.le_of_eq two.symm) going⟩

end Swam.Afl
