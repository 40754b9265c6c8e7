import Swam.Afl.SaveIfInteresting

/-!
# Classification happens once

Along every path of `save_if_interesting`, loops through `save_to_queue` included, the trace
of one execution is classified at most once, and a queued entry carries the checksum and the
new bits of the classified trace it stems from.
-/
namespace Swam.Afl

/-! ## What the log has to say -/

def SaveEvent.classified? : SaveEvent → Option Nat
  | .classified exec => some exec
  | _ => none

/-- The numbers of the executions whose trace was classified. -/
def classifications (events : List SaveEvent) : List Nat := events.filterMap SaveEvent.classified?

/-- The trace an execution left: the caller's one first, then those of the call itself. -/
def rawTrace (env : SaveEnv) (a : AflState) : Nat → List Word
  | 0 => a.cov.traceBits
  | k + 1 => (env.target k).trace

/-- That trace, classified once. -/
def classifiedTrace (env : SaveEnv) (a : AflState) (exec : Nat) : List Word :=
  (classifyCounts { a.cov with traceBits := rawTrace env a exec }).traceBits

/-- The log holds a scan of the queue's virgin map with the classified trace of an execution,
and its result is what `has_new_bits` returns for these arguments. -/
def Scanned (env : SaveEnv) (a : AflState) (events : List SaveEvent) (exec newBits : Nat) : Prop :=
  ∃ virgin, .scanned exec .bits (classifiedTrace env a exec) virgin newBits ∈ events ∧
    newBits = (discoverWords ((classifiedTrace env a exec).take ((a.cov.realMapSize + 7) / 8))
      virgin 0).1

/-- A queued entry stems from the classified trace of an execution. -/
structure Stems (env : SaveEnv) (a : AflState) (events : List SaveEvent)
    (exec execCksum newBits : Nat) (hasNewCov : Bool) : Prop where
  classified : exec ∈ classifications events
  cksum : execCksum = env.hash64 (classifiedTrace env a exec)
  bits : Scanned env a events exec newBits
  cov : hasNewCov = decide (newBits = 2)

/-- The log of a state `b` reached in a call that started in `a`. -/
structure Logged (env : SaveEnv) (a b : AflState) : Prop where
  mapSize : b.cov.mapSize = a.cov.mapSize
  realMapSize : b.cov.realMapSize = a.cov.realMapSize
  once : (classifications b.events).Nodup
  past : ∀ exec ∈ classifications b.events, exec ≤ b.execs
  entries : ∀ exec cksum newBits cov, .queued exec cksum newBits cov ∈ b.events →
    Stems env a b.events exec cksum newBits cov

namespace Logged

variable {env : SaveEnv} {a b : AflState}

theorem Stems.mono {events events' : List SaveEvent} {exec cksum newBits : Nat} {cov : Bool}
    (more : ∀ e ∈ events, e ∈ events') (stems : Stems env a events exec cksum newBits cov) :
    Stems env a events' exec cksum newBits cov := by
  obtain ⟨virgin, scanned, ret⟩ := stems.bits
  refine ⟨?_, stems.cksum, ⟨virgin, more _ scanned, ret⟩, stems.cov⟩
  obtain ⟨e, member, isClassified⟩ := List.mem_filterMap.mp stems.classified
  exact List.mem_filterMap.mpr ⟨e, more e member, isClassified⟩

/-- Only the maps' sizes, the execution count and the log matter. -/
theorem same {c : AflState} (logged : Logged env a b) (mapSize : c.cov.mapSize = b.cov.mapSize)
    (realMapSize : c.cov.realMapSize = b.cov.realMapSize) (execs : c.execs = b.execs)
    (events : c.events = b.events) : Logged env a c := by
  constructor
  · exact mapSize.trans logged.mapSize
  · exact realMapSize.trans logged.realMapSize
  · rw [events]
    exact logged.once
  · rw [events, execs]
    exact logged.past
  · rw [events]
    exact logged.entries

/-- After an execution nothing of its trace is in the log. -/
theorem run (logged : Logged env a b) :
    Logged env a (b.run env).2 ∧
      (b.run env).2.execs ∉ classifications (b.run env).2.events := by
  constructor
  · refine ⟨logged.mapSize, logged.realMapSize, logged.once, ?_, logged.entries⟩
    intro exec member
    exact Nat.le_succ_of_le (logged.past exec member)
  · intro member
    exact Nat.not_succ_le_self _ (logged.past _ member)

/-- The first classification of a trace. -/
theorem classify (logged : Logged env a b) (fresh : b.execs ∉ classifications b.events) :
    Logged env a b.classify := by
  refine ⟨logged.mapSize, logged.realMapSize, List.nodup_cons.mpr ⟨fresh, logged.once⟩, ?_, ?_⟩
  · intro exec member
    rcases List.mem_cons.mp member with rfl | earlier
    · exact Nat.le_refl _
    · exact logged.past exec earlier
  · intro exec cksum newBits cov member
    rcases List.mem_cons.mp member with impossible | earlier
    · cases impossible
    · exact Stems.mono (fun e => List.mem_cons_of_mem _) (logged.entries _ _ _ _ earlier)

theorem scan (logged : Logged env a b) (which : VirginMap) : Logged env a (b.scan which).2 := by
  obtain ⟨size, real, _⟩ := hasNewBits_same which b.cov
  refine ⟨size.trans logged.mapSize, real.trans logged.realMapSize, logged.once, logged.past, ?_⟩
  intro exec cksum newBits cov member
  rcases List.mem_cons.mp member with impossible | earlier
  · cases impossible
  · exact Stems.mono (fun e => List.mem_cons_of_mem _) (logged.entries _ _ _ _ earlier)

/-! ## Calibration -/

theorem observe {k : Calibration} (logged : Logged env a k.afl)
    (fresh : k.afl.execs ∉ classifications k.afl.events) : Logged env a (k.observe env).afl := by
  have classified := logged.classify fresh
  have scanned := classified.scan .bits
  simp only [Calibration.observe]
  split
  · split
    · exact scanned.same rfl rfl rfl rfl
    · exact scanned.same rfl rfl rfl rfl
  · exact classified

theorem calibrateLoop : ∀ n (k : Calibration), Logged env a k.afl →
    Logged env a (calibrateLoop env n k).2.afl
  | 0, k, logged => logged
  | n + 1, k, logged => by
    obtain ⟨ran, fresh⟩ := logged.run
    rw [Afl.calibrateLoop]
    split
    · dsimp only
      split
      · exact ran
      · split
        · exact ran
        · exact Logged.calibrateLoop n _ (observe ran fresh)
    · exact logged

theorem beginCalibration (logged : Logged env a b) (entry : QueueEntry) :
    Logged env a (beginCalibration env entry b).afl := by
  have scanned := logged.scan .bits
  simp only [Afl.beginCalibration]
  generalize (if env.cmplogMode then { entry with execCksum := 0 } else entry) = current
  split
  · exact scanned.same rfl rfl rfl rfl
  · exact logged

theorem calibrateCase (logged : Logged env a b) : Logged env a (calibrateCase env b).2 := by
  rw [Afl.calibrateCase]
  split
  · exact logged
  next entry queue _ =>
    have looped := Logged.calibrateLoop calCyclesLong _ (logged.beginCalibration entry)
    exact looped.same rfl rfl rfl rfl

end Logged

/-! ## The three flags -/

/-- What the flags of a call promise about the trace that is in `trace_bits`. -/
structure Flags (env : SaveEnv) (a : AflState) (s : Call) : Prop where
  raw : s.classified = false →
    s.afl.execs ∉ classifications s.afl.events ∧ s.afl.cov.traceBits = rawTrace env a s.afl.execs
  classified : s.classified = true → s.afl.execs ∈ classifications s.afl.events ∧
    s.afl.cov.traceBits = classifiedTrace env a s.afl.execs
  cksum : s.cksumed = true →
    s.classified = true ∧ s.cksum = env.hash64 (classifiedTrace env a s.afl.execs)
  bits : s.bitsCounted = true → s.newBits ≠ 0 →
    s.classified = true ∧ Scanned env a s.afl.events s.afl.execs s.newBits

/-- The log and the flags of a call are in order. -/
structure Ordered (env : SaveEnv) (a : AflState) (s : Call) : Prop where
  logged : Logged env a s.afl
  flags : Flags env a s

namespace Ordered

variable {env : SaveEnv} {a : AflState} {s : Call}

theorem same {t : Call} (ordered : Ordered env a s) (cov : t.afl.cov = s.afl.cov)
    (execs : t.afl.execs = s.afl.execs) (events : t.afl.events = s.afl.events)
    (classified : t.classified = s.classified) (bitsCounted : t.bitsCounted = s.bitsCounted)
    (cksumed : t.cksumed = s.cksumed) (newBits : t.newBits = s.newBits)
    (cksum : t.cksum = s.cksum) : Ordered env a t := by
  constructor
  · exact ordered.logged.same (by rw [cov]) (by rw [cov]) execs events
  · constructor
    · rw [classified, execs, events, cov]
      exact ordered.flags.raw
    · rw [classified, execs, events, cov]
      exact ordered.flags.classified
    · rw [cksumed, classified, cksum, execs]
      exact ordered.flags.cksum
    · rw [bitsCounted, newBits, classified, events, execs]
      exact ordered.flags.bits

private theorem classify_trace (logged : Logged env a s.afl)
    (raw : s.afl.cov.traceBits = rawTrace env a s.afl.execs) :
    s.afl.classify.cov.traceBits = classifiedTrace env a s.afl.execs := by
  have size := logged.mapSize
  simp only [AflState.classify, classifiedTrace, classifyCounts, raw, size]

theorem classifyIfNecessary (ordered : Ordered env a s) :
    Ordered env a (classifyIfNecessary s) ∧ (classifyIfNecessary s).classified = true := by
  rw [Afl.classifyIfNecessary]
  split
  next already => exact ⟨ordered, already⟩
  next pending =>
    have unclassified : s.classified = false := Bool.not_eq_true _ ▸ pending
    obtain ⟨fresh, raw⟩ := ordered.flags.raw unclassified
    refine ⟨⟨ordered.logged.classify fresh, ?_⟩, rfl⟩
    constructor
    · intro impossible
      cases impossible
    · intro _
      exact ⟨List.mem_cons_self .., classify_trace ordered.logged raw⟩
    · intro cksumed
      exact ⟨rfl, (ordered.flags.cksum cksumed).2⟩
    · intro counted nonzero
      -- bits counted with a result need a classified trace
      have := (ordered.flags.bits counted nonzero).1
      rw [unclassified] at this
      cases this

theorem calculateCksumIfNecessary (ordered : Ordered env a s) :
    Ordered env a (calculateCksumIfNecessary env s) ∧
      (calculateCksumIfNecessary env s).cksumed = true := by
  rw [Afl.calculateCksumIfNecessary]
  split
  next already => exact ⟨ordered, already⟩
  next =>
    obtain ⟨classified, flag⟩ := ordered.classifyIfNecessary
    refine ⟨⟨classified.logged, ?_⟩, rfl⟩
    constructor
    · exact classified.flags.raw
    · exact classified.flags.classified
    · intro _
      exact ⟨flag, congrArg env.hash64 (classified.flags.classified flag).2⟩
    · exact classified.flags.bits

/-- A scan of the classified trace. -/
private theorem scan_classified {b : AflState} (logged : Logged env a b)
    (trace : b.cov.traceBits = classifiedTrace env a b.execs) :
    Scanned env a (b.scan .bits).2.events b.execs (b.scan .bits).1 := by
  refine ⟨b.cov.virgin .bits, ?_, ?_⟩
  · rw [← trace]
    exact List.mem_cons_self ..
  · rw [← trace, ← logged.realMapSize]
    rfl

private theorem scan_trace (b : AflState) : (b.scan .bits).2.cov.traceBits = b.cov.traceBits :=
  (hasNewBits_same .bits b.cov).2.2.1

theorem calculateNewBitsIfNecessary (ordered : Ordered env a s) :
    Ordered env a (calculateNewBitsIfNecessary env s) := by
  rw [Afl.calculateNewBitsIfNecessary]
  split
  next => exact ordered
  next =>
    split
    next classified =>
      obtain ⟨member, trace⟩ := ordered.flags.classified classified
      refine ⟨ordered.logged.scan .bits, ?_⟩
      constructor
      · intro raw
        rw [classified] at raw
        cases raw
      · intro _
        exact ⟨member, (scan_trace s.afl).trans trace⟩
      · exact ordered.flags.cksum
      · intro _ _
        exact ⟨classified, scan_classified ordered.logged trace⟩
    next pending =>
      have unclassified : s.classified = false := Bool.not_eq_true _ ▸ pending
      obtain ⟨fresh, raw⟩ := ordered.flags.raw unclassified
      simp only [AflState.scanUnclassified]
      split
      next =>
        -- the quick scan found nothing and left the trace raw
        refine ⟨ordered.logged, ?_⟩
        constructor
        · exact ordered.flags.raw
        · exact ordered.flags.classified
        · exact ordered.flags.cksum
        · intro _ nonzero
          exact absurd rfl nonzero
      next =>
        have logged := ordered.logged.classify fresh
        have trace := classify_trace ordered.logged raw
        refine ⟨logged.scan .bits, ?_⟩
        constructor
        · intro impossible
          cases impossible
        · intro _
          exact ⟨List.mem_cons_self .., (scan_trace s.afl.classify).trans trace⟩
        · intro cksumed
          exact ⟨rfl, (ordered.flags.cksum cksumed).2⟩
        · intro _ _
          exact ⟨rfl, scan_classified logged trace⟩

/-! ## Blocks -/

theorem feedSan (ordered : Ordered env a s) : Ordered env a (feedSan env s).2 := by
  simp only [Afl.feedSan]
  split
  · exact ordered
  · split
    · split
      · exact ordered
      · exact ordered.same rfl rfl rfl rfl rfl rfl rfl rfl
    · exact ordered.calculateNewBitsIfNecessary
    · have classified := ordered.classifyIfNecessary.1
      split
      · exact classified
      · exact classified.same rfl rfl rfl rfl rfl rfl rfl rfl

private theorem runSanitizers_same : ∀ n (b : AflState),
    (runSanitizers env n b).2.cov = b.cov ∧ (runSanitizers env n b).2.execs = b.execs ∧
      (runSanitizers env n b).2.events = b.events
  | 0, b => ⟨rfl, rfl, rfl⟩
  | n + 1, b => by
    simp only [runSanitizers]
    split
    · exact ⟨rfl, rfl, rfl⟩
    · exact runSanitizers_same n _

theorem sanitize (ordered : Ordered env a s) : Ordered env a (sanitize env s).2 := by
  have fed := ordered.feedSan
  simp only [Afl.sanitize]
  split
  · obtain ⟨cov, execs, events⟩ := @runSanitizers_same env env.sanBinaryLength
      (Afl.feedSan env s).2.afl
    exact fed.same cov execs events rfl rfl rfl rfl rfl
  · exact fed

theorem updateFrequency (ordered : Ordered env a s) : Ordered env a (updateFrequency env s) := by
  rw [Afl.updateFrequency]
  split
  · exact ordered.calculateCksumIfNecessary.1.same rfl rfl rfl rfl rfl rfl rfl rfl
  · exact ordered

/-- At the start nothing is classified. -/
theorem initial (fault : FsrvRun) (execs : a.execs = 0) (events : a.events = []) :
    Ordered env a (Call.initial a fault) := by
  constructor
  · constructor
    · rfl
    · rfl
    · simp [Call.initial, events, classifications]
    · simp [Call.initial, events, classifications]
    · simp [Call.initial, events]
  · constructor
    · intro _
      simp [Call.initial, events, execs, classifications, rawTrace]
    · intro impossible
      cases impossible
    · intro impossible
      cases impossible
    · intro impossible
      cases impossible

end Ordered

/-- The invariant at the labels: the log is in order everywhere; where the queueing code
starts so are the flags, and new bits counted before were not zero. -/
structure InOrder (env : SaveEnv) (a : AflState) (c : Point × Call) : Prop where
  logged : Logged env a c.2.afl
  queueing : c.1 = .saveToQueue →
    Ordered env a c.2 ∧ (c.2.bitsCounted = true → c.2.newBits ≠ 0)

namespace InOrder

variable {env : SaveEnv} {a : AflState} {s : Call}

private theorem elsewhere {p : Point} (logged : Logged env a s.afl) (other : p ≠ .saveToQueue) :
    InOrder env a (p, s) :=
  ⟨logged, fun here => absurd here other⟩

theorem normalExecution (ordered : Ordered env a s) : InOrder env a (normalExecution env s) := by
  have counted := ordered.sanitize.calculateNewBitsIfNecessary
  simp only [Afl.normalExecution]
  split
  · split
    · exact elsewhere (counted.logged.same rfl rfl rfl rfl) (by simp)
    · exact elsewhere (counted.logged.same rfl rfl rfl rfl) (by simp)
  next nonzero =>
    exact ⟨counted.logged, fun _ =>
      ⟨counted.same rfl rfl rfl rfl rfl rfl rfl rfl, fun _ => nonzero⟩⟩

theorem enterCall (len : Nat) (fault : FsrvRun) (execs : a.execs = 0) (events : a.events = []) :
    InOrder env a (enterCall env a len fault) := by
  have initial : Ordered env a (Call.initial a fault) := Ordered.initial fault execs events
  simp only [Afl.enterCall]
  split
  · exact elsewhere initial.logged (by simp)
  · split
    · split
      · obtain ⟨fresh, _⟩ := initial.flags.raw rfl
        exact elsewhere ((initial.logged.classify fresh).same rfl rfl rfl rfl) (by simp)
      · exact elsewhere initial.logged (by simp)
    · have reset : Ordered env a (Call.initial a fault).resetSan :=
        initial.same rfl rfl rfl rfl rfl rfl rfl rfl
      have counted := reset.updateFrequency
      split
      · exact normalExecution counted
      · exact elsewhere counted.logged (by simp)

theorem addToQueue (ordered : Ordered env a s) (cksumed : s.cksumed = true)
    (bits : Scanned env a s.afl.events s.afl.execs s.newBits) :
    Logged env a (addToQueue env s) := by
  obtain ⟨classified, cksum⟩ := ordered.flags.cksum cksumed
  have logged := ordered.logged
  have entered : Logged env a { s.afl with
      events := .queued s.afl.execs s.cksum s.newBits (s.newBits = 2) :: s.afl.events } := by
    refine ⟨logged.mapSize, logged.realMapSize, logged.once, logged.past, ?_⟩
    intro exec cksum' newBits cov member
    apply Logged.Stems.mono (fun e => List.mem_cons_of_mem _)
    rcases List.mem_cons.mp member with now | earlier
    · cases now
      exact ⟨(ordered.flags.classified classified).1, cksum, bits, rfl⟩
    · exact logged.entries _ _ _ _ earlier
  simp only [Afl.addToQueue]
  split
  · exact entered.same rfl rfl rfl rfl
  · exact entered.same rfl rfl rfl rfl

/-- The two calculations at the label leave everything an entry needs. -/
private theorem queueReady (ordered : Ordered env a s)
    (counted : s.bitsCounted = true → s.newBits ≠ 0) :
    let t := calculateNewBitsIfNecessary env (calculateCksumIfNecessary env s)
    Ordered env a t ∧ t.cksumed = true ∧ Scanned env a t.afl.events t.afl.execs t.newBits := by
  obtain ⟨hashed, cksumed⟩ := ordered.calculateCksumIfNecessary
  have before : (calculateCksumIfNecessary env s).bitsCounted = s.bitsCounted ∧
      (calculateCksumIfNecessary env s).newBits = s.newBits := by
    rw [calculateCksumIfNecessary, classifyIfNecessary]
    split
    · exact ⟨rfl, rfl⟩
    · split <;> exact ⟨rfl, rfl⟩
  obtain ⟨classified, _⟩ := hashed.flags.cksum cksumed
  obtain ⟨_, trace⟩ := hashed.flags.classified classified
  generalize calculateCksumIfNecessary env s = t at *
  refine ⟨hashed.calculateNewBitsIfNecessary, ?_⟩
  rw [calculateNewBitsIfNecessary]
  split
  next already =>
    have nonzero : t.newBits ≠ 0 := before.2 ▸ counted (before.1 ▸ already)
    exact ⟨cksumed, (hashed.flags.bits already nonzero).2⟩
  next =>
    exact ⟨cksumed, Ordered.scan_classified hashed.logged trace⟩

theorem saveToQueue (ordered : Ordered env a s) (counted : s.bitsCounted = true → s.newBits ≠ 0) :
    InOrder env a (saveToQueue env s) := by
  have ready := queueReady ordered counted
  have calibrated := (addToQueue ready.1 ready.2.1 ready.2.2).calibrateCase
  simp only [Afl.saveToQueue]
  split
  · exact elsewhere calibrated (by simp)
  · exact elsewhere calibrated (by simp)

theorem uniqueFault {b : AflState} (logged : Logged env a b) (which : VirginMap) :
    Logged env a (uniqueFault env which b).2 := by
  have simplified : Logged env a b.simplify := logged.same rfl rfl rfl rfl
  simp only [Afl.uniqueFault]
  split
  · exact logged
  · exact simplified.scan which

theorem saveHang (logged : Logged env a s.afl) : InOrder env a (saveHang env s) := by
  have counted : Logged env a { s.afl with totalTmouts := s.afl.totalTmouts + 1 } :=
    logged.same rfl rfl rfl rfl
  have tested := uniqueFault counted .tmout
  obtain ⟨ran, fresh⟩ := tested.run
  simp only [Afl.saveHang]
  split
  · exact elsewhere counted (by simp)
  · split
    · exact elsewhere tested (by simp)
    · split
      · split
        · exact elsewhere ran (by simp)
        · split
          · split
            · -- the only way back: the trace of the second execution, with all flags reset
              refine ⟨ran.same rfl rfl rfl rfl, fun _ =>
                ⟨⟨ran.same rfl rfl rfl rfl, ?_⟩, fun impossible => by cases impossible⟩⟩
              constructor
              · intro _
                exact ⟨fresh, rfl⟩
              · intro impossible
                cases impossible
              · intro impossible
                cases impossible
              · intro impossible
                cases impossible
            · exact elsewhere ran (by simp)
          · exact elsewhere (ran.same rfl rfl rfl rfl) (by simp)
      · exact elsewhere (tested.same rfl rfl rfl rfl) (by simp)

theorem keepAsCrash (logged : Logged env a s.afl) : InOrder env a (keepAsCrash env s) := by
  have counted : Logged env a { s.afl with totalCrashes := s.afl.totalCrashes + 1 } :=
    logged.same rfl rfl rfl rfl
  have tested := uniqueFault counted .crash
  simp only [Afl.keepAsCrash]
  split
  · exact elsewhere counted (by simp)
  · split
    · exact elsewhere tested (by simp)
    · exact elsewhere (tested.same rfl rfl rfl rfl) (by simp)

/-- One block keeps the log in order. -/
theorem step {c : Point × Call} (inOrder : InOrder env a c) : InOrder env a (stepCall env c) := by
  obtain ⟨p, s⟩ := c
  cases p with
  | saveToQueue =>
    obtain ⟨ordered, counted⟩ := inOrder.queueing rfl
    exact saveToQueue ordered counted
  | maySaveFault =>
    simp only [stepCall, maySaveFault]
    split
    · exact saveHang inOrder.logged
    · exact elsewhere inOrder.logged (by simp)
    · exact elsewhere inOrder.logged (by simp)
    · exact elsewhere inOrder.logged (by simp)
  | keepAsCrash => exact keepAsCrash inOrder.logged
  | returned => exact inOrder
  | fatal => exact inOrder

end InOrder

/-! ## The queue itself -/

/-- The locals where the queueing code has the checksum and the new bits of the trace. -/
def Call.ready (env : SaveEnv) (s : Call) : Call :=
  calculateNewBitsIfNecessary env (calculateCksumIfNecessary env s)

/-- From `before` to `after` one entry was put in front of the queue. It stems from the
classified trace of the last execution so far; then it was calibrated. -/
structure Enqueued (env : SaveEnv) (a : AflState) (before after : Call) (entry : QueueEntry) :
    Prop where
  front : (addToQueue env (before.ready env)).queue = entry :: before.afl.queue
  stems : Stems env a (before.ready env).afl.events (before.ready env).afl.execs
    entry.execCksum (before.ready env).newBits entry.hasNewCov
  calibrated : after.afl = (calibrateCase env (addToQueue env (before.ready env))).2
  -- in cmplog mode and for the hash 0 the calibration takes a checksum of its own
  kept : env.cmplogMode = false → entry.execCksum ≠ 0 →
    ∃ cov, after.afl.queue = { entry with hasNewCov := cov } :: before.afl.queue

section Queue

variable {env : SaveEnv} {a : AflState} {s : Call}

@[simp] theorem AflState.scan_queue (b : AflState) (which : VirginMap) :
    (b.scan which).2.queue = b.queue := rfl

@[simp] theorem AflState.classify_queue (b : AflState) : b.classify.queue = b.queue := rfl

@[simp] theorem AflState.simplify_queue (b : AflState) : b.simplify.queue = b.queue := rfl

@[simp] theorem AflState.countPath_queue (b : AflState) (cksum : Nat) :
    (b.countPath cksum).queue = b.queue := rfl

@[simp] theorem AflState.run_queue (b : AflState) : (b.run env).2.queue = b.queue := rfl

@[simp] theorem AflState.scanUnclassified_queue (b : AflState) (classified : Bool) :
    (b.scanUnclassified env classified).2.1.queue = b.queue := by
  rw [AflState.scanUnclassified]
  split <;> simp

@[simp] theorem classifyIfNecessary_queue : (classifyIfNecessary s).afl.queue = s.afl.queue := by
  rw [classifyIfNecessary]
  split <;> simp

@[simp] theorem calculateCksumIfNecessary_queue :
    (calculateCksumIfNecessary env s).afl.queue = s.afl.queue := by
  rw [calculateCksumIfNecessary]
  split <;> simp

@[simp] theorem calculateNewBitsIfNecessary_queue :
    (calculateNewBitsIfNecessary env s).afl.queue = s.afl.queue := by
  rw [calculateNewBitsIfNecessary]
  split
  · rfl
  · split <;> simp

@[simp] theorem Call.ready_queue : (s.ready env).afl.queue = s.afl.queue := by
  simp [Call.ready]

@[simp] theorem feedSan_queue : (feedSan env s).2.afl.queue = s.afl.queue := by
  simp only [feedSan]
  split
  · rfl
  · split
    · split <;> rfl
    · simp
    · split <;> simp

@[simp] theorem runSanitizers_queue : ∀ n (b : AflState), (runSanitizers env n b).2.queue = b.queue
  | 0, _ => rfl
  | n + 1, b => by
    simp only [runSanitizers]
    split
    · rfl
    · exact runSanitizers_queue n _

@[simp] theorem sanitize_queue : (sanitize env s).2.afl.queue = s.afl.queue := by
  simp only [sanitize]
  split <;> simp

@[simp] theorem normalExecution_queue : (normalExecution env s).2.afl.queue = s.afl.queue := by
  simp only [normalExecution]
  split
  · split <;> simp
  · simp

@[simp] theorem updateFrequency_queue : (updateFrequency env s).afl.queue = s.afl.queue := by
  rw [updateFrequency]
  split <;> simp

theorem enterCall_queue (len : Nat) (fault : FsrvRun) :
    (enterCall env a len fault).2.afl.queue = a.queue := by
  simp only [enterCall]
  split
  · rfl
  · split
    · split <;> rfl
    · split <;> simp [Call.resetSan, Call.initial]

@[simp] theorem uniqueFault_queue (which : VirginMap) (b : AflState) :
    (uniqueFault env which b).2.queue = b.queue := by
  simp only [uniqueFault]
  split <;> simp

@[simp] theorem saveHang_queue : (saveHang env s).2.afl.queue = s.afl.queue := by
  simp only [saveHang]
  split
  · rfl
  · split
    · simp
    · split
      · split
        · simp
        · split
          · split <;> simp
          · simp
      · simp

@[simp] theorem keepAsCrash_queue : (keepAsCrash env s).2.afl.queue = s.afl.queue := by
  simp only [keepAsCrash]
  split
  · rfl
  · split <;> simp

/-- Only the block at `save_to_queue` changes the queue. -/
theorem stepCall_queue {p : Point} (elsewhere : p ≠ .saveToQueue) :
    (stepCall env (p, s)).2.afl.queue = s.afl.queue := by
  cases p with
  | saveToQueue => exact absurd rfl elsewhere
  | maySaveFault =>
    simp only [stepCall, maySaveFault]
    split <;> simp
  | keepAsCrash => exact keepAsCrash_queue
  | returned => rfl
  | fatal => rfl

theorem addToQueue_queue : ∃ found, (addToQueue env s).queue =
    ⟨s.cksum, s.newBits = 2, found⟩ :: s.afl.queue := by
  simp only [addToQueue]
  split
  · exact ⟨_, rfl⟩
  · exact ⟨_, rfl⟩

/-! ## A checksum survives the calibration -/

theorem Calibration.observe_entry {k : Calibration} (cksum : k.entry.execCksum ≠ 0) :
    (k.observe env).entry = k.entry := by
  simp only [Calibration.observe, if_pos cksum]
  split <;> rfl

theorem calibrateLoop_entry : ∀ n (k : Calibration), k.entry.execCksum ≠ 0 →
    (calibrateLoop env n k).2.entry = k.entry
  | 0, _, _ => rfl
  | n + 1, k, cksum => by
    rw [calibrateLoop]
    split
    · dsimp only
      split
      · rfl
      · split
        · rfl
        · -- the entry stays, so the next round starts from a checksum again
          generalize (k.afl.run env).2 = ran
          have same := @Calibration.observe_entry env { k with afl := ran } cksum
          rw [calibrateLoop_entry n _ (by rw [same]; exact cksum), same]
    · rfl

theorem beginCalibration_entry (entry : QueueEntry) (b : AflState)
    (cmplog : env.cmplogMode = false) : (beginCalibration env entry b).entry = entry := by
  simp only [beginCalibration, cmplog, Bool.false_eq_true, if_false]
  split <;> rfl

theorem Calibration.finish_front (k : Calibration) (queue : List QueueEntry) :
    ∃ cov, (k.finish queue).queue = { k.entry with hasNewCov := cov } :: queue := ⟨_, rfl⟩

theorem calibrateCase_front {b : AflState} {entry : QueueEntry} {queue : List QueueEntry}
    (front : b.queue = entry :: queue) (cmplog : env.cmplogMode = false)
    (cksum : entry.execCksum ≠ 0) :
    ∃ cov, (calibrateCase env b).2.queue = { entry with hasNewCov := cov } :: queue := by
  have begun := @beginCalibration_entry env entry b cmplog
  have looped := @calibrateLoop_entry env calCyclesLong (beginCalibration env entry b)
    (by rw [begun]; exact cksum)
  obtain ⟨cov, finished⟩ := Calibration.finish_front
    (calibrateLoop env calCyclesLong (beginCalibration env entry b)).2 queue
  rw [looped, begun] at finished
  rw [calibrateCase, front]
  exact ⟨cov, finished⟩

/-- What the block at `save_to_queue` puts in front of the queue. -/
theorem saveToQueue_enqueued (ordered : Ordered env a s)
    (counted : s.bitsCounted = true → s.newBits ≠ 0) :
    ∃ entry, Enqueued env a s (saveToQueue env s).2 entry := by
  -- both values are computed by now, whichever path led here
  obtain ⟨ready, cksumed, scanned⟩ := InOrder.queueReady ordered counted
  obtain ⟨classified, cksum⟩ := ready.flags.cksum cksumed
  obtain ⟨found, front⟩ := @addToQueue_queue env (s.ready env)
  rw [Call.ready_queue] at front
  have calibrated : (saveToQueue env s).2.afl =
      (calibrateCase env (addToQueue env (s.ready env))).2 := by
    simp only [saveToQueue]
    split <;> rfl
  refine ⟨_, ⟨front, ?_, calibrated, ?_⟩⟩
  · exact ⟨(ready.flags.classified classified).1, cksum, scanned, rfl⟩
  · intro cmplog nonzero
    rw [calibrated]
    exact calibrateCase_front front cmplog nonzero

end Queue

/-- In every call the queue starts as it was and only the block at `save_to_queue` changes it:
there one entry is put in front of it, with the checksum of the classified trace of one
execution and the result of the scan of that same trace. After any number of blocks no trace
was classified twice, and each entry of the log is such an entry. -/
theorem saveIfInteresting_classification (env : SaveEnv) (a : AflState) (len : Nat)
    (fault : FsrvRun) (execs : a.execs = 0) (events : a.events = []) :
    let call := saveIfInteresting env a len fault
    (call 0).2.afl.queue = a.queue ∧
      ∀ n, ((call n).1 = .saveToQueue →
          ∃ entry, Enqueued env a (call n).2 (call (n + 1)).2 entry) ∧
        ((call n).1 ≠ .saveToQueue →
          (call (n + 1)).2.afl.queue = (call n).2.afl.queue) ∧
        (classifications (call n).2.afl.events).Nodup ∧
        ∀ exec cksum newBits cov, .queued exec cksum newBits cov ∈ (call n).2.afl.events →
          Stems env a (call n).2.afl.events exec cksum newBits cov := by
  have inOrder : ∀ n, InOrder env a (saveIfInteresting env a len fault n) := by
    intro n
    induction n with
    | zero => exact InOrder.enterCall len fault execs events
    | succ n ih =>
      rw [saveIfInteresting, Function.iterate_succ_apply']
      exact ih.step
  refine ⟨enterCall_queue len fault, ?_⟩
  intro n
  have next : saveIfInteresting env a len fault (n + 1) =
      stepCall env (saveIfInteresting env a len fault n) :=
    Function.iterate_succ_apply' ..
  have order := inOrder n
  rw [next]
  generalize saveIfInteresting env a len fault n = c at order ⊢
  obtain ⟨logged, queueing⟩ := order
  obtain ⟨p, s⟩ := c
  refine ⟨?_, stepCall_queue, logged.once, logged.entries⟩
  intro here
  obtain ⟨ordered, counted⟩ := queueing here
  cases here
  exact saveToQueue_enqueued ordered counted

/-- A target without instrumentation that always ends normally, with `AFL_KEEP_TIMEOUTS`. -/
def steadyEnv : SaveEnv where
  build := .portable
  hash64 := fun _ => 1
  hash32 := fun _ => 1
  target := fun _ => ⟨.ok, List.replicate 8 0, false⟩
  sanitizer := fun _ => .ok
  schedule := .explore
  sanAbstraction := .simplifyTrace
  sanBinaryLength := 0
  crashMode := false
  nonInstrumentedMode := true
  cmplogMode := false
  ignoreTimeouts := false
  keepTimeouts := true
  calFast := false
  execTmout := 1000
  hangTmout := 2000
  keepUniqueHang := 500
  keepUniqueCrash := 10000

def emptyState : AflState where
  cov :=
    { mapSize := 64
      realMapSize := 64
      traceBits := List.replicate 8 0
      virginBits := List.replicate 8 (BitVec.allOnes 64)
      virginTmout := List.replicate 8 (BitVec.allOnes 64)
      virginCrash := List.replicate 8 (BitVec.allOnes 64)
      bitmapChanged := false }
  execs := 0
  sanRuns := 0
  nFuzz := fun _ => 0
  simplifiedNFuzz := fun _ => false
  nFuzzDup := fun _ => false
  queue := []
  queuedItems := 0
  queuedWithCov := 0
  totalCrashes := 0
  totalTmouts := 0
  savedHangs := 0
  savedCrashes := 0
  savedTmouts := 0
  sanCrashOnly := false
  nonCovIncreaseBug := false
  firstTrace := []
  varBytes := fun _ => false
  events := []

/-- A timeout that the second execution does not confirm: the entry stems from that
execution, the first of the call, and keeps its checksum. -/
theorem saveIfInteresting_classification_timeout :
    let call := saveIfInteresting steadyEnv emptyState 1 .tmout
    (classifications (call 2).2.afl.events).Nodup ∧
      (classifications (call 2).2.afl.events).length = 8 ∧
      Stems steadyEnv emptyState (call 2).2.afl.events 1 1 0 false ∧
      (∃ entry, Enqueued steadyEnv emptyState (call 1).2 (call 2).2 entry) ∧
      (call 2).2.afl.queue = [⟨1, false, none⟩] := by
  obtain ⟨_, blocks⟩ :=
    saveIfInteresting_classification steadyEnv emptyState 1 .tmout rfl rfl
  obtain ⟨_, _, once, stems⟩ := blocks 2
  exact ⟨once, by decide, stems 1 1 0 false (by decide), (blocks 1).1 (by decide), by decide⟩

end Swam.Afl
