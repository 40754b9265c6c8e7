import Swam.Afl.Coverage

/-!
# Queueing an interesting input

`save_if_interesting` as blocks between its labels, together with the calibration of a new
queue entry. What the target does in each execution, the hash functions and the build and
run-time settings are an environment. File names, statistics of the calibration and the
bytes of the input are left out.

The state also keeps a log of classifications, of scans for new bits and of queued entries,
each with the number of the execution whose trace was in `trace_bits`.
-/
namespace Swam.Afl

/-! ## Environment -/

inductive FsrvRun where
  | ok | tmout | crash | error | noinst | nobits
  deriving DecidableEq, Repr

inductive Schedule where
  | explore | mmopt | exploit | fast | coe | lin | quad | rare | seek
  deriving DecidableEq, Repr

/-- `FAST` to `RARE`: schedules that count how often a path was taken. -/
def Schedule.frequency : Schedule → Bool
  | .fast | .coe | .lin | .quad | .rare => true
  | _ => false

inductive SanAbstraction where
  | simplifyTrace | uniqueTrace | coverageIncrease
  deriving DecidableEq, Repr

/-- One execution of the target: its result, the trace it leaves and whether a stop was
requested by then. -/
structure Execution where
  fault : FsrvRun
  trace : List Word
  stopSoon : Bool
  deriving DecidableEq, Repr

structure SaveEnv where
  build : SkimBuild
  hash64 : List Word → Nat
  hash32 : List Word → Nat
  /-- Executions of the target, numbered from the start of the call. -/
  target : Nat → Execution
  /-- Executions of the sanitizer binaries. -/
  sanitizer : Nat → FsrvRun
  schedule : Schedule
  sanAbstraction : SanAbstraction
  sanBinaryLength : Nat
  crashMode : Bool
  nonInstrumentedMode : Bool
  cmplogMode : Bool
  ignoreTimeouts : Bool
  keepTimeouts : Bool
  calFast : Bool
  execTmout : Nat
  hangTmout : Nat
  keepUniqueHang : Nat
  keepUniqueCrash : Nat

/-- The result `afl->crash_mode` that counts as a normal execution. -/
def SaveEnv.normal (env : SaveEnv) : FsrvRun := if env.crashMode then .crash else .ok

/-! ## State -/

structure QueueEntry where
  execCksum : Nat
  hasNewCov : Bool
  nFuzzEntry : Option Nat
  deriving DecidableEq, Repr

/-- The log: numbers of executions, arguments and results. -/
inductive SaveEvent where
  | classified (exec : Nat)
  | scanned (exec : Nat) (which : VirginMap) (trace virgin : List Word) (ret : Nat)
  | queued (exec execCksum newBits : Nat) (hasNewCov : Bool)
  deriving DecidableEq, Repr

structure AflState where
  cov : Coverage
  /-- Executions of the target since the call; the last one filled `trace_bits`. -/
  execs : Nat
  sanRuns : Nat
  nFuzz : Nat → Nat
  simplifiedNFuzz : Nat → Bool
  nFuzzDup : Nat → Bool
  /-- The most recent entry first. -/
  queue : List QueueEntry
  queuedItems : Nat
  queuedWithCov : Nat
  totalCrashes : Nat
  totalTmouts : Nat
  savedHangs : Nat
  savedCrashes : Nat
  savedTmouts : Nat
  sanCrashOnly : Bool
  nonCovIncreaseBug : Bool
  firstTrace : List Word
  varBytes : Nat → Bool
  events : List SaveEvent

def nFuzzSize : Nat := 2 ^ 21

namespace AflState

/-- `fuzz_run_target` on the main target. -/
def run (env : SaveEnv) (a : AflState) : Execution × AflState :=
  let e := env.target a.execs
  (e, { a with cov.traceBits := e.trace, execs := a.execs + 1 })

def classify (a : AflState) : AflState :=
  { a with cov := classifyCounts a.cov, events := .classified a.execs :: a.events }

def scan (which : VirginMap) (a : AflState) : Nat × AflState :=
  let (ret, cov) := hasNewBits which a.cov
  (ret, { a with
    cov
    events := .scanned a.execs which a.cov.traceBits (a.cov.virgin which) ret :: a.events })

/-- `has_new_bits_unclassified` on the queue's map. -/
def scanUnclassified (env : SaveEnv) (a : AflState) (classified : Bool) : Nat × AflState × Bool :=
  if skim env.build (a.cov.virgin .bits) a.cov.traceBits a.cov.mapSize = false then
    (0, a, classified)
  else
    let (ret, a) := a.classify.scan .bits
    (ret, a, true)

def simplify (a : AflState) : AflState := { a with cov := simplifyTrace a.cov }

/-- The saturating count of a path. -/
def countPath (cksum : Nat) (a : AflState) : AflState :=
  let i := cksum % nFuzzSize
  { a with nFuzz := Function.update a.nFuzz i (min (a.nFuzz i + 1) 0xFFFFFFFF) }

end AflState

/-! ## Calibration -/

/-- Non-zero bytes among those of the real map, rounded up to words of four. -/
def countBytes (c : Coverage) : Nat :=
  (List.range ((c.realMapSize + 3) / 4 * 4)).countP fun i => byteAt c.traceBits i ≠ 0

structure Calibration where
  afl : AflState
  entry : QueueEntry
  newBits : Nat
  varDetected : Bool
  stageCur : Nat
  stageMax : Nat

def calCycles : Nat := 7
def calCyclesFast : Nat := 3
def calCyclesLong : Nat := 12

def Word.clearByte (w : Word) (k : Nat) : Word := w &&& ~~~(0xff#64 <<< (8 * k))

/-- Bytes that differ from the first trace become variable, and their edges count as
discovered. -/
def AflState.markVariable (a : AflState) : AflState :=
  let varies (i : Nat) : Bool := i < a.cov.mapSize ∧ ¬ a.varBytes i ∧
    byteAt a.firstTrace i ≠ byteAt a.cov.traceBits i
  { a with
    varBytes := fun i => a.varBytes i || varies i
    cov.virginBits := a.cov.virginBits.zipIdx.map fun (w, n) =>
      (List.range 8).foldl (fun w k => if varies (8 * n + k) then w.clearByte k else w) w }

/-- One classified execution of the calibration. -/
def Calibration.observe (env : SaveEnv) (k : Calibration) : Calibration :=
  let afl := k.afl.classify
  let cksum := env.hash64 afl.cov.traceBits
  let k := { k with afl, stageCur := k.stageCur + 1 }
  if k.entry.execCksum ≠ cksum then
    let (hnb, afl) := afl.scan .bits
    let k := { k with afl, newBits := max k.newBits hnb }
    if k.entry.execCksum ≠ 0 then
      { k with
        afl := k.afl.markVariable
        varDetected := true
        stageMax := if env.calFast then calCycles else calCyclesLong }
    else
      { k with
        entry.execCksum := cksum
        afl.firstTrace := k.afl.cov.traceBits }
  else k

/-- The executions of the calibration; the result of the one that aborts it, if any. -/
def calibrateLoop (env : SaveEnv) : Nat → Calibration → Option FsrvRun × Calibration
  | 0, k => (none, k)
  | n + 1, k =>
    if k.stageCur < k.stageMax then
      let (e, afl) := k.afl.run env
      let k := { k with afl }
      if e.stopSoon ∨ e.fault ≠ env.normal then (some e.fault, k)
      else if ¬ env.nonInstrumentedMode ∧ countBytes afl.cov = 0 then (some .noinst, k)
      else calibrateLoop env n (k.observe env)
    else (none, k)

/-- Up to the first execution. -/
def beginCalibration (env : SaveEnv) (entry : QueueEntry) (a : AflState) : Calibration :=
  let entry := if env.cmplogMode then { entry with execCksum := 0 } else entry
  let stageMax := if env.calFast then calCyclesFast else calCycles
  if entry.execCksum ≠ 0 then
    let (hnb, b) := a.scan .bits
    ⟨{ b with firstTrace := a.cov.traceBits }, entry, hnb, false, 0, stageMax⟩
  else ⟨a, entry, 0, false, 0, stageMax⟩

/-- The entry back in the queue, with its new coverage counted. -/
def Calibration.finish (k : Calibration) (queue : List QueueEntry) : AflState :=
  let found : Bool := k.newBits = 2 ∧ ¬ k.entry.hasNewCov
  { k.afl with
    queue := { k.entry with hasNewCov := k.entry.hasNewCov || found } :: queue
    queuedWithCov := k.afl.queuedWithCov + if found then 1 else 0 }

/-- `calibrate_case` on the newest entry. -/
def calibrateCase (env : SaveEnv) (a : AflState) : FsrvRun × AflState :=
  match a.queue with
  | [] => (.ok, a)
  | entry :: queue =>
    let firstRun := entry.execCksum = 0
    let (aborted, k) := calibrateLoop env calCyclesLong (beginCalibration env entry a)
    let fault := match aborted with
      | some fault => fault
      | none =>
        if ¬ env.nonInstrumentedMode ∧ firstRun ∧ env.normal = .ok ∧ k.newBits = 0 then .nobits
        else env.normal
    (fault, k.finish queue)

/-! ## The call -/

/-- The locals of `save_if_interesting`. -/
structure Call where
  afl : AflState
  fault : FsrvRun
  keeping : Bool
  classified : Bool
  bitsCounted : Bool
  cksumed : Bool
  newBits : Nat
  cksum : Nat

def classifyIfNecessary (s : Call) : Call :=
  if s.classified then s else { s with afl := s.afl.classify, classified := true }

def calculateCksumIfNecessary (env : SaveEnv) (s : Call) : Call :=
  if s.cksumed then s
  else
    let s := classifyIfNecessary s
    { s with cksum := env.hash64 s.afl.cov.traceBits, cksumed := true }

def calculateNewBitsIfNecessary (env : SaveEnv) (s : Call) : Call :=
  if s.bitsCounted then s
  else if s.classified then
    let (newBits, afl) := s.afl.scan .bits
    { s with afl, newBits, bitsCounted := true }
  else
    let (newBits, afl, classified) := s.afl.scanUnclassified env s.classified
    { s with afl, newBits, classified, bitsCounted := true }

/-- Whether the sanitizers are to see the input. The unique-trace test looks up `cksum`,
which may not have been computed, and records the hash of the trace. -/
def feedSan (env : SaveEnv) (s : Call) : Bool × Call :=
  if env.sanBinaryLength = 0 then (false, s)
  else
    match env.sanAbstraction with
    | .simplifyTrace =>
      let cksum := env.hash32 (simplifyTrace s.afl.cov).traceBits
      if s.afl.simplifiedNFuzz cksum then (false, s)
      else (true, { s with
        afl.simplifiedNFuzz := Function.update s.afl.simplifiedNFuzz cksum true })
    | .coverageIncrease =>
      let s := calculateNewBitsIfNecessary env s
      (s.newBits ≠ 0, s)
    | .uniqueTrace =>
      let s := classifyIfNecessary s
      let cksum := env.hash32 s.afl.cov.traceBits
      if s.afl.nFuzzDup (s.cksum % 2 ^ 32) then (false, s)
      else (true, { s with afl.nFuzzDup := Function.update s.afl.nFuzzDup cksum true })

/-- The sanitizer binaries in turn, up to the first crash. Their traces are buffers of their
own. -/
def runSanitizers (env : SaveEnv) : Nat → AflState → FsrvRun × AflState
  | 0, a => (.ok, a)
  | n + 1, a =>
    let fault := env.sanitizer a.sanRuns
    let a := { a with
      sanRuns := a.sanRuns + 1
      sanCrashOnly := a.sanCrashOnly || fault ≠ .ok }
    if fault = .crash then (.crash, a) else runSanitizers env n a

/-- The labels a block ends at. -/
inductive Point where
  | saveToQueue | maySaveFault | keepAsCrash
  | returned (keeping : Bool)
  | fatal
  deriving DecidableEq, Repr

/-- Path frequency: hashing every trace is left to the schedules that need it. -/
def updateFrequency (env : SaveEnv) (s : Call) : Call :=
  if env.schedule.frequency then
    let s := calculateCksumIfNecessary env s
    { s with afl := s.afl.countPath s.cksum }
  else s

/-- `OK` or `CRASH`. -/
def sanitize (env : SaveEnv) (s : Call) : FsrvRun × Call :=
  let (feed, s) := feedSan env s
  if feed then
    let (sanFault, afl) := runSanitizers env env.sanBinaryLength s.afl
    (sanFault, { s with afl })
  else (.ok, s)

/-- A normal execution: sanitizers, then the test for new bits. -/
def normalExecution (env : SaveEnv) (s : Call) : Point × Call :=
  let (sanFault, s) := sanitize env s
  let s := calculateNewBitsIfNecessary env s
  if s.newBits = 0 then
    if sanFault = .ok then
      (.returned false,
        { s with afl.totalCrashes := s.afl.totalCrashes + if env.crashMode then 1 else 0 })
    else (.maySaveFault, { s with fault := sanFault, afl.nonCovIncreaseBug := true })
  else (.saveToQueue, { s with fault := sanFault })

/-- The locals at the start. -/
def Call.initial (a : AflState) (fault : FsrvRun) : Call where
  afl := a
  fault := fault
  keeping := false
  classified := false
  bitsCounted := false
  cksumed := false
  newBits := 0
  cksum := 0

/-- `afl->san_case_status = 0`. -/
def Call.resetSan (s : Call) : Call :=
  { s with afl.sanCrashOnly := false, afl.nonCovIncreaseBug := false }

/-- From the call to the first label. -/
def enterCall (env : SaveEnv) (a : AflState) (len : Nat) (fault : FsrvRun) : Point × Call :=
  let s := Call.initial a fault
  if len = 0 then (.returned false, s)
  else if fault = .tmout ∧ env.ignoreTimeouts then
    if env.schedule.frequency then
      let a := a.classify
      (.returned false, { s with afl := a.countPath (env.hash64 a.cov.traceBits) })
    else (.returned false, s)
  else
    let s := updateFrequency env s.resetSan
    if fault = env.normal then normalExecution env s else (.maySaveFault, s)

/-- `add_to_queue` and the fields set right after it. -/
def addToQueue (env : SaveEnv) (s : Call) : AflState :=
  let i := s.cksum % nFuzzSize
  let a := { s.afl with
    queuedItems := s.afl.queuedItems + 1
    queuedWithCov := s.afl.queuedWithCov + if s.newBits = 2 then 1 else 0
    queue := ⟨s.cksum, s.newBits = 2, if env.schedule.frequency then some i else none⟩ ::
      s.afl.queue
    events := .queued s.afl.execs s.cksum s.newBits (s.newBits = 2) :: s.afl.events }
  if env.schedule.frequency then { a with nFuzz := Function.update a.nFuzz i 1 } else a

/-- From `save_to_queue` to the end of the queueing code. -/
def saveToQueue (env : SaveEnv) (s : Call) : Point × Call :=
  let s := calculateNewBitsIfNecessary env (calculateCksumIfNecessary env s)
  let (res, afl) := calibrateCase env (addToQueue env s)
  if res = .error then (.fatal, { s with afl })
  else (.maySaveFault, { s with afl, keeping := true })

/-- The uniqueness test of a hang or crash; everything is unique without instrumentation. -/
def uniqueFault (env : SaveEnv) (which : VirginMap) (a : AflState) : Bool × AflState :=
  if env.nonInstrumentedMode then (true, a)
  else
    let (ret, a) := a.simplify.scan which
    (ret ≠ 0, a)

/-- The timeout case: a hang is confirmed by a second execution with more time. -/
def saveHang (env : SaveEnv) (s : Call) : Point × Call :=
  let s := { s with afl.totalTmouts := s.afl.totalTmouts + 1 }
  if s.afl.savedHangs ≥ env.keepUniqueHang then (.returned s.keeping, s)
  else
    let (fresh, afl) := uniqueFault env .tmout s.afl
    let s := { s with afl }
    if ¬ fresh then (.returned s.keeping, s)
    else if env.execTmout < env.hangTmout then
      let (e, afl) := s.afl.run env
      let s := { s with afl, classified := false, bitsCounted := false, cksumed := false }
      if ¬ e.stopSoon ∧ e.fault = .crash then (.keepAsCrash, s)
      else if e.stopSoon ∨ e.fault ≠ .tmout then
        -- back to the queueing code, with `fault` still a timeout
        if env.keepTimeouts then
          (.saveToQueue, { s with afl.savedTmouts := s.afl.savedTmouts + 1 })
        else (.returned s.keeping, s)
      else (.returned s.keeping, { s with afl.savedHangs := s.afl.savedHangs + 1 })
    else (.returned s.keeping, { s with afl.savedHangs := s.afl.savedHangs + 1 })

def keepAsCrash (env : SaveEnv) (s : Call) : Point × Call :=
  let s := { s with afl.totalCrashes := s.afl.totalCrashes + 1 }
  if s.afl.savedCrashes ≥ env.keepUniqueCrash then (.returned s.keeping, s)
  else
    let (fresh, afl) := uniqueFault env .crash s.afl
    if ¬ fresh then (.returned s.keeping, { s with afl })
    else (.returned s.keeping, { s with afl := { afl with savedCrashes := afl.savedCrashes + 1 } })

def maySaveFault (env : SaveEnv) (s : Call) : Point × Call :=
  match s.fault with
  | .tmout => saveHang env s
  | .crash => (.keepAsCrash, s)
  | .error => (.fatal, s)
  | _ => (.returned s.keeping, s)

/-- From one label to the next. -/
def stepCall (env : SaveEnv) : Point × Call → Point × Call
  | (.saveToQueue, s) => saveToQueue env s
  | (.maySaveFault, s) => maySaveFault env s
  | (.keepAsCrash, s) => keepAsCrash env s
  | stopped => stopped

/-- The call after its first `n` blocks. -/
def saveIfInteresting (env : SaveEnv) (a : AflState) (len : Nat) (fault : FsrvRun) (n : Nat) :
    Point × Call :=
  (stepCall env)^[n] (enterCall env a len fault)

end Swam.Afl
