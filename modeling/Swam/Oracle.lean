import Swam.Scheduler

/-!
# Markers and the oracle

The harness reports the two marker values of an execution through shared memory or a
file. At the next call the oracle compares them with the scenario of the module that
was executed, records the outcome and saves modules that show a mismatch.
-/
namespace Swam

/-! ## The marker area -/

/-- Shared memory of three words, when attached, and the marker file, when present.
A file is a pair of numbers or unreadable. -/
structure MarkerArea where
  shm : Option (Nat × Nat × Nat)
  file : Option (Option (Nat × Nat))
  deriving DecidableEq, Repr

structure MarkerReading where
  before : Nat
  after : Nat
  valid : Bool
  deriving DecidableEq, Repr

def swamMarkersRead (area : MarkerArea) : MarkerReading :=
  match area.shm with
  | some (before, after, flag) =>
    if flag ≠ 0 then ⟨before, after, true⟩ else fromFile
  | none => fromFile
where
  fromFile : MarkerReading :=
    match area.file with
    | some (some (before, after)) => ⟨before, after, true⟩
    | _ => ⟨0, 0, false⟩

def swamMarkersReset (area : MarkerArea) : MarkerArea :=
  ⟨area.shm.map fun _ => (0, 0, 0), none⟩

/-! ## State of the mutator -/

inductive SwamBugTag where
  | bypass
  | falseTrap
  deriving DecidableEq, Repr

def SwamBugTag.name : SwamBugTag → String
  | .bypass => "bypass"
  | .falseTrap => "false_trap"

def swamUnknownNotrapSaveCap : Nat := 32
def swamBugSaveCap : Nat := 3

/-- The part of `wasm_mutator_t` that the exploit path keeps between calls. -/
structure Mutator where
  lastScenarioId : Nat
  lastWasExploit : Bool
  exploitCnt : Nat
  pendingModule : Option (List UInt8)
  pendingModuleSize : Nat
  bugHitsTotal : Nat
  savedBugCount : Nat → SwamBugTag → Nat
  unknownTotal : Nat → Nat
  unknownSavedNotrap : Nat → Nat
  unknownSavedTrap : Nat → Nat
  bugCounter : Nat
  unknownCounter : Nat
  scheduler : Option SwamScheduler
  markers : MarkerArea
  rand : Rand

/-- `afl_custom_init`, with the profile named by the environment. -/
def aflCustomInit (calloc : Bool) (runtime : Option String) (markers : MarkerArea) (r : Rand) :
    Mutator where
  lastScenarioId := 0
  lastWasExploit := false
  exploitCnt := 0
  pendingModule := none
  pendingModuleSize := 0
  bugHitsTotal := 0
  savedBugCount := fun _ _ => 0
  unknownTotal := fun _ => 0
  unknownSavedNotrap := fun _ => 0
  unknownSavedTrap := fun _ => 0
  bugCounter := 0
  unknownCounter := 0
  scheduler :=
    let sched := swamSchedulerCreate swamScenarioCount calloc
    match runtime.bind swamProfileLookup with
    | some profile => sched.map (swamSchedulerSetProfile · (some profile))
    | none => sched
  markers := markers
  rand := r

/-- A file written into `swam_bugs` or `swam_unknowns`. -/
structure SavedFile where
  counter : Nat
  scenario : SwamScenario
  tag : String
  content : List UInt8
  deriving DecidableEq, Repr

/-- What a call does besides changing the state. -/
inductive Effect where
  | select (id : Nat)
  | update (id : Nat) (outcome : SwamSchedOutcome)
  | saveBug (file : SavedFile)
  | saveUnknown (file : SavedFile)
  deriving DecidableEq, Repr

/-- A table of 32-bit counters with one of them incremented. -/
def bump (f : Nat → Nat) (key : Nat) : Nat → Nat :=
  fun k => if k = key then (f k + 1) % 2 ^ 32 else f k

def swamSchedulerRecord (d : Mutator) (id : Nat) (outcome : SwamSchedOutcome) :
    Mutator × List Effect :=
  ({ d with scheduler := swamSchedulerUpdate d.scheduler id outcome }, [.update id outcome])

/-- `bug_counter` advances even when the file cannot be opened. -/
def swamSaveBug (fopen : Bool) (d : Mutator) (scenario : SwamScenario) (tag : SwamBugTag) :
    Mutator × List Effect :=
  match d.pendingModule with
  | none => (d, [])
  | some bytes =>
    if d.pendingModuleSize = 0 then (d, [])
    else
      ({ d with bugCounter := (d.bugCounter + 1) % 2 ^ 32 },
        if fopen then
          [.saveBug ⟨d.bugCounter, scenario, tag.name, bytes.take d.pendingModuleSize⟩]
        else [])

def swamSaveUnknown (fopen : Bool) (d : Mutator) (scenario : SwamScenario) (tag : String) :
    Mutator × List Effect :=
  match d.pendingModule with
  | none => (d, [])
  | some bytes =>
    if d.pendingModuleSize = 0 then (d, [])
    else
      ({ d with unknownCounter := (d.unknownCounter + 1) % 2 ^ 32 },
        if fopen then
          [.saveUnknown ⟨d.unknownCounter, scenario, tag, bytes.take d.pendingModuleSize⟩]
        else [])

def swamMaybeSaveBug (fopen : Bool) (d : Mutator) (scenario : SwamScenario) (tag : SwamBugTag) :
    Mutator × List Effect :=
  let d := { d with bugHitsTotal := (d.bugHitsTotal + 1) % 2 ^ 32 }
  if d.pendingModule.isNone ∨ d.pendingModuleSize = 0 then (d, [])
  else
    let idx := scenario.id - 1
    if d.savedBugCount idx tag ≥ swamBugSaveCap then (d, [])
    else
      swamSaveBug fopen { d with savedBugCount := fun i t =>
        if i = idx ∧ t = tag then d.savedBugCount i t + 1 else d.savedBugCount i t } scenario tag

/-- What the oracle concludes from the markers of a scenario. -/
def swamClassify (scenario : SwamScenario) (reading : MarkerReading) : SwamSchedOutcome :=
  if ¬ reading.valid ∨ reading.before ≠ scenario.id then .notReached
  else if reading.after ≠ scenario.id then .reachedTrapped
  else .reachedCompleted

/-- What is saved for an outcome that reached the probe. -/
def swamReport (fopen : Bool) (d : Mutator) (scenario : SwamScenario) (trapped : Bool) :
    Mutator × List Effect :=
  if scenario.expected = .trap ∧ ¬ trapped then swamMaybeSaveBug fopen d scenario .bypass
  else if scenario.expected = .noTrap ∧ trapped then swamMaybeSaveBug fopen d scenario .falseTrap
  else if scenario.expected = .unknown then
    let idx := scenario.id - 1
    let d := { d with unknownTotal := bump d.unknownTotal idx }
    if trapped then
      let (d, saved) := swamSaveUnknown fopen d scenario "unknown_trap"
      ({ d with unknownSavedTrap := bump d.unknownSavedTrap idx }, saved)
    else if d.unknownSavedNotrap idx < swamUnknownNotrapSaveCap then
      let (d, saved) := swamSaveUnknown fopen d scenario "unknown_notrap"
      ({ d with unknownSavedNotrap := bump d.unknownSavedNotrap idx }, saved)
    else (d, [])
  else (d, [])

def swamOracleCheck (fopen : Bool) (d : Mutator) : Mutator × List Effect :=
  let reading := swamMarkersRead d.markers
  let (d, effects) :=
    if ¬ reading.valid then swamSchedulerRecord d d.lastScenarioId .notReached
    else
      match swamGetScenario d.lastScenarioId with
      | none => (d, [])
      | some scenario =>
        if reading.before ≠ scenario.id then swamSchedulerRecord d d.lastScenarioId .notReached
        else
          let trapped : Bool := reading.after ≠ scenario.id
          let (d, recorded) := swamSchedulerRecord d d.lastScenarioId
            (if trapped then .reachedTrapped else .reachedCompleted)
          let (d, saved) := swamReport fopen d scenario trapped
          (d, recorded ++ saved)
  ({ d with pendingModule := none, pendingModuleSize := 0 }, effects)

/-! ## What a check does -/

/-- The markers contradict the scenario: the probe ran through where a trap is
expected, or stopped where none is. -/
def Mismatch (scenario : SwamScenario) (reading : MarkerReading) : Prop :=
  reading.valid = true ∧
    ((scenario.expected = .trap ∧ reading.before = scenario.id ∧ reading.after = scenario.id) ∨
      (scenario.expected = .noTrap ∧ reading.before = scenario.id ∧ reading.after ≠ scenario.id))

/-- Bounds on what is saved. -/
structure Mutator.Capped (d : Mutator) : Prop where
  bugs : ∀ i tag, d.savedBugCount i tag ≤ swamBugSaveCap
  unknowns : ∀ i, d.unknownSavedNotrap i ≤ swamUnknownNotrapSaveCap

/-- What saving keeps of the state: the marker area and the bounds. -/
structure Mutator.Kept (d d' : Mutator) : Prop where
  markers : d'.markers = d.markers
  capped : d.Capped → d'.Capped

/-- An effect saves a module as a bug. -/
def Effect.isBug : Effect → Bool
  | .saveBug _ => true
  | _ => false

theorem swamClassify_notReached_iff (scenario : SwamScenario) (reading : MarkerReading) :
    swamClassify scenario reading = .notReached ↔
      reading.valid = false ∨ reading.before ≠ scenario.id := by
  unfold swamClassify
  by_cases missed : ¬ reading.valid ∨ reading.before ≠ scenario.id
  · rw [if_pos missed]
    simpa using missed
  · rw [if_neg missed]
    have reached : ¬ (reading.valid = false ∨ reading.before ≠ scenario.id) := by
      simpa using missed
    by_cases after : reading.after = scenario.id <;> simp [after, reached]

theorem swamSaveBug_spec (fopen : Bool) (d : Mutator) (scenario : SwamScenario)
    (tag : SwamBugTag) :
    (∃ n, (swamSaveBug fopen d scenario tag).1 = { d with bugCounter := n }) ∧
      ∀ e ∈ (swamSaveBug fopen d scenario tag).2, ∃ n bytes, d.pendingModule = some bytes ∧
        e = .saveBug ⟨n, scenario, tag.name, bytes.take d.pendingModuleSize⟩ := by
  unfold swamSaveBug
  split
  · exact ⟨⟨d.bugCounter, rfl⟩, by simp⟩
  next bytes pending =>
    split
    · exact ⟨⟨d.bugCounter, rfl⟩, by simp⟩
    · refine ⟨⟨_, rfl⟩, fun e member => ⟨d.bugCounter, bytes, pending, ?_⟩⟩
      dsimp only at member
      split at member
      · exact List.mem_singleton.mp member
      · cases member

theorem swamSaveUnknown_spec (fopen : Bool) (d : Mutator) (scenario : SwamScenario)
    (tag : String) :
    (∃ n, (swamSaveUnknown fopen d scenario tag).1 = { d with unknownCounter := n }) ∧
      ∀ e ∈ (swamSaveUnknown fopen d scenario tag).2, ∃ f, e = .saveUnknown f := by
  unfold swamSaveUnknown
  split
  · exact ⟨⟨d.unknownCounter, rfl⟩, by simp⟩
  · split
    · exact ⟨⟨d.unknownCounter, rfl⟩, by simp⟩
    · refine ⟨⟨_, rfl⟩, fun e member => ?_⟩
      dsimp only at member
      split at member
      · exact ⟨_, List.mem_singleton.mp member⟩
      · cases member

/-- Effects of saving: bug files hold the pending module of the scenario. -/
def SavesPending (d : Mutator) (scenario : SwamScenario) (effects : List Effect) : Prop :=
  ∀ e ∈ effects, (∃ f, e = .saveUnknown f) ∨
    ∃ n tag bytes, d.pendingModule = some bytes ∧
      e = .saveBug ⟨n, scenario, tag, bytes.take d.pendingModuleSize⟩

theorem swamMaybeSaveBug_spec (fopen : Bool) (d : Mutator) (scenario : SwamScenario)
    (tag : SwamBugTag) :
    d.Kept (swamMaybeSaveBug fopen d scenario tag).1 ∧
      SavesPending d scenario (swamMaybeSaveBug fopen d scenario tag).2 := by
  unfold swamMaybeSaveBug
  dsimp only
  split
  · exact ⟨⟨rfl, fun capped => ⟨capped.bugs, capped.unknowns⟩⟩, by simp [SavesPending]⟩
  split
  · exact ⟨⟨rfl, fun capped => ⟨capped.bugs, capped.unknowns⟩⟩, by simp [SavesPending]⟩
  next room =>
    obtain ⟨⟨n, equal⟩, saved⟩ := swamSaveBug_spec fopen
      { d with
        bugHitsTotal := (d.bugHitsTotal + 1) % 2 ^ 32
        savedBugCount := fun i t => if i = scenario.id - 1 ∧ t = tag
          then d.savedBugCount i t + 1 else d.savedBugCount i t } scenario tag
    constructor
    · rw [equal]
      refine ⟨rfl, fun capped => ⟨fun i t => ?_, capped.unknowns⟩⟩
      dsimp only
      split
      next here =>
        obtain ⟨rfl, rfl⟩ := here
        omega
      · exact capped.bugs i t
    · intro e member
      obtain ⟨n, bytes, pending, equal⟩ := saved e member
      exact .inr ⟨n, tag.name, bytes, pending, equal⟩

theorem bump_le {f : Nat → Nat} {key cap : Nat} (bounded : ∀ i, f i ≤ cap) (room : f key < cap)
    (i : Nat) : bump f key i ≤ cap := by
  unfold bump
  split
  next here =>
    subst here
    exact Nat.le_trans (Nat.mod_le _ _) room
  · exact bounded i

/-- Nothing is reported: the hits are as before and no bug file is written. -/
def Quiet (d d' : Mutator) (effects : List Effect) : Prop :=
  d'.bugHitsTotal = d.bugHitsTotal ∧ ∀ e ∈ effects, e.isBug = false

theorem swamReport_spec (fopen : Bool) (d : Mutator) (scenario : SwamScenario) (trapped : Bool) :
    d.Kept (swamReport fopen d scenario trapped).1 ∧
      SavesPending d scenario (swamReport fopen d scenario trapped).2 ∧
      (((scenario.expected = .trap ∧ trapped = false) ∨
          (scenario.expected = .noTrap ∧ trapped = true)) ∨
        Quiet d (swamReport fopen d scenario trapped).1
          (swamReport fopen d scenario trapped).2) := by
  unfold swamReport
  split
  next bypass =>
    obtain ⟨kept, saves⟩ := swamMaybeSaveBug_spec fopen d scenario .bypass
    exact ⟨kept, saves, .inl (.inl ⟨bypass.1, by simpa using bypass.2⟩)⟩
  split
  next falseTrap =>
    obtain ⟨kept, saves⟩ := swamMaybeSaveBug_spec fopen d scenario .falseTrap
    exact ⟨kept, saves, .inl (.inr falseTrap)⟩
  split
  · -- an unknown outcome saves no bug file
    have noBug {d' : Mutator} {tag : String} {e : Effect}
        (member : e ∈ (swamSaveUnknown fopen d' scenario tag).2) :
        e.isBug = false ∧ ∃ f, e = .saveUnknown f := by
      obtain ⟨f, rfl⟩ := (swamSaveUnknown_spec fopen d' scenario tag).2 e member
      exact ⟨rfl, f, rfl⟩
    dsimp only
    split
    · obtain ⟨n, equal⟩ := (swamSaveUnknown_spec fopen
        { d with unknownTotal := bump d.unknownTotal (scenario.id - 1) } scenario "unknown_trap").1
      rw [equal]
      refine ⟨⟨rfl, fun capped => ⟨capped.bugs, capped.unknowns⟩⟩, ?_, .inr ⟨rfl, ?_⟩⟩
      · intro e member
        exact .inl (noBug member).2
      · intro e member
        exact (noBug member).1
    split
    next room =>
      obtain ⟨n, equal⟩ := (swamSaveUnknown_spec fopen
        { d with unknownTotal := bump d.unknownTotal (scenario.id - 1) } scenario
        "unknown_notrap").1
      rw [equal]
      refine ⟨⟨rfl, fun capped => ⟨capped.bugs, fun i => ?_⟩⟩, ?_, .inr ⟨rfl, ?_⟩⟩
      · exact bump_le capped.unknowns room i
      · intro e member
        exact .inl (noBug member).2
      · intro e member
        exact (noBug member).1
    · exact ⟨⟨rfl, fun capped => ⟨capped.bugs, capped.unknowns⟩⟩, by simp [SavesPending],
        .inr ⟨rfl, by simp⟩⟩
  · exact ⟨⟨rfl, id⟩, by simp [SavesPending], .inr ⟨rfl, by simp⟩⟩

/-- A check of a catalog scenario records its classification once, and reports nothing
without a mismatch. -/
theorem swamOracleCheck_spec (fopen : Bool) {d : Mutator} {s : SwamScenario}
    (found : swamGetScenario d.lastScenarioId = some s) :
    d.Kept (swamOracleCheck fopen d).1 ∧
      ∃ saves, (swamOracleCheck fopen d).2 =
          .update s.id (swamClassify s (swamMarkersRead d.markers)) :: saves ∧
        SavesPending d s saves ∧
        (Mismatch s (swamMarkersRead d.markers) ∨ Quiet d (swamOracleCheck fopen d).1 saves) := by
  rw [(swamGetScenario_eq_some found).2.1]
  unfold swamOracleCheck swamClassify
  generalize swamMarkersRead d.markers = reading
  dsimp only
  split
  next invalid =>
    refine ⟨⟨rfl, fun capped => ⟨capped.bugs, capped.unknowns⟩⟩, [], ?_, by simp [SavesPending],
      .inr ⟨rfl, by simp⟩⟩
    simp [swamSchedulerRecord, invalid]
  next valid =>
    rw [found]
    dsimp only
    split
    next elsewhere =>
      refine ⟨⟨rfl, fun capped => ⟨capped.bugs, capped.unknowns⟩⟩, [], ?_, by simp [SavesPending],
        .inr ⟨rfl, by simp⟩⟩
      simp [swamSchedulerRecord, elsewhere]
    next here =>
      have report := swamReport_spec fopen (swamSchedulerRecord d d.lastScenarioId
        (if decide (reading.after ≠ s.id) = true then .reachedTrapped else .reachedCompleted)).1 s
        (decide (reading.after ≠ s.id))
      obtain ⟨⟨markers, capped⟩, saves, reported⟩ := report
      have validTrue : reading.valid = true := by simpa using valid
      have beforeId : reading.before = s.id := by simpa using here
      refine ⟨⟨markers, fun held => ?_⟩, _, ?_, saves, ?_⟩
      · obtain ⟨bugs, unknowns⟩ := capped ⟨held.bugs, held.unknowns⟩
        exact ⟨bugs, unknowns⟩
      · simp only [swamSchedulerRecord, validTrue, beforeId]
        by_cases after : reading.after = s.id <;> simp [after]
      · rcases reported with (⟨trap, completed⟩ | ⟨noTrap, trapped⟩) | ⟨hits, noBug⟩
        · exact .inl ⟨validTrue, .inl ⟨trap, beforeId, by simpa using completed⟩⟩
        · exact .inl ⟨validTrue, .inr ⟨noTrap, beforeId, by simpa using trapped⟩⟩
        · exact .inr ⟨hits, noBug⟩

end Swam
