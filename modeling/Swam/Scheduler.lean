import Swam.Rand
import Swam.Scenarios

/-!
# The scenario scheduler

Selection prefers scenarios that were never recorded, explores at random one time in
ten, and otherwise maximises an upper-confidence score. The floating-point part of
the score is a parameter.
-/
namespace Swam

/-! ## Runtime profiles -/

/-- Proposals as bits of a mask. -/
inductive SwamProposal where
  | mvp | threads | simd | bulk | memory64 | multiMem
  deriving DecidableEq, Repr

def SwamProposal.bit : SwamProposal → Nat
  | .mvp => 1
  | .threads => 2
  | .simd => 4
  | .bulk => 8
  | .memory64 => 16
  | .multiMem => 32

structure SwamRuntimeProfile where
  name : String
  proposals : Nat
  excludedOpclasses : List SwamOpClass
  deriving DecidableEq, Repr

def swamProposalsAll : Nat := 0xFFFFFFFF

def proposalMask (ps : List SwamProposal) : Nat := ps.foldl (fun mask p => mask ||| p.bit) 0

def swamProfiles : List SwamRuntimeProfile := [
  ⟨"wasm3", proposalMask [.mvp, .bulk], [.bulkInit]⟩,
  ⟨"wamr", proposalMask [.mvp, .threads, .simd, .bulk, .memory64], []⟩,
  ⟨"wasmtime", proposalMask [.mvp, .threads, .simd, .bulk, .memory64, .multiMem], []⟩,
  ⟨"wasmer", proposalMask [.mvp, .threads, .simd, .bulk], []⟩,
  ⟨"wasm-interp", proposalMask [.mvp, .threads, .simd, .bulk, .memory64, .multiMem], []⟩,
  ⟨"v8", proposalMask [.mvp, .threads, .simd, .bulk, .memory64, .multiMem], []⟩,
  ⟨"jsc", proposalMask [.mvp, .threads, .simd, .bulk], []⟩,
  ⟨"spidermonkey", proposalMask [.mvp, .threads, .simd, .bulk], []⟩]

def swamProfileLookup (name : String) : Option SwamRuntimeProfile :=
  if name = "all" then none else swamProfiles.find? (·.name = name)

def swamOpclassRequiredProposal : SwamOpClass → Nat
  | .load | .store | .memoryGrow => SwamProposal.mvp.bit
  | .atomicLoad | .atomicStore | .atomicRmw | .atomicCmpxchg | .atomicWait | .atomicNotify =>
    SwamProposal.threads.bit
  | .simdLoad | .simdLoadLane | .simdStore | .simdStoreLane => SwamProposal.simd.bit
  | .bulkCopy | .bulkFill | .bulkInit => SwamProposal.bulk.bit

def swamProfileSupportsOpclass (profile : Option SwamRuntimeProfile) (cls : SwamOpClass) : Bool :=
  match profile with
  | none => true
  | some p => p.proposals &&& swamOpclassRequiredProposal cls ≠ 0 ∧ cls ∉ p.excludedOpclasses

/-! ## State -/

/-- Per-scenario statistics, 32-bit counters. -/
structure SwamScenarioStats where
  nSelected : Nat
  nReached : Nat
  nCompleted : Nat
  nInstantiateFail : Nat
  deriving DecidableEq, Repr

structure SwamScheduler where
  stats : List SwamScenarioStats
  totalSelected : Nat
  proposalsMask : Nat
  profile : Option SwamRuntimeProfile
  deriving DecidableEq, Repr

def SwamScheduler.numScenarios (sched : SwamScheduler) : Nat := sched.stats.length

/-- Outcome of a single exploit iteration. -/
inductive SwamSchedOutcome where
  | instantiateFail | notReached | reachedTrapped | reachedCompleted
  deriving DecidableEq, Repr

def swamSchedulerCreate (numScenarios : Nat) (calloc : Bool) : Option SwamScheduler :=
  if numScenarios = 0 ∨ ¬ calloc then none
  else some ⟨List.replicate numScenarios ⟨0, 0, 0, 0⟩, 0, swamProposalsAll, none⟩

def swamSchedulerSetProposals (sched : SwamScheduler) (mask : Nat) : SwamScheduler :=
  { sched with proposalsMask := mask, profile := none }

def swamSchedulerSetProfile (sched : SwamScheduler) (profile : Option SwamRuntimeProfile) :
    SwamScheduler :=
  { sched with profile, proposalsMask := (profile.map (·.proposals)).getD swamProposalsAll }

/-- The scenario passes the proposal filter. -/
def swamScenarioPassesFilter (sched : SwamScheduler) (id : Nat) : Bool :=
  match swamGetScenario id with
  | none => false
  | some sc => sched.proposalsMask &&& swamOpclassRequiredProposal sc.opClass ≠ 0 ∧
      swamProfileSupportsOpclass sched.profile sc.opClass

/-- Indices of the scenarios that pass the filter. -/
def SwamScheduler.active (sched : SwamScheduler) : List Nat :=
  (List.range sched.numScenarios).filter fun i => swamScenarioPassesFilter sched (i + 1)

def swamSchedulerActiveCount (sched : SwamScheduler) : Nat := sched.active.length

/-! ## Selection -/

/-- The score `1 - reached / selected + sqrt (2 log N / selected)` and its comparison
in doubles. -/
structure Ucb where
  Score : Type
  score : (nReached nSelected totalSelected : Nat) → Score
  lowest : Score
  /-- `score > best + DBL_EPSILON`. -/
  better : Score → Score → Bool
  /-- `fabs (score - best) <= DBL_EPSILON`. -/
  tie : Score → Score → Bool

/-- Reservoir choice: the `count`-th candidate replaces the earlier ones with
probability one in `count`. -/
def reservoir (candidates : List Nat) (best : Nat × Nat) (r : Rand) : (Nat × Nat) × Rand :=
  match candidates with
  | [] => (best, r)
  | i :: rest =>
    let count := best.2 + 1
    if count = 1 then reservoir rest (i, count) r
    else
      let (draw, r) := randBelow count r
      reservoir rest (if draw = 0 then i else best.1, count) r

/-- Never-recorded active scenarios. -/
def SwamScheduler.cold (sched : SwamScheduler) : List Nat :=
  sched.active.filter fun i => sched.stats[i]?.any (·.nSelected = 0)

/-- Active scenarios that are not suppressed: too many failures, or never reached. -/
def SwamScheduler.eligible (sched : SwamScheduler) : List Nat :=
  sched.active.filter fun i => sched.stats[i]?.any fun s =>
    ¬ (s.nSelected ≥ 10 ∧ 10 * s.nInstantiateFail > 9 * s.nSelected) ∧
      ¬ (s.nSelected ≥ 100 ∧ s.nReached = 0)

/-- The scan for the best score, with random tie-breaking. -/
def ucbScan (ucb : Ucb) (sched : SwamScheduler) (candidates : List Nat) (bestIdx bestCount : Nat)
    (bestScore : ucb.Score) (r : Rand) : (Nat × Nat) × Rand :=
  match candidates with
  | [] => ((bestIdx, bestCount), r)
  | i :: rest =>
    let s := sched.stats[i]?.getD ⟨0, 0, 0, 0⟩
    let score := ucb.score s.nReached s.nSelected sched.totalSelected
    if ucb.better score bestScore then ucbScan ucb sched rest i 1 score r
    else if ucb.tie score bestScore then
      let (draw, r) := randBelow (bestCount + 1) r
      ucbScan ucb sched rest (if draw = 0 then i else bestIdx) (bestCount + 1) bestScore r
    else ucbScan ucb sched rest bestIdx bestCount bestScore r

/-- The id to try next; `0` when no scenario passes the filter. -/
def swamSchedulerSelect (ucb : Ucb) (sched : Option SwamScheduler) (r : Rand) : Nat × Rand :=
  match sched with
  | none => (1, r)
  | some sched =>
    if sched.numScenarios = 0 then (1, r)
    else
      let ((bestIdx, bestCount), r) := reservoir sched.cold (0, 0) r
      if bestCount > 0 then (bestIdx + 1, r)
      else
        let active := sched.active
        let (explore, r) := if active.length > 0 then
            let (draw, r) := randBelow 10 r
            (draw = 0, r)
          else (false, r)
        let (pick, r) := if explore then randBelow active.length r else (0, r)
        match if explore then active[pick]? else none with
        | some i => (i + 1, r)
        | none =>
          let ((bestIdx, bestCount), r) := ucbScan ucb sched sched.eligible 0 0 ucb.lowest r
          if bestCount = 0 then
            if active.length = 0 then (0, r)
            else
              let (pick, r) := randBelow active.length r
              ((active[pick]?.map (· + 1)).getD 0, r)
          else (bestIdx + 1, r)

theorem reservoir_count (candidates : List Nat) (best : Nat × Nat) (r : Rand) :
    (reservoir candidates best r).1.2 = best.2 + candidates.length := by
  induction candidates generalizing best r with
  | nil => rfl
  | cons i rest ih =>
    rw [reservoir]
    dsimp only
    split <;> simp only [ih, List.length_cons] <;> omega

/-- Draws other than zero leave the first candidate in place. -/
theorem reservoir_first (candidates : List Nat) (i count : Nat) (r : Rand) (held : 0 < count)
    (draws : ∀ p limit, r.pos ≤ p → 2 ≤ limit → r.source p % limit ≠ 0) :
    (reservoir candidates (i, count) r).1.1 = i := by
  induction candidates generalizing count r with
  | nil => rfl
  | cons j rest ih =>
    have draw : randBelow (count + 1) r =
        (r.source r.pos % (count + 1), { r with pos := r.pos + 1 }) := by
      rw [randBelow, if_neg (by omega)]
    have nonzero := draws r.pos (count + 1) (Nat.le_refl _) (by omega)
    rw [reservoir]
    dsimp only
    rw [if_neg (by omega), draw]
    dsimp only
    rw [if_neg nonzero]
    exact ih (count + 1) _ (by omega) fun p limit after => draws p limit (Nat.le_of_succ_le after)

/-- While some active scenario was never recorded, the choice is among those. -/
theorem swamSchedulerSelect_cold (ucb : Ucb) {sched : SwamScheduler} (r : Rand)
    (cold : sched.cold ≠ []) :
    swamSchedulerSelect ucb (some sched) r =
      ((reservoir sched.cold (0, 0) r).1.1 + 1, (reservoir sched.cold (0, 0) r).2) := by
  have stocked : sched.numScenarios ≠ 0 := by
    intro empty
    apply cold
    simp [SwamScheduler.cold, SwamScheduler.active, empty]
  have counted : (reservoir sched.cold (0, 0) r).1.2 > 0 := by
    rw [reservoir_count, Nat.zero_add]
    exact List.length_pos_iff.mpr cold
  simp only [swamSchedulerSelect, if_neg stocked, if_pos counted]

/-! ## Recording -/

def SwamScenarioStats.record (s : SwamScenarioStats) (outcome : SwamSchedOutcome) :
    SwamScenarioStats :=
  let s := { s with nSelected := (s.nSelected + 1) % 2 ^ 32 }
  match outcome with
  | .instantiateFail => { s with nInstantiateFail := (s.nInstantiateFail + 1) % 2 ^ 32 }
  | .notReached => s
  | .reachedTrapped => { s with nReached := (s.nReached + 1) % 2 ^ 32 }
  | .reachedCompleted =>
    { s with nReached := (s.nReached + 1) % 2 ^ 32, nCompleted := (s.nCompleted + 1) % 2 ^ 32 }

def swamSchedulerUpdate (sched : Option SwamScheduler) (id : Nat) (outcome : SwamSchedOutcome) :
    Option SwamScheduler :=
  sched.map fun sched =>
    if id < 1 ∨ id > sched.numScenarios then sched
    else { sched with
      stats := sched.stats.modify (id - 1) (·.record outcome)
      totalSelected := (sched.totalSelected + 1) % 2 ^ 64 }

def swamSchedulerScenarioReached (sched : Option SwamScheduler) (id : Nat) : Nat :=
  match sched with
  | none => 0
  | some sched =>
    if id < 1 ∨ id > sched.numScenarios then 0
    else (sched.stats[id - 1]?.map (·.nReached)).getD 0

/-- A counter of one scenario; `0` without a scheduler or for an id out of range. -/
def scenarioCounter (counter : SwamScenarioStats → Nat) (sched : Option SwamScheduler) (id : Nat) :
    Nat :=
  match sched with
  | none => 0
  | some sched =>
    if id < 1 ∨ id > sched.numScenarios then 0
    else (sched.stats[id - 1]?.map counter).getD 0

def swamSchedulerScenarioSelected : Option SwamScheduler → Nat → Nat :=
  scenarioCounter (·.nSelected)

def swamSchedulerScenarioCompleted : Option SwamScheduler → Nat → Nat :=
  scenarioCounter (·.nCompleted)

def swamSchedulerTotalSelected (sched : Option SwamScheduler) : Nat :=
  match sched with
  | none => 0
  | some sched => sched.totalSelected

end Swam
