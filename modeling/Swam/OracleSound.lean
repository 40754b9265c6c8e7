import Swam.Lib.Trace
import Swam.Oracle
import Swam.ProbeTrap

/-!
# Soundness of the oracle

On a runtime that follows the specification, a probe may be entered any number of
times, at changing memory sizes, between other code that leaves the markers alone.
Whatever the history, the oracle reports no mismatch, and it misses the probe exactly
when the probe was never entered.
-/
namespace Swam

open Binaryen Lib

/-! ## Histories of an instance -/

/-- What happens to an instance of the instrumented module. -/
inductive Event where
  | other
  | probe
  deriving DecidableEq, Repr

/-- The markers are zero, and a `memory.init` probe has its segment. -/
structure MarkersReset (s : SwamScenario) (σ : State) : Prop where
  before : σ.globals swamMarkerBefore = [.i32 0]
  after : σ.globals swamMarkerAfter = [.i32 0]
  segment : s.opClass = .bulkInit → (σ.segments swamBulkSegmentName).length = 1

/-- Code outside the probe may change everything but what only the probe names. -/
structure OtherCode (σ σ' : State) : Prop where
  before : σ'.globals swamMarkerBefore = σ.globals swamMarkerBefore
  after : σ'.globals swamMarkerAfter = σ.globals swamMarkerAfter
  segment : σ'.segments swamBulkSegmentName = σ.segments swamBulkSegmentName

/-- One step of a history. What comes after a probe does not depend on how it ended:
after a trap the harness may call another export. -/
inductive HistoryStep (R : Runtime) (s : SwamScenario) : State → Event → State → Prop
  | other {σ σ'} (quiet : OtherCode σ σ') : HistoryStep R s σ .other σ'
  | probe {m idx mem is64 σ r σ'} (nonempty : 1 ≤ (σ.mems mem).pages)
      (small : (σ.mems mem).pages * 65536 < if is64 then 2 ^ 64 else 2 ^ 32)
      (run : Exec R (.one (swamBuildProbe m (some s) idx mem is64).2) σ r σ') :
      HistoryStep R s σ .probe σ'

section Probe

variable {R : Runtime} {s : SwamScenario} {m : Module} {σ σ' : State} {idx : Nat} {mem : String}
  {is64 : Bool} {r : Res}

/-- A `memory.grow` probe completes, whether or not the memory grows. -/
theorem growProbe_ends (grows : s.opClass = .memoryGrow)
    (run : Exec R (.one (swamBuildProbe m (some s) idx mem is64).2) σ r σ') :
    ((σ.setGlobal swamMarkerBefore [markerVal s.id]).setGlobal
      swamMarkerAfter [markerVal s.id]).Keeps σ' := by
  have address (τ : State) : Yields R (swamBuildBaseAddress (some s) mem is64) τ
      (pagesVal is64 0) := by
    have zero : swamBuildBaseAddress (some s) mem is64 = swamMakeIndexConst (0 : Nat) is64 := by
      simp [swamBuildBaseAddress, grows]
    rw [zero]
    exact yields_indexConst 0 is64
  have target (τ : State) : TrapsUnless R (swamBuildTargetOp (some s) idx mem is64) τ True := by
    have grow : swamBuildTargetOp (some s) idx mem is64 =
        .node .drop [.node (.memoryGrow mem is64) [swamMakeIndexConst (1 : Nat) is64]] := by
      simp [swamBuildTargetOp, grows]
    rw [grow]
    exact (ends_memoryGrow (yields_indexConst 1 is64)).drop
  rcases exec_probe_iff.mp run with ⟨vss, σ₁, access, _, rfl⟩ | ⟨a, access, _⟩
  · obtain ⟨t, acts, _⟩ := (exec_address_then (address _)).mp access
    have keeps := (target _).keeps acts
    exact State.Keeps.setGlobal keeps _ _
  · obtain ⟨t, acts, ⟨vs, _, equal⟩ | ⟨a', rfl, _⟩⟩ := (exec_address_then (address _)).mp access
    · cases equal
    · obtain ⟨vs, equal⟩ := (target _).completes trivial acts
      cases equal

/-- What one execution of a probe does to the markers. -/
theorem probe_markers (member : s ∈ swamScenarioCatalog) (nonempty : 1 ≤ (σ.mems mem).pages)
    (small : (σ.mems mem).pages * 65536 < if is64 then 2 ^ 64 else 2 ^ 32)
    (segment : s.opClass = .bulkInit → (σ.segments swamBulkSegmentName).length = 1)
    (run : Exec R (.one (swamBuildProbe m (some s) idx mem is64).2) σ r σ') :
    σ'.globals swamMarkerBefore = [markerVal s.id] ∧ σ'.segments = σ.segments ∧
      (s.expected = .trap → σ'.globals swamMarkerAfter = σ.globals swamMarkerAfter) ∧
      (s.expected = .noTrap → σ'.globals swamMarkerAfter = [markerVal s.id]) := by
  have regular := swamScenarioCatalog_regular s member
  have differ : swamMarkerBefore ≠ swamMarkerAfter := by decide
  by_cases grows : s.opClass = .memoryGrow
  · have unknown := regular.unknown.mpr grows
    obtain ⟨globals, segments⟩ := growProbe_ends grows run
    refine ⟨?_, segments, by simp [unknown], by simp [unknown]⟩
    rw [globals, State.setGlobal_of_ne _ _ differ, State.setGlobal_self]
  · have present : s.opClass = .bulkInit → 1 ≤ (σ.segments swamBulkSegmentName).length := by
      intro bulk
      rw [segment bulk]
    obtain ⟨_, ends⟩ :=
      @probe_ends s R σ idx mem is64 m regular grows nonempty small present
    rcases ends r σ' run with ⟨trap, _, globals, segments⟩ | ⟨noTrap, _, globals, segments⟩
    · refine ⟨?_, segments, fun _ => ?_, by simp [trap]⟩
      · rw [globals, State.setGlobal_self]
      · rw [globals, State.setGlobal_of_ne _ _ differ.symm]
    · refine ⟨?_, segments, by simp [noTrap], fun _ => ?_⟩
      · rw [globals, State.setGlobal_of_ne _ _ differ, State.setGlobal_self]
      · rw [globals, State.setGlobal_self]

end Probe

/-! ## The markers along a history -/

/-- What the markers say after a history. -/
structure Marked (s : SwamScenario) (events : List Event) (σ : State) : Prop where
  missed : .probe ∉ events → σ.globals swamMarkerBefore = [.i32 0]
  entered : .probe ∈ events → σ.globals swamMarkerBefore = [markerVal s.id]
  trapped : s.expected = .trap → σ.globals swamMarkerAfter = [.i32 0]
  completed : s.expected = .noTrap → .probe ∈ events →
    σ.globals swamMarkerAfter = [markerVal s.id]
  segment : s.opClass = .bulkInit → (σ.segments swamBulkSegmentName).length = 1

theorem historyStep_marked {R : Runtime} {s : SwamScenario} {events : List Event}
    {event : Event} {σ σ' : State} (member : s ∈ swamScenarioCatalog) (marked : Marked s events σ)
    (step : HistoryStep R s σ event σ') : Marked s (event :: events) σ' := by
  cases step with
  | other quiet =>
    have same : Event.probe ∈ Event.other :: events ↔ Event.probe ∈ events := by simp
    constructor
    · intro absent
      rw [quiet.before]
      exact marked.missed fun earlier => absent (same.mpr earlier)
    · intro present
      rw [quiet.before]
      exact marked.entered (same.mp present)
    · intro trap
      rw [quiet.after]
      exact marked.trapped trap
    · intro noTrap present
      rw [quiet.after]
      exact marked.completed noTrap (same.mp present)
    · intro bulk
      rw [quiet.segment]
      exact marked.segment bulk
  | probe nonempty small run =>
    obtain ⟨before, segments, trap, noTrap⟩ :=
      probe_markers member nonempty small marked.segment run
    constructor
    · intro absent
      exact absurd List.mem_cons_self absent
    · intro _
      exact before
    · intro expected
      rw [trap expected]
      exact marked.trapped expected
    · intro expected _
      exact noTrap expected
    · intro bulk
      rw [segments]
      exact marked.segment bulk

theorem history_marked {R : Runtime} {s : SwamScenario} {events : List Event} {σ : State}
    (member : s ∈ swamScenarioCatalog)
    (run : Trace (MarkersReset s) (HistoryStep R s) events σ) : Marked s events σ := by
  apply run.history
  · intro σ reset
    exact ⟨fun _ => reset.before, by simp, fun _ => reset.after, by simp, reset.segment⟩
  · intro events σ event σ' marked step
    exact historyStep_marked member marked step

/-! ## What the oracle makes of them -/

/-- The word a harness reads from an exported marker. -/
def markerWord : List Val → Nat
  | [.i32 bits] => bits.toNat
  | _ => 0

def markerReading (σ : State) : MarkerReading where
  before := markerWord (σ.globals swamMarkerBefore)
  after := markerWord (σ.globals swamMarkerAfter)
  valid := true

theorem markerWord_markerVal {s : SwamScenario} (member : s ∈ swamScenarioCatalog) :
    markerWord [markerVal s.id] = s.id ∧ s.id ≠ 0 := by
  obtain ⟨_, _, positive, bounded⟩ := swamGetScenario_eq_some (swamGetScenario_of_mem member)
  have count : swamScenarioCount = 600 := by decide +kernel
  have small : s.id < 2 ^ 32 := by omega
  have word : (BitVec.ofInt 32 s.id).toNat = s.id := by
    rw [BitVec.ofInt_natCast, BitVec.toNat_ofNat, Nat.mod_eq_of_lt small]
  exact ⟨word, by omega⟩

/-- The classification of the final markers of a history. -/
theorem swamClassify_history {R : Runtime} {s : SwamScenario} {events : List Event} {σ : State}
    (member : s ∈ swamScenarioCatalog)
    (run : Trace (MarkersReset s) (HistoryStep R s) events σ) :
    (swamClassify s (markerReading σ) = .notReached ↔ .probe ∉ events) ∧
      ¬ Mismatch s (markerReading σ) := by
  have marked := history_marked member run
  obtain ⟨word, positive⟩ := markerWord_markerVal member
  have zero : markerWord [.i32 0] = 0 := rfl
  by_cases entered : .probe ∈ events
  · have before : (markerReading σ).before = s.id := by
      rw [markerReading, marked.entered entered, word]
    refine ⟨iff_of_false ?_ (not_not_intro entered), ?_⟩
    · rw [swamClassify_notReached_iff, before]
      simp [markerReading]
    · rintro ⟨_, ⟨trap, _, after⟩ | ⟨noTrap, _, after⟩⟩
      · rw [markerReading, marked.trapped trap, zero] at after
        exact positive after.symm
      · rw [markerReading, marked.completed noTrap entered, word] at after
        exact after rfl
  · have before : (markerReading σ).before ≠ s.id := by
      rw [markerReading, marked.missed entered, zero]
      exact positive.symm
    refine ⟨iff_of_true ?_ entered, ?_⟩
    · exact (swamClassify_notReached_iff s _).mpr (.inr before)
    · rintro ⟨_, ⟨_, here, _⟩ | ⟨_, here, _⟩⟩ <;> exact before here

/-- Over every history the check of the final markers reports nothing, and it records that
the probe was not reached exactly when it was never entered. -/
theorem swamOracleCheck_sound (R : Runtime) {s : SwamScenario} (member : s ∈ swamScenarioCatalog)
    {events : List Event} {σ : State}
    (run : Trace (MarkersReset s) (HistoryStep R s) events σ) (fopen : Bool) (d : Mutator)
    (last : d.lastScenarioId = s.id) (delivered : swamMarkersRead d.markers = markerReading σ) :
    (swamOracleCheck fopen d).1.bugHitsTotal = d.bugHitsTotal ∧
      (∀ e ∈ (swamOracleCheck fopen d).2, e.isBug = false) ∧
      ∃ outcome saves, (swamOracleCheck fopen d).2 = .update s.id outcome :: saves ∧
        (∀ id other, .update id other ∉ saves) ∧ (outcome = .notReached ↔ .probe ∉ events) := by
  have found : swamGetScenario d.lastScenarioId = some s := by
    rw [last]
    exact swamGetScenario_of_mem member
  obtain ⟨classified, agrees⟩ := swamClassify_history member run
  obtain ⟨_, saves, effects, pending, reported⟩ := swamOracleCheck_spec fopen found
  rw [delivered] at effects reported
  obtain ⟨hits, noBug⟩ := reported.resolve_left agrees
  refine ⟨hits, ?_, _, saves, effects, ?_, classified⟩
  · rw [effects, List.forall_mem_cons]
    exact ⟨rfl, noBug⟩
  · intro id other update
    rcases pending _ update with ⟨f, equal⟩ | ⟨n, tag, bytes, _, equal⟩ <;> cases equal

/-- The row of `i32.load` one byte past the last word. -/
def oobLoad : SwamScenario := ⟨3, .i32Load, .load, .oob, .trap, 4, false, .i32, .noWrap, .na⟩

/-- The state in which the markers of one trapping execution of `oobLoad` are checked. -/
def oobLoadDelivered : Mutator :=
  { aflCustomInit true none ⟨some (3, 0, 1), none⟩ ⟨fun _ => 0, 0⟩ with lastScenarioId := 3 }

theorem swamOracleCheck_oob_load :
    ∃ σ, Trace (MarkersReset oobLoad) (HistoryStep .zeros oobLoad) [.probe] σ ∧
      swamMarkersRead oobLoadDelivered.markers = markerReading σ ∧
      (∀ e ∈ (swamOracleCheck true oobLoadDelivered).2, e.isBug = false) ∧
      ∃ outcome saves, (swamOracleCheck true oobLoadDelivered).2 = .update 3 outcome :: saves ∧
        outcome ≠ .notReached := by
  have member : oobLoad ∈ swamScenarioCatalog := by decide
  obtain ⟨⟨r, σ, probe⟩, _⟩ := @probe_ends oobLoad .zeros (.zeros 1) 0 "0" false
    ⟨[], [], [], [], [], [], []⟩ (by decide) (by decide) (by decide) (by decide) (by decide)
  have run : Trace (MarkersReset oobLoad) (HistoryStep .zeros oobLoad) [.probe] σ :=
    .next (.start ⟨rfl, rfl, by decide⟩) (.probe (by decide) (by decide) probe)
  have marked := history_marked member run
  have delivered : swamMarkersRead oobLoadDelivered.markers = markerReading σ := by
    rw [markerReading, marked.entered (by simp), marked.trapped rfl]
    rfl
  obtain ⟨_, noBug, outcome, saves, effects, _, reached⟩ :=
    swamOracleCheck_sound .zeros member run true oobLoadDelivered rfl delivered
  refine ⟨σ, run, delivered, noBug, outcome, saves, effects, ?_⟩
  simp [reached]

end Swam
