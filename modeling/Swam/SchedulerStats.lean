import Mathlib.Data.Rat.Cast.Order
import Mathlib.Tactic.Positivity
import Swam.Lib.Trace
import Swam.Scheduler

/-!
# What the scheduler's counters mean

The counters are compared with a reference count over the history of calls. Calls that
record nothing (out-of-range ids, filter changes, selections) are part of the history.
-/
namespace Swam

open Lib

/-! ## Histories -/

/-- One call of the scheduler's interface. -/
inductive SchedCall where
  | update (id : Nat) (outcome : SwamSchedOutcome)
  | setProposals (mask : Nat)
  | setProfile (profile : Option SwamRuntimeProfile)
  | select (id : Nat)

/-- A call and what it does to the scheduler. A selection reports an id for some scoring and
some random stream, and writes nothing. -/
inductive SchedStep : Option SwamScheduler → SchedCall → Option SwamScheduler → Prop
  | update (sched id outcome) :
      SchedStep sched (.update id outcome) (swamSchedulerUpdate sched id outcome)
  | setProposals (sched mask) :
      SchedStep sched (.setProposals mask) (sched.map (swamSchedulerSetProposals · mask))
  | setProfile (sched profile) :
      SchedStep sched (.setProfile profile) (sched.map (swamSchedulerSetProfile · profile))
  | select (sched ucb r) :
      SchedStep sched (.select (swamSchedulerSelect ucb sched r).1) sched

def SchedInit (sched : Option SwamScheduler) : Prop :=
  ∃ numScenarios calloc, sched = swamSchedulerCreate numScenarios calloc

def SchedCall.isUpdate : SchedCall → Bool
  | .update _ _ => true
  | _ => false

/-- The call is an update of scenario `id` with an outcome of the given kind. -/
def SchedCall.records (kind : SwamSchedOutcome → Bool) (id : Nat) : SchedCall → Bool
  | .update i outcome => i = id ∧ kind outcome
  | _ => false

/-- The call is an update of one of the first `num` scenarios. -/
def SchedCall.counts (num : Nat) : SchedCall → Bool
  | .update i _ => 1 ≤ i ∧ i ≤ num
  | _ => false

def SwamSchedOutcome.reached : SwamSchedOutcome → Bool
  | .reachedTrapped | .reachedCompleted => true
  | _ => false

/-- The reference count of one scenario. -/
def tally (calls : List SchedCall) (id : Nat) : SwamScenarioStats where
  nSelected := calls.countP (SchedCall.records (fun _ => true) id)
  nReached := calls.countP (SchedCall.records SwamSchedOutcome.reached id)
  nCompleted := calls.countP (SchedCall.records (· = .reachedCompleted) id)
  nInstantiateFail := calls.countP (SchedCall.records (· = .instantiateFail) id)

/-- The counters of a scheduler, none without one. -/
def schedScenarios (sched : Option SwamScheduler) : List SwamScenarioStats :=
  (sched.map (·.stats)).getD []

/-! ## The reference count -/

private theorem countP_records_le (calls : List SchedCall) (id : Nat)
    {kind kind' : SwamSchedOutcome → Bool} (le : ∀ o, kind o = true → kind' o = true) :
    calls.countP (SchedCall.records kind id) ≤ calls.countP (SchedCall.records kind' id) := by
  apply List.countP_mono_left
  intro call _ records
  cases call <;> simp_all [SchedCall.records]

theorem tally_completed_le (calls : List SchedCall) (id : Nat) :
    (tally calls id).nCompleted ≤ (tally calls id).nReached := by
  apply countP_records_le
  intro o completed
  simp only [decide_eq_true_eq] at completed
  subst completed
  rfl

/-- An update either reaches its scenario, fails to instantiate it, or does neither. -/
theorem tally_reached_add_fail_le (calls : List SchedCall) (id : Nat) :
    (tally calls id).nReached + (tally calls id).nInstantiateFail ≤ (tally calls id).nSelected := by
  induction calls with
  | nil => exact Nat.le_refl _
  | cons call calls ih =>
    simp only [tally, List.countP_cons] at ih ⊢
    cases call with
    | update i outcome =>
      cases outcome <;> simp only [SchedCall.records, SwamSchedOutcome.reached] <;>
        by_cases same : i = id <;> simp [same] <;> omega
    | _ => simpa [SchedCall.records] using ih

theorem tally_selected_le (calls : List SchedCall) (id : Nat) :
    (tally calls id).nSelected ≤ calls.countP SchedCall.isUpdate := by
  apply List.countP_mono_left
  intro call _ records
  cases call <;> simp_all [SchedCall.records, SchedCall.isUpdate]

/-- Below the counters' width, recording an outcome is what the reference count does. -/
theorem tally_update (calls : List SchedCall) (id : Nat) (outcome : SwamSchedOutcome)
    (few : calls.countP SchedCall.isUpdate + 1 < 2 ^ 32) :
    tally (.update id outcome :: calls) id = (tally calls id).record outcome := by
  have selected := tally_selected_le calls id
  have split := tally_reached_add_fail_le calls id
  have completed := tally_completed_le calls id
  simp only [tally] at selected split completed
  cases outcome <;>
    simp only [tally, SwamScenarioStats.record, List.countP_cons, SchedCall.records,
      SwamSchedOutcome.reached, SwamScenarioStats.mk.injEq] <;>
    simp <;> omega

theorem tally_other (call : SchedCall) (calls : List SchedCall) (id : Nat)
    (other : ∀ i outcome, call = .update i outcome → i ≠ id) :
    tally (call :: calls) id = tally calls id := by
  have silent : ∀ kind, call.records kind id = false := by
    intro kind
    cases call with
    | update i outcome => simp [SchedCall.records, other i outcome rfl]
    | _ => rfl
  simp only [tally, List.countP_cons, silent]
  rfl

/-! ## The invariant -/

/-- The scheduler's state is the reference count of its history. -/
structure Tallied (calls : List SchedCall) (sched : SwamScheduler) : Prop where
  stats : ∀ i, i < sched.numScenarios → sched.stats[i]? = some (tally calls (i + 1))
  total : sched.totalSelected = calls.countP (SchedCall.counts sched.numScenarios)
  sum : sched.totalSelected = (sched.stats.map (·.nSelected)).sum

private theorem sum_map_modify {α : Type} (f : α → α) (g : α → Nat) :
    ∀ (xs : List α) (i : Nat) (x : α), xs[i]? = some x → g (f x) = g x + 1 →
      ((xs.modify i f).map g).sum = (xs.map g).sum + 1
  | [], _, _, found, _ => by simp at found
  | y :: xs, 0, x, found, grows => by
    simp only [List.getElem?_cons_zero, Option.some.injEq] at found
    subst found
    simp only [List.modify_zero_cons, List.map_cons, List.sum_cons, grows]
    omega
  | y :: xs, i + 1, x, found, grows => by
    have tail := sum_map_modify f g xs i x (by simpa using found) grows
    simp only [List.modify_succ_cons, List.map_cons, List.sum_cons, tail]
    omega

private theorem record_selected {s : SwamScenarioStats} (outcome : SwamSchedOutcome)
    (room : s.nSelected + 1 < 2 ^ 32) : (s.record outcome).nSelected = s.nSelected + 1 := by
  cases outcome <;> simp only [SwamScenarioStats.record] <;> omega

/-- One update keeps the state equal to the reference count. -/
theorem Tallied.update {calls : List SchedCall} {sched : SwamScheduler} (id : Nat)
    (outcome : SwamSchedOutcome) (tallied : Tallied calls sched)
    (few : calls.countP SchedCall.isUpdate + 1 < 2 ^ 32) {sched' : SwamScheduler}
    (updated : swamSchedulerUpdate (some sched) id outcome = some sched') :
    Tallied (.update id outcome :: calls) sched' := by
  simp only [swamSchedulerUpdate, Option.map_some, Option.some.injEq] at updated
  split at updated
  next out =>
    -- an id out of range changes neither side
    subst updated
    constructor
    · intro i bound
      rw [tallied.stats i bound, tally_other]
      intro j o same
      cases same
      omega
    · have silent : SchedCall.counts sched.numScenarios (.update id outcome) = false := by
        simp only [SchedCall.counts, decide_eq_false_iff_not]
        omega
      rw [List.countP_cons_of_neg (by simp [silent])]
      exact tallied.total
    · exact tallied.sum
  next inside =>
    have bound : id - 1 < sched.numScenarios := by omega
    have restored : id - 1 + 1 = id := by omega
    have found := tallied.stats (id - 1) bound
    rw [restored] at found
    have room : (tally calls id).nSelected + 1 < 2 ^ 32 := by
      have := tally_selected_le calls id
      omega
    have totalRoom : sched.totalSelected + 1 < 2 ^ 32 := by
      have : calls.countP (SchedCall.counts sched.numScenarios) ≤
          calls.countP SchedCall.isUpdate := by
        apply List.countP_mono_left
        intro call _ counts
        cases call <;> simp_all [SchedCall.counts, SchedCall.isUpdate]
      have := tallied.total
      omega
    subst updated
    have length : (sched.stats.modify (id - 1) (·.record outcome)).length = sched.numScenarios :=
      List.length_modify ..
    constructor
    · intro i below
      simp only [SwamScheduler.numScenarios, length] at below
      simp only [List.getElem?_modify]
      by_cases same : id - 1 = i
      · subst same
        simp [found, restored, tally_update calls id outcome few]
      · rw [tallied.stats i below, tally_other]
        · simp [same]
        · intro j o equal
          cases equal
          omega
    · have counted : SchedCall.counts sched.numScenarios (.update id outcome) = true := by
        simp only [SchedCall.counts, decide_eq_true_eq]
        omega
      have total := tallied.total
      simp only [SwamScheduler.numScenarios, length]
      simp only [SwamScheduler.numScenarios] at total counted
      rw [List.countP_cons_of_pos counted, ← total]
      exact Nat.mod_eq_of_lt (by omega)
    · have sum := tallied.sum
      simp only
      rw [sum_map_modify _ _ _ _ _ found (record_selected outcome room), ← sum]
      exact Nat.mod_eq_of_lt (by omega)

/-- A call that leaves the counters alone and records nothing keeps the reference count. -/
theorem Tallied.silent {calls : List SchedCall} {sched sched' : SwamScheduler} (call : SchedCall)
    (tallied : Tallied calls sched) (quiet : call.isUpdate = false)
    (stats : sched'.stats = sched.stats) (total : sched'.totalSelected = sched.totalSelected) :
    Tallied (call :: calls) sched' := by
  have uncounted : ∀ num, call.counts num = false := by
    intro num
    cases call with
    | update => cases quiet
    | _ => rfl
  have same : sched'.numScenarios = sched.numScenarios := congrArg List.length stats
  constructor
  · intro i bound
    rw [stats, tallied.stats i (same ▸ bound), tally_other]
    intro j o update
    rw [update] at quiet
    cases quiet
  · rw [List.countP_cons_of_neg (by simp [uncounted]), total, same]
    exact tallied.total
  · rw [stats, total]
    exact tallied.sum

/-- Every run with fewer than `2 ^ 32` updates ends in the reference count of its calls. -/
theorem tallied_of_run {calls : List SchedCall} {sched : Option SwamScheduler}
    (run : Trace SchedInit SchedStep calls sched)
    (few : calls.countP SchedCall.isUpdate < 2 ^ 32) : ∀ s ∈ sched, Tallied calls s := by
  revert few
  apply run.history (P := fun calls sched =>
    calls.countP SchedCall.isUpdate < 2 ^ 32 → ∀ s ∈ sched, Tallied calls s)
  · intro sched ⟨num, calloc, created⟩ _ s found
    rw [Option.mem_def, created, swamSchedulerCreate] at found
    split at found
    · cases found
    · cases found
      constructor
      · intro i bound
        simp only [SwamScheduler.numScenarios, List.length_replicate] at bound
        simp [bound, tally]
      · rfl
      · simp
  · intro calls sched call sched' ih step few s' found
    have fewer : calls.countP SchedCall.isUpdate < 2 ^ 32 := by
      rw [List.countP_cons] at few
      omega
    cases step with
    | update id outcome =>
      simp only [List.countP_cons, SchedCall.isUpdate] at few
      cases sched with
      | none => cases found
      | some s => exact (ih fewer s rfl).update id outcome (by simpa using few) found
    | setProposals mask =>
      obtain ⟨s, present, rfl⟩ := Option.map_eq_some_iff.mp found
      exact (ih fewer s present).silent _ rfl rfl rfl
    | setProfile profile =>
      obtain ⟨s, present, rfl⟩ := Option.map_eq_some_iff.mp found
      exact (ih fewer s present).silent _ rfl rfl rfl
    | select ucb r => exact (ih fewer s' found).silent _ rfl rfl rfl

/-! ## The ratios of a selection -/

/-- The quotients a selection may form, as numerator and denominator: none while an active
scenario is cold; then the failure rate of an active scenario recorded ten times, and the
reach rate of one that is not suppressed. -/
def SwamScheduler.ratios (sched : SwamScheduler) : List (Nat × Nat) :=
  if sched.cold ≠ [] then []
  else
    let counters : Nat → SwamScenarioStats := fun i => sched.stats[i]?.getD ⟨0, 0, 0, 0⟩
    ((sched.active.filter fun i => 10 ≤ (counters i).nSelected).map fun i =>
        ((counters i).nInstantiateFail, (counters i).nSelected)) ++
      sched.eligible.map fun i => ((counters i).nReached, (counters i).nSelected)

private theorem ucbScan_congr {ucb : Ucb} {sched : SwamScheduler}
    (score : Nat → Nat → Nat → ucb.Score) :
    ∀ (candidates : List Nat),
      (∀ i ∈ candidates, ∀ s, sched.stats[i]?.getD ⟨0, 0, 0, 0⟩ = s →
        score s.nReached s.nSelected sched.totalSelected =
          ucb.score s.nReached s.nSelected sched.totalSelected) →
      ∀ bestIdx bestCount bestScore r,
        ucbScan { ucb with score := score } sched candidates bestIdx bestCount bestScore r =
          ucbScan ucb sched candidates bestIdx bestCount bestScore r
  | [], _, _, _, _, _ => rfl
  | i :: rest, agree, bestIdx, bestCount, bestScore, r => by
    have here := agree i (List.mem_cons_self ..) _ rfl
    have tail := ucbScan_congr score rest fun j member => agree j (List.mem_cons_of_mem _ member)
    simp only [ucbScan, here, tail]

/-- Scores matter to a selection only where they are formed from one of the ratios. -/
theorem swamSchedulerSelect_ratios (ucb : Ucb) (sched : SwamScheduler) (r : Rand)
    (score : Nat → Nat → Nat → ucb.Score)
    (agree : ∀ q ∈ sched.ratios, ∀ total, score q.1 q.2 total = ucb.score q.1 q.2 total) :
    swamSchedulerSelect { ucb with score := score } (some sched) r =
      swamSchedulerSelect ucb (some sched) r := by
  by_cases cold : sched.cold = []
  · have scan := @ucbScan_congr ucb sched score sched.eligible (by
      intro i member s counters
      subst counters
      apply agree (_, _)
      rw [SwamScheduler.ratios, if_neg (not_not_intro cold)]
      exact List.mem_append_right _ (List.mem_map.mpr ⟨i, member, rfl⟩))
    simp only [swamSchedulerSelect, scan]
  · rw [swamSchedulerSelect_cold _ _ cold, swamSchedulerSelect_cold _ _ cold]

private theorem active_lt {sched : SwamScheduler} {i : Nat} (active : i ∈ sched.active) :
    i < sched.numScenarios := by
  rw [SwamScheduler.active, List.mem_filter, List.mem_range] at active
  exact active.1

/-- A ratio that is formed has a positive denominator that bounds its numerator. -/
theorem Tallied.ratio_bounds {calls : List SchedCall} {sched : SwamScheduler}
    (tallied : Tallied calls sched) {q : Nat × Nat} (formed : q ∈ sched.ratios) :
    0 < q.2 ∧ q.1 ≤ q.2 := by
  rw [SwamScheduler.ratios] at formed
  split at formed
  · cases formed
  next warm =>
    have counters : ∀ i ∈ sched.active,
        sched.stats[i]? = some (tally calls (i + 1)) ∧ 0 < (tally calls (i + 1)).nSelected := by
      intro i active
      have found := tallied.stats i (active_lt active)
      constructor
      · exact found
      · apply Nat.pos_of_ne_zero
        intro never
        -- such a scenario would have been picked as cold
        apply warm
        apply List.ne_nil_of_mem (a := i)
        rw [SwamScheduler.cold, List.mem_filter]
        exact ⟨active, by simp [found, never]⟩
    have split := tally_reached_add_fail_le calls
    rcases List.mem_append.mp formed with failing | reaching
    · obtain ⟨i, member, rfl⟩ := List.mem_map.mp failing
      obtain ⟨found, positive⟩ := counters i (List.mem_filter.mp member).1
      have := split (i + 1)
      simp only [found, Option.getD_some]
      omega
    · obtain ⟨i, member, rfl⟩ := List.mem_map.mp reaching
      obtain ⟨found, positive⟩ := counters i (List.mem_filter.mp member).1
      have := split (i + 1)
      simp only [found, Option.getD_some]
      omega

/-! ## The statistics -/

private theorem scenarioCounter_eq {calls : List SchedCall} {sched : Option SwamScheduler}
    (tallied : ∀ s ∈ sched, Tallied calls s) (counter : SwamScenarioStats → Nat) (id : Nat) :
    scenarioCounter counter sched id =
      if 1 ≤ id ∧ id ≤ (schedScenarios sched).length then counter (tally calls id) else 0 := by
  cases sched with
  | none =>
    rw [if_neg]
    · rfl
    · simp only [schedScenarios, Option.map_none, Option.getD_none, List.length_nil]
      omega
  | some s =>
    have length : (schedScenarios (some s)).length = s.numScenarios := rfl
    rw [scenarioCounter, length]
    by_cases inside : 1 ≤ id ∧ id ≤ s.numScenarios
    · have found := (tallied s rfl).stats (id - 1) (by omega)
      rw [Nat.sub_add_cancel inside.1] at found
      rw [if_pos inside, if_neg (by omega), found, Option.map_some, Option.getD_some]
    · rw [if_neg inside, if_pos (by omega)]

/-- After any history of fewer than `2 ^ 32` updates the total is the sum of the selections,
the counters of every scenario are ordered, every ratio a selection forms lies between zero
and one, and the getters read the reference counts of the history. -/
theorem swamScheduler_statistics {calls : List SchedCall} {sched : Option SwamScheduler}
    (run : Trace SchedInit SchedStep calls sched)
    (few : calls.countP SchedCall.isUpdate < 2 ^ 32) :
    swamSchedulerTotalSelected sched = ((schedScenarios sched).map (·.nSelected)).sum ∧
      (∀ s ∈ schedScenarios sched,
        s.nCompleted ≤ s.nReached ∧ s.nReached + s.nInstantiateFail ≤ s.nSelected) ∧
      (∀ s ∈ sched, ∀ q ∈ s.ratios,
        0 < q.2 ∧ 0 ≤ (q.1 : ℚ) / q.2 ∧ (q.1 : ℚ) / q.2 ≤ 1) ∧
      swamSchedulerTotalSelected sched =
        calls.countP (SchedCall.counts (schedScenarios sched).length) ∧
      ∀ id,
        let count (counter : SwamScenarioStats → Nat) :=
          if 1 ≤ id ∧ id ≤ (schedScenarios sched).length then counter (tally calls id) else 0
        swamSchedulerScenarioSelected sched id = count (·.nSelected) ∧
          swamSchedulerScenarioReached sched id = count (·.nReached) ∧
          swamSchedulerScenarioCompleted sched id = count (·.nCompleted) := by
  have tallied := tallied_of_run run few
  have getters := scenarioCounter_eq tallied
  refine ⟨?_, ?_, ?_, ?_, fun id => ⟨getters _ id, getters _ id, getters _ id⟩⟩
  · cases sched with
    | none => rfl
    | some s => exact (tallied s rfl).sum
  · intro s member
    cases sched with
    | none => cases member
    | some sched =>
      obtain ⟨i, bound, rfl⟩ := List.mem_iff_getElem.mp member
      have found := (tallied sched rfl).stats i bound
      have read := List.getElem?_eq_getElem bound
      rw [Option.some.inj (read.symm.trans found)]
      exact ⟨tally_completed_le calls (i + 1), tally_reached_add_fail_le calls (i + 1)⟩
  · intro s present q formed
    obtain ⟨positive, le⟩ := (tallied s present).ratio_bounds formed
    have denominator : (0 : ℚ) < q.2 := Nat.cast_pos.mpr positive
    refine ⟨positive, by positivity, ?_⟩
    rw [div_le_one denominator]
    exact Nat.cast_le.mpr le
  · cases sched with
    | none =>
      symm
      apply List.countP_eq_zero.mpr
      intro call _
      cases call <;> simp [SchedCall.counts, schedScenarios]
      omega
    | some s => exact (tallied s rfl).total

/-- A scheduler of two scenarios, an update out of range among three. -/
theorem swamScheduler_statistics_two :
    swamSchedulerTotalSelected (some ⟨[⟨2, 1, 0, 1⟩, ⟨0, 0, 0, 0⟩], 2, swamProposalsAll, none⟩) = 2 ∧
      swamSchedulerScenarioReached
        (some ⟨[⟨2, 1, 0, 1⟩, ⟨0, 0, 0, 0⟩], 2, swamProposalsAll, none⟩) 1 = 1 := by
  have run : Trace SchedInit SchedStep
      [.update 1 .instantiateFail, .update 7 .reachedCompleted, .update 1 .reachedTrapped]
      (some ⟨[⟨2, 1, 0, 1⟩, ⟨0, 0, 0, 0⟩], 2, swamProposalsAll, none⟩) :=
    .next (.next (.next (.start ⟨2, true, rfl⟩) (.update _ 1 .reachedTrapped))
      (.update _ 7 .reachedCompleted)) (.update _ 1 .instantiateFail)
  obtain ⟨_, _, _, total, getters⟩ := swamScheduler_statistics run (by decide)
  exact ⟨total, (getters 1).2.1⟩

end Swam
