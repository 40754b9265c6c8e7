import Swam.Lib.Draws
import Swam.SchedulerStats

/-!
# What the scheduler selects

Each of the four stages of a selection goes through the scenarios with the same filter, so
that a selected scenario passes it. The stage that compares scores is reached only when every
scenario that passes was recorded before. A fresh scheduler hands out each of them once before
it compares anything, in an order that is uniform when the draws are.
-/
namespace Swam

open Lib

/-! ## Candidates -/

theorem mem_active {sched : SwamScheduler} {i : Nat} :
    i ∈ sched.active ↔ i < sched.numScenarios ∧ swamScenarioPassesFilter sched (i + 1) = true := by
  rw [SwamScheduler.active, List.mem_filter, List.mem_range]

theorem nodup_active (sched : SwamScheduler) : sched.active.Nodup :=
  List.nodup_range.filter _

/-- The choice is the one held so far or one of the candidates. -/
theorem reservoir_mem (candidates : List Nat) (best : Nat × Nat) (r : Rand) :
    (reservoir candidates best r).1.1 ∈ best.1 :: candidates := by
  induction candidates generalizing best r with
  | nil => exact List.mem_singleton_self _
  | cons i rest ih =>
    rw [reservoir]
    dsimp only
    split
    · have := ih (i, best.2 + 1) r
      simp only [List.mem_cons] at this ⊢
      tauto
    · by_cases drawn : (randBelow (best.2 + 1) r).1 = 0
      · rw [if_pos drawn]
        have := ih (i, best.2 + 1) (randBelow (best.2 + 1) r).2
        simp only [List.mem_cons] at this ⊢
        tauto
      · rw [if_neg drawn]
        have := ih (best.1, best.2 + 1) (randBelow (best.2 + 1) r).2
        simp only [List.mem_cons] at this ⊢
        tauto

/-- Of the first candidates one is held at any time. -/
theorem reservoir_mem_of_first {candidates : List Nat} (r : Rand) (some : candidates ≠ []) :
    (reservoir candidates (0, 0) r).1.1 ∈ candidates := by
  cases candidates with
  | nil => exact absurd rfl some
  | cons i rest => exact reservoir_mem rest (i, 1) r

/-- A best score that was counted belongs to a candidate. -/
theorem ucbScan_mem (ucb : Ucb) (sched : SwamScheduler) (candidates among : List Nat)
    (bestIdx bestCount : Nat) (bestScore : ucb.Score) (r : Rand)
    (held : 0 < bestCount → bestIdx ∈ among) (inside : candidates ⊆ among)
    (counted : 0 < (ucbScan ucb sched candidates bestIdx bestCount bestScore r).1.2) :
    (ucbScan ucb sched candidates bestIdx bestCount bestScore r).1.1 ∈ among := by
  induction candidates generalizing bestIdx bestCount bestScore r with
  | nil => exact held counted
  | cons i rest ih =>
    have here : i ∈ among := inside List.mem_cons_self
    have later : rest ⊆ among := fun j member => inside (List.mem_cons_of_mem _ member)
    rw [ucbScan] at counted ⊢
    dsimp only at counted ⊢
    split at counted
    next better =>
      rw [if_pos better]
      exact ih _ _ _ _ (fun _ => here) later counted
    next worse =>
      rw [if_neg worse]
      split at counted
      next tie =>
        rw [if_pos tie]
        refine ih _ _ _ _ (fun _ => ?_) later counted
        split
        · exact here
        next other =>
          -- the first candidate of a tie is taken without a draw
          apply held
          apply Nat.pos_of_ne_zero
          intro none
          apply other
          rw [none]
          rfl
      next apart =>
        rw [if_neg apart]
        exact ih _ _ _ _ held later counted

/-! ## Stages -/

/-- One time in ten, any scenario that passes the filter. -/
def exploreStage (sched : SwamScheduler) (r : Rand) : Option Nat × Rand :=
  let (explore, r) := if sched.active.length > 0 then
      let (draw, r) := randBelow 10 r
      (decide (draw = 0), r)
    else (false, r)
  let (pick, r) := if explore then randBelow sched.active.length r else (0, r)
  (if explore then sched.active[pick]? else none, r)

/-- The comparison of scores, and any scenario that passes the filter when all are suppressed. -/
def scoreStage (ucb : Ucb) (sched : SwamScheduler) (r : Rand) : Nat × Rand :=
  let ((bestIdx, bestCount), r) := ucbScan ucb sched sched.eligible 0 0 ucb.lowest r
  if bestCount = 0 then
    if sched.active.length = 0 then (0, r)
    else
      let (pick, r) := randBelow sched.active.length r
      ((sched.active[pick]?.map (· + 1)).getD 0, r)
  else (bestIdx + 1, r)

/-- Scores are compared when every scenario that passes was recorded and none is explored. -/
theorem swamSchedulerSelect_warm (ucb : Ucb) {sched : SwamScheduler} (r : Rand)
    (stocked : sched.numScenarios ≠ 0) (cold : sched.cold = []) :
    swamSchedulerSelect ucb (some sched) r =
      match exploreStage sched r with
      | (some i, r) => (i + 1, r)
      | (none, r) => scoreStage ucb sched r := by
  have empty : reservoir sched.cold (0, 0) r = ((0, 0), r) := by
    rw [cold]
    rfl
  simp only [swamSchedulerSelect, if_neg stocked, empty, gt_iff_lt, Nat.lt_irrefl, if_false,
    exploreStage]
  split
  next i picked => rw [picked]
  next picked =>
    rw [picked]
    rfl

theorem exploreStage_mem {sched : SwamScheduler} {r : Rand} {i : Nat}
    (explored : (exploreStage sched r).1 = some i) : i ∈ sched.active := by
  unfold exploreStage at explored
  dsimp only at explored
  exact List.mem_of_getElem? (Option.ite_none_right_eq_some.mp explored).2

theorem scoreStage_active (ucb : Ucb) (sched : SwamScheduler) (r : Rand) :
    ((scoreStage ucb sched r).1 = 0 ∧ sched.active = []) ∨
      ∃ i ∈ sched.active, (scoreStage ucb sched r).1 = i + 1 := by
  unfold scoreStage
  dsimp only
  split
  next none =>
    split
    next inactive => exact .inl ⟨rfl, List.length_eq_zero_iff.mp inactive⟩
    next active =>
      -- the fallback draws below the number of candidates
      have bound := randBelow_lt (Nat.pos_of_ne_zero active)
        (ucbScan ucb sched sched.eligible 0 0 ucb.lowest r).2
      rw [List.getElem?_eq_getElem bound]
      exact .inr ⟨_, List.getElem_mem bound, rfl⟩
  next found =>
    refine .inr ⟨_, ?_, rfl⟩
    apply ucbScan_mem _ _ _ _ _ _ _ _ (fun positive => absurd positive (Nat.lt_irrefl 0))
    · exact fun i member => (List.mem_filter.mp member).1
    · exact Nat.pos_of_ne_zero found

/-- A selection from a scheduler with scenarios is one of those that pass the filter. -/
theorem swamSchedulerSelect_active (ucb : Ucb) (sched : SwamScheduler) (r : Rand)
    (stocked : sched.numScenarios ≠ 0) :
    ((swamSchedulerSelect ucb (some sched) r).1 = 0 ∧ sched.active = []) ∨
      ∃ i ∈ sched.active, (swamSchedulerSelect ucb (some sched) r).1 = i + 1 := by
  by_cases cold : sched.cold = []
  · rw [swamSchedulerSelect_warm ucb r stocked cold]
    cases explored : exploreStage sched r with
    | mk picked r' =>
      cases picked with
      | some i => exact .inr ⟨i, exploreStage_mem (by rw [explored]), rfl⟩
      | none => exact scoreStage_active ucb sched r'
  · right
    rw [swamSchedulerSelect_cold _ _ cold]
    have among := reservoir_mem_of_first r cold
    exact ⟨_, (List.mem_filter.mp among).1, rfl⟩

/-- A scheduler that was created has its scenarios. -/
theorem stocked_of_run {calls : List SchedCall} {sched : Option SwamScheduler}
    (run : Trace SchedInit SchedStep calls sched) : ∀ s ∈ sched, s.numScenarios ≠ 0 := by
  apply run.invariant (I := fun sched => ∀ s ∈ sched, s.numScenarios ≠ 0)
  · intro sched ⟨num, calloc, created⟩ s found
    rw [Option.mem_def, created, swamSchedulerCreate] at found
    split at found
    · cases found
    next some =>
      cases found
      rw [SwamScheduler.numScenarios, List.length_replicate]
      tauto
  · intro sched call sched' ih step s' found
    cases step with
    | update id outcome =>
      obtain ⟨s, present, rfl⟩ := Option.map_eq_some_iff.mp found
      have stocked := ih s present
      split
      · exact stocked
      · rw [SwamScheduler.numScenarios, List.length_modify]
        exact stocked
    | setProposals mask =>
      obtain ⟨s, present, rfl⟩ := Option.map_eq_some_iff.mp found
      exact ih s present
    | setProfile profile =>
      obtain ⟨s, present, rfl⟩ := Option.map_eq_some_iff.mp found
      exact ih s present
    | select ucb r => exact ih s' found

/-- The denominators of the ratios are positive. -/
theorem ratio_positive {sched : SwamScheduler} {q : Nat × Nat} (formed : q ∈ sched.ratios) :
    0 < q.2 := by
  rw [SwamScheduler.ratios] at formed
  split at formed
  · cases formed
  next warm =>
    rcases List.mem_append.mp formed with failing | reaching
    · obtain ⟨i, member, rfl⟩ := List.mem_map.mp failing
      have ten := (List.mem_filter.mp member).2
      simp only [decide_eq_true_eq] at ten ⊢
      omega
    · obtain ⟨i, member, rfl⟩ := List.mem_map.mp reaching
      have active := (List.mem_filter.mp member).1
      have found := List.getElem?_eq_getElem (mem_active.mp active).1
      apply Nat.pos_of_ne_zero
      intro never
      simp only [found, Option.getD_some] at never
      -- such a scenario would have been picked as cold
      apply warm
      apply List.ne_nil_of_mem (a := i)
      rw [SwamScheduler.cold, List.mem_filter]
      exact ⟨active, by simp [found, never]⟩

/-- Every selection of a scheduler with a history passes the filter, unless no scenario does. While
a scenario that passes was never recorded, scores are not compared; and no ratio has the number
of selections of such a scenario as its denominator. -/
theorem swamSchedulerSelect_sound {calls : List SchedCall} {sched : SwamScheduler}
    (run : Trace SchedInit SchedStep calls (some sched)) (ucb : Ucb) (r : Rand) :
    ((swamSchedulerSelect ucb (some sched) r).1 = 0 ↔
        ∀ id ≤ sched.numScenarios, swamScenarioPassesFilter sched id = false) ∧
      ((swamSchedulerSelect ucb (some sched) r).1 ≠ 0 →
        (swamSchedulerSelect ucb (some sched) r).1 ≤ sched.numScenarios ∧
          swamScenarioPassesFilter sched (swamSchedulerSelect ucb (some sched) r).1 = true) ∧
      ((∃ i ∈ sched.active, ∃ s, sched.stats[i]? = some s ∧ s.nSelected = 0) →
        ∀ ucb' : Ucb, swamSchedulerSelect ucb' (some sched) r = swamSchedulerSelect ucb (some sched) r) ∧
      (∀ q ∈ sched.ratios, 0 < q.2) ∧
      ∀ score : Nat → Nat → Nat → ucb.Score,
        (∀ reached selected total, 0 < selected →
          score reached selected total = ucb.score reached selected total) →
        swamSchedulerSelect { ucb with score := score } (some sched) r =
          swamSchedulerSelect ucb (some sched) r := by
  have selected := swamSchedulerSelect_active ucb sched r (stocked_of_run run sched rfl)
  refine ⟨⟨?_, ?_⟩, ?_, ?_, fun _ formed => ratio_positive formed, ?_⟩
  · intro zero id bound
    rcases selected with ⟨_, none⟩ | ⟨i, _, equal⟩
    · by_contra passes
      cases id with
      | zero => exact passes (by rfl)
      | succ i =>
        have active : i ∈ sched.active := mem_active.mpr ⟨bound, by simpa using passes⟩
        rw [none] at active
        cases active
    · omega
  · intro none
    rcases selected with ⟨zero, _⟩ | ⟨i, active, _⟩
    · exact zero
    · have here := mem_active.mp active
      rw [none (i + 1) here.1] at here
      cases here.2
  · intro nonzero
    rcases selected with ⟨zero, _⟩ | ⟨i, active, equal⟩
    · exact absurd zero nonzero
    · rw [equal]
      exact mem_active.mp active
  · rintro ⟨i, active, s, here, never⟩ ucb'
    have cold : sched.cold ≠ [] := by
      apply List.ne_nil_of_mem (a := i)
      rw [SwamScheduler.cold, List.mem_filter]
      exact ⟨active, by simp [here, never]⟩
    rw [swamSchedulerSelect_cold _ _ cold, swamSchedulerSelect_cold _ _ cold]
  · intro score agree
    apply swamSchedulerSelect_ratios
    intro q formed total
    exact agree _ _ _ (ratio_positive formed)

/-- Of the first 96 scenarios only the last one is of the threads proposal, and with its mask that
one is selected. -/
theorem swamSchedulerSelect_sound_masked :
    let ucb : Ucb := ⟨Int, fun reached selected _ => 1 - reached / selected, -1, (· > ·), (· = ·)⟩
    let sched : SwamScheduler :=
      ⟨List.replicate 96 ⟨0, 0, 0, 0⟩, 0, proposalMask [.threads], none⟩
    (swamSchedulerSelect ucb (some sched) ⟨id, 0⟩).1 = 96 ∧
      swamScenarioPassesFilter sched 96 = true := by
  intro ucb sched
  have run : Trace SchedInit SchedStep [.setProposals (proposalMask [.threads])] (some sched) :=
    .next (.start ⟨96, true, rfl⟩) (.setProposals _ _)
  obtain ⟨none_iff, passing, _⟩ := swamSchedulerSelect_sound run ucb ⟨id, 0⟩
  have passes : swamScenarioPassesFilter sched 96 = true := by decide +kernel
  have only : ∀ i ≤ 96, swamScenarioPassesFilter sched i = true → i = 96 := by decide +kernel
  have some_selected : (swamSchedulerSelect ucb (some sched) ⟨id, 0⟩).1 ≠ 0 := by
    intro none
    have refused := none_iff.mp none 96 (Nat.le_refl _)
    rw [passes] at refused
    cases refused
  obtain ⟨bound, selected⟩ := passing some_selected
  exact ⟨only _ bound selected, passes⟩

end Swam
