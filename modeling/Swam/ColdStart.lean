import Swam.Selection

/-!
# The cold start

A fresh scheduler selects among the scenarios that were never recorded. Selections and updates in
turn go through all of them, each time with the same chance for each that is left.
-/
namespace Swam

open Lib

/-! ## Uniform choices -/

/-- A stream that hands out the given draws from a position on. -/
def Rand.supply (draws : List Nat) (pos : Nat) : Rand := ⟨fun p => draws[p - pos]?.getD 0, pos⟩

theorem randBelow_supply {limit draw : Nat} (several : 1 < limit) (below : draw < limit)
    (draws : List Nat) (pos : Nat) :
    (randBelow limit (Rand.supply (draw :: draws) pos)).1 = draw := by
  rw [randBelow, if_neg (by omega)]
  simp [Rand.supply, Nat.mod_eq_of_lt below]

/-- A choice reads the stream from its position on. -/
theorem reservoir_congr (candidates : List Nat) (best : Nat × Nat) {r r' : Rand}
    (position : r.pos = r'.pos) (same : ∀ p, r.pos ≤ p → r.source p = r'.source p) :
    (reservoir candidates best r).1 = (reservoir candidates best r').1 := by
  induction candidates generalizing best r r' with
  | nil => rfl
  | cons i rest ih =>
    rw [reservoir, reservoir]
    dsimp only
    split
    · exact ih _ position same
    next several =>
      have draws : (randBelow (best.2 + 1) r).1 = (randBelow (best.2 + 1) r').1 := by
        rw [randBelow, randBelow, if_neg (by omega), if_neg (by omega), ← position,
          same _ (Nat.le_refl _)]
      have after : ∀ r : Rand, (randBelow (best.2 + 1) r).2 = { r with pos := r.pos + 1 } := by
        intro r
        rw [randBelow, if_neg (by omega)]
      rw [draws, after r, after r']
      refine ih _ ?_ ?_
      · exact congrArg (· + 1) position
      · exact fun p above => same p (Nat.le_of_succ_le above)

/-- The next draw decides whether the next candidate is held. -/
theorem reservoir_draw (i : Nat) (rest : List Nat) {held count draw : Nat} (positive : 0 < count)
    (below : draw < count + 1) (draws : List Nat) (pos : Nat) :
    (reservoir (i :: rest) (held, count) (Rand.supply (draw :: draws) pos)).1 =
      (reservoir rest (if draw = 0 then i else held, count + 1)
        (Rand.supply draws (pos + 1))).1 := by
  rw [reservoir]
  dsimp only
  rw [if_neg (by omega), randBelow_supply (by omega) below]
  apply reservoir_congr
  · rw [randBelow, if_neg (by omega)]
    rfl
  · rw [randBelow, if_neg (by omega)]
    intro p above
    obtain ⟨k, rfl⟩ : ∃ k, p = pos + 1 + k := ⟨p - (pos + 1), by
      simp only [Rand.supply] at above
      omega⟩
    have first : pos + 1 + k - pos = k + 1 := by omega
    have second : pos + 1 + k - (pos + 1) = k := by omega
    simp only [Rand.supply, first, second, List.getElem?_cons_succ]

/-- With as many candidates seen as `count` says, the one that is held has this share of the chances
and each of those to come has one. -/
theorem reservoir_chance (rest : List Nat) (held count pos i : Nat) (positive : 0 < count) :
    chance (List.range' (count + 1) rest.length)
        (fun draws => decide ((reservoir rest (held, count) (Rand.supply draws pos)).1.1 = i)) =
      ((if held = i then (count : ℚ) else 0) + rest.count i) / (count + rest.length) := by
  induction rest generalizing held count pos with
  | nil =>
    have nonzero : (count : ℚ) ≠ 0 := Nat.cast_ne_zero.mpr (by omega)
    by_cases equal : held = i <;> simp [chance_nil, reservoir, equal, nonzero]
  | cons j rest ih =>
    have drawn : ∀ draw ∈ Finset.range (count + 1),
        chance (List.range' (count + 2) rest.length) (fun draws =>
          decide ((reservoir (j :: rest) (held, count)
            (Rand.supply (draw :: draws) pos)).1.1 = i)) =
          ((if (if draw = 0 then j else held) = i then ((count + 1 : Nat) : ℚ) else 0) +
            rest.count i) / ((count + 1 : Nat) + rest.length) := by
      intro draw below
      rw [← ih (if draw = 0 then j else held) (count + 1) (pos + 1) (by omega)]
      apply chance_congr
      intro draws _
      rw [reservoir_draw j rest positive (Finset.mem_range.mp below)]
    rw [List.length_cons, List.range'_succ, chance_cons, Finset.sum_congr rfl drawn,
      Finset.sum_range_succ']
    simp only [Nat.succ_ne_zero, if_true, if_false, Finset.sum_const, Finset.card_range, nsmul_eq_mul]
    have first : ((count : ℚ) + 1) ≠ 0 := by positivity
    have second : ((count : ℚ) + 1 + rest.length) ≠ 0 := by positivity
    rw [List.count_cons]
    by_cases equalHeld : held = i <;> by_cases equalJ : j = i <;>
      simp [equalHeld, equalJ] <;> field_simp <;> ring

/-- The choice among several candidates is uniform. -/
theorem reservoir_uniform {candidates : List Nat} (distinct : candidates.Nodup) (pos : Nat) {i : Nat}
    (member : i ∈ candidates) :
    chance (List.range' 2 (candidates.length - 1))
        (fun draws => decide ((reservoir candidates (0, 0) (Rand.supply draws pos)).1.1 = i)) =
      1 / candidates.length := by
  cases candidates with
  | nil => cases member
  | cons j rest =>
    have counted : (j :: rest).count i = 1 := List.count_eq_one_of_mem distinct member
    have shares := reservoir_chance rest j 1 pos i Nat.one_pos
    rw [List.length_cons, Nat.add_sub_cancel]
    refine shares.trans ?_
    rw [List.count_cons] at counted
    push_cast
    rw [add_comm (1 : ℚ) (rest.length : ℚ)]
    congr 1
    by_cases equal : j = i
    · simp only [equal, beq_self_eq_true, if_true] at counted ⊢
      have none : rest.count i = 0 := by omega
      simp [none]
    · simp only [beq_iff_eq, equal, if_false] at counted ⊢
      simp [show rest.count i = 1 by omega]

/-! ## Selections and updates in turn -/

/-- A number of selections, each recorded before the next one. -/
def alternate (ucb : Ucb) : (Nat → SwamSchedOutcome) → Nat → Option SwamScheduler → Rand →
    List Nat × Option SwamScheduler × Rand
  | _, 0, sched, r => ([], sched, r)
  | outcomes, n + 1, sched, r =>
    let (id, r) := swamSchedulerSelect ucb sched r
    let sched := swamSchedulerUpdate sched id (outcomes 0)
    let (ids, final) := alternate ucb (fun k => outcomes (k + 1)) n sched r
    (id :: ids, final)

theorem mem_cold {sched : SwamScheduler} {i : Nat} :
    i ∈ sched.cold ↔ i ∈ sched.active ∧ ∃ s, sched.stats[i]? = some s ∧ s.nSelected = 0 := by
  rw [SwamScheduler.cold, List.mem_filter]
  simp [Option.any_eq_true]

theorem nodup_cold (sched : SwamScheduler) : sched.cold.Nodup :=
  (nodup_active sched).filter _

/-- An update takes the scenario off the list of those that were never recorded. -/
theorem swamSchedulerUpdate_cold {sched : SwamScheduler} {i : Nat} (outcome : SwamSchedOutcome)
    (cold : i ∈ sched.cold) :
    ∃ sched', swamSchedulerUpdate (some sched) (i + 1) outcome = some sched' ∧
      sched'.active = sched.active ∧ sched'.cold = sched.cold.erase i := by
  obtain ⟨active, s, here, never⟩ := mem_cold.mp cold
  have bound := (mem_active.mp active).1
  have inside : ¬ (i + 1 < 1 ∨ i + 1 > sched.numScenarios) := by omega
  have same : ∀ j, swamScenarioPassesFilter { sched with
      stats := sched.stats.modify i (·.record outcome)
      totalSelected := (sched.totalSelected + 1) % 2 ^ 64 } j = swamScenarioPassesFilter sched j :=
    fun _ => rfl
  refine ⟨_, by rw [swamSchedulerUpdate, Option.map_some, if_neg inside], ?_, ?_⟩
  · simp only [SwamScheduler.active, SwamScheduler.numScenarios, Nat.add_sub_cancel, same,
      List.length_modify]
  · have recorded : (s.record outcome).nSelected = 1 := by
      cases outcome <;> simp [SwamScenarioStats.record, never]
    rw [(nodup_cold sched).erase_eq_filter]
    simp only [SwamScheduler.cold, SwamScheduler.active, SwamScheduler.numScenarios,
      Nat.add_sub_cancel, same, List.length_modify, List.filter_filter]
    apply List.filter_congr
    intro j _
    rw [List.getElem?_modify]
    by_cases equal : i = j
    · subst equal
      simp [here, recorded]
    · simp [equal, Ne.symm equal]

/-- What was selected and what was never recorded make up what was never recorded before. -/
theorem alternate_cold (ucb : Ucb) {n : Nat} {sched : SwamScheduler} (outcomes : Nat → SwamSchedOutcome)
    (r : Rand) (few : n ≤ sched.cold.length) :
    ∃ sched', (alternate ucb outcomes n (some sched) r).2.1 = some sched' ∧
      (alternate ucb outcomes n (some sched) r).1.length = n ∧
      ((alternate ucb outcomes n (some sched) r).1 ++ sched'.cold.map (· + 1)).Perm
        (sched.cold.map (· + 1)) := by
  induction n generalizing sched outcomes r with
  | zero => exact ⟨sched, rfl, rfl, .refl _⟩
  | succ n ih =>
    have some : sched.cold ≠ [] := List.ne_nil_of_length_pos (by omega)
    have among := reservoir_mem_of_first r some
    obtain ⟨sched₁, updated, _, left⟩ := swamSchedulerUpdate_cold (outcomes 0) among
    have shorter : n ≤ sched₁.cold.length := by
      rw [left, List.length_erase_of_mem among]
      omega
    obtain ⟨sched', final, length, perm⟩ := ih (fun k => outcomes (k + 1))
      (reservoir sched.cold (0, 0) r).2 shorter
    simp only [alternate, swamSchedulerSelect_cold ucb r some, updated]
    refine ⟨sched', final, ?_, ?_⟩
    · rw [List.length_cons, length]
    · rw [left] at perm
      have whole := (List.perm_cons_erase among).map (· + 1)
      exact (List.Perm.cons _ perm).trans whole.symm

/-- From a fresh scheduler, as many selections as there are scenarios that pass the filter are
distinct and are these scenarios, and each that is left has the same chance to be the next. -/
theorem coldStart_permutation (ucb : Ucb) (numScenarios mask : Nat)
    (profile : Option SwamRuntimeProfile) (outcomes : Nat → SwamSchedOutcome) (r : Rand) :
    let fresh : SwamScheduler := ⟨List.replicate numScenarios ⟨0, 0, 0, 0⟩, 0, mask, profile⟩
    let selections := fun n => (alternate ucb outcomes n (some fresh) r).1
    let active := swamSchedulerActiveCount fresh
    (selections active).length = active ∧ (selections active).Nodup ∧
      (∀ id, id ∈ selections active ↔ id ≤ numScenarios ∧ swamScenarioPassesFilter fresh id = true) ∧
      ∀ n < active, ∀ id ≤ numScenarios, swamScenarioPassesFilter fresh id = true →
        id ∉ selections n →
          chance (List.range' 2 (active - n - 1)) (fun draws =>
            let state := (alternate ucb outcomes n (some fresh) r).2
            decide ((swamSchedulerSelect ucb state.1 (Rand.supply draws state.2.pos)).1 = id)) =
          1 / ((active - n : Nat) : ℚ) := by
  intro fresh selections active
  have size : fresh.numScenarios = numScenarios := List.length_replicate
  have cold : fresh.cold = fresh.active := by
    apply List.filter_eq_self.mpr
    intro i member
    have bound := (mem_active.mp member).1
    rw [size] at bound
    have here : fresh.stats[i]? = some ⟨0, 0, 0, 0⟩ := by
      simp [fresh, bound]
    simp [here]
  have count : active = fresh.cold.length := by rw [cold]; rfl
  have distinct : (fresh.cold.map (· + 1)).Nodup := by
    rw [cold]
    exact (nodup_active fresh).map fun i j equal => Nat.succ.inj equal
  have listed : ∀ id, id ∈ fresh.cold.map (· + 1) ↔
      id ≤ numScenarios ∧ swamScenarioPassesFilter fresh id = true := by
    intro id
    rw [cold, List.mem_map]
    constructor
    · rintro ⟨i, member, rfl⟩
      have := mem_active.mp member
      rw [size] at this
      exact this
    · rintro ⟨bound, passes⟩
      cases id with
      | zero => cases passes
      | succ i => exact ⟨i, mem_active.mpr ⟨by rw [size]; exact bound, passes⟩, rfl⟩
  obtain ⟨last, _, length, perm⟩ := alternate_cold ucb outcomes r (Nat.le_of_eq count)
  have empty : last.cold = [] := by
    have sizes := perm.length_eq
    rw [List.length_append, List.length_map, List.length_map, length] at sizes
    exact List.length_eq_zero_iff.mp (by omega)
  rw [empty, List.map_nil, List.append_nil] at perm
  refine ⟨length, perm.nodup_iff.mpr distinct, fun id => (perm.mem_iff).trans (listed id), ?_⟩
  intro n below id bound passes left
  obtain ⟨sched, state, lengthN, permN⟩ := alternate_cold ucb outcomes r
    (show n ≤ fresh.cold.length by omega)
  have sizes := permN.length_eq
  rw [List.length_append, List.length_map, List.length_map, lengthN] at sizes
  -- what is left is what was never recorded
  have member : id ∈ sched.cold.map (· + 1) := by
    have whole := permN.mem_iff.mpr ((listed id).mpr ⟨bound, passes⟩)
    exact (List.mem_append.mp whole).resolve_left left
  obtain ⟨i, among, rfl⟩ := List.mem_map.mp member
  have remaining : active - n = sched.cold.length := by omega
  have uniform := reservoir_uniform (nodup_cold sched) (alternate ucb outcomes n (some fresh) r).2.2.pos among
  dsimp only
  rw [remaining, ← uniform, state]
  apply chance_congr
  intro draws _
  rw [swamSchedulerSelect_cold ucb _ (List.ne_nil_of_mem among)]
  simp

end Swam
