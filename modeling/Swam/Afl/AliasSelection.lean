import Swam.Afl.AliasSound

/-!
# Mass and selection of the alias table

Under `MMOPT` the newest entries count twice after the weights have been summed, so that the
masses exceed the number of entries just when one of these is active. The table is then off, but
no disabled entry gets into it in this way: one is selected only through the alias 0 of an
entry that was left over.
-/
namespace Swam.Afl

open Swam.Lib

/-! ## The mass -/

namespace WeightEnv

variable {K : Type} [Field K] [LinearOrder K] {env : WeightEnv K}

/-- The summand of an entry. -/
def summand (env : WeightEnv K) (i : Nat) : K :=
  if (env.queueBuf i).disabled then 0
  else if env.schedule.beforeRare then env.averagedWeight i else env.calculateScore i

theorem sum_eq_summands : env.sum = ∑ i ∈ Finset.range env.count, env.summand i := rfl

/-- An active entry, which has a score where the scores are the weights. -/
structure Scored (env : WeightEnv K) : Prop where
  active : ∃ i < env.count, (env.queueBuf i).disabled = false
  score : env.schedule.beforeRare = false →
    ∃ i < env.count, (env.queueBuf i).disabled = false ∧ 0 < env.calculateScore i

variable [IsStrictOrderedRing K]

theorem averagedWeight_pos (i : Nat) : 0 < env.averagedWeight i := env.computeWeight_pos _ _ _ _

theorem summand_nonneg (i : Nat) : 0 ≤ env.summand i := by
  have averaged : 0 < env.averagedWeight i := averagedWeight_pos i
  unfold summand
  split
  · exact le_rfl
  · split <;> positivity

theorem summand_le (i : Nat) : env.summand i ≤ env.effectiveWeight i := by
  have averaged : 0 < env.averagedWeight i := averagedWeight_pos i
  unfold summand effectiveWeight weight
  split
  · exact le_rfl
  · split
    · split
      · linarith
      · exact le_rfl
    · exact le_rfl

theorem Scored.sum_pos (scored : env.Scored) : 0 < env.sum := by
  rw [sum_eq_summands]
  cases early : env.schedule.beforeRare with
  | true =>
    obtain ⟨i, below, enabled⟩ := scored.active
    refine Finset.sum_pos' (fun j _ => summand_nonneg j) ⟨i, Finset.mem_range.mpr below, ?_⟩
    rw [summand, enabled, early]
    exact averagedWeight_pos i
  | false =>
    obtain ⟨i, below, enabled, positive⟩ := scored.score early
    refine Finset.sum_pos' (fun j _ => summand_nonneg j) ⟨i, Finset.mem_range.mpr below, ?_⟩
    rw [summand, enabled, early]
    exact Nat.cast_pos.mpr positive

omit [LinearOrder K] [IsStrictOrderedRing K] in
private theorem scale_eq {mass sum n : K} (sum_ne : sum ≠ 0) (n_ne : n ≠ 0) :
    mass * n / sum = n ↔ mass = sum := by
  rw [div_eq_iff sum_ne, mul_comm n sum]
  exact ⟨fun equal => mul_right_cancel₀ n_ne equal, fun equal => by rw [equal]⟩

omit [IsStrictOrderedRing K] in
theorem sum_share_eq : ∑ i ∈ Finset.range env.count, env.share i =
    (∑ i ∈ Finset.range env.count, env.effectiveWeight i) * env.count / env.sum := by
  simp only [share_eq]
  rw [← Finset.sum_div, ← Finset.sum_mul]

/-- There is mass for every entry. -/
theorem count_le_sum_share (sum_pos : 0 < env.sum) :
    (env.count : K) ≤ ∑ i ∈ Finset.range env.count, env.share i := by
  have enough : env.sum ≤ ∑ i ∈ Finset.range env.count, env.effectiveWeight i := by
    rw [sum_eq_summands]
    exact Finset.sum_le_sum fun i _ => summand_le i
  rw [sum_share_eq, le_div_iff₀ sum_pos, mul_comm]
  exact mul_le_mul_of_nonneg_right enough (Nat.cast_nonneg _)

/-- Under `MMOPT` an entry weighs what was summed just when it does not count twice. -/
theorem summand_eq_iff (schedule : env.schedule = .mmopt) (i : Nat) :
    env.summand i = env.effectiveWeight i ↔
      ((env.queueBuf i).disabled = false → env.doubled i = false) := by
  have averaged : 0 < env.averagedWeight i := averagedWeight_pos i
  have early : env.schedule.beforeRare = true := by rw [schedule]; rfl
  unfold summand effectiveWeight weight
  rw [early]
  cases disabled : (env.queueBuf i).disabled with
  | true => simp
  | false =>
    cases twice : env.doubled i with
    | false => simp
    | true =>
      simp only [Bool.false_eq_true, if_false, if_true, forall_const, iff_false, reduceCtorEq]
      intro equal
      linarith

/-- The masses are right just when no active entry counts twice. -/
theorem sum_share_iff (schedule : env.schedule = .mmopt) (scored : env.Scored) :
    ∑ i ∈ Finset.range env.count, env.share i = env.count ↔ env.Undoubled := by
  have sum_pos := scored.sum_pos
  obtain ⟨first, below, _⟩ := scored.active
  have count_ne : (env.count : K) ≠ 0 := Nat.cast_ne_zero.mpr (by omega)
  rw [sum_share_eq, scale_eq sum_pos.ne' count_ne, sum_eq_summands, eq_comm,
    Finset.sum_eq_sum_iff_of_le fun i _ => summand_le i]
  refine ⟨fun equal i below enabled => ?_, fun undoubled i member => ?_⟩
  · exact (summand_eq_iff schedule i).mp (equal i (Finset.mem_range.mpr below)) enabled
  · exact (summand_eq_iff schedule i).mpr (undoubled i (Finset.mem_range.mp member))

end WeightEnv

/-- The masses sum to the number of entries, and each entry is selected with its weight's share
of the final weights. -/
def MassSound (env : WeightEnv ℚ) : Prop :=
  ∑ i ∈ Finset.range env.count, env.share i = env.count ∧ RealisesWeights env

/-- Under `MMOPT` the masses are right just when no active entry counts twice, and then the table
realises the weights with the usual limit on the number of entries. -/
theorem mass_sound_iff (env : WeightEnv ℚ) (schedule : env.schedule = .mmopt)
    (active : ∃ i < env.count, (env.queueBuf i).disabled = false) :
    MassSound env ↔ env.Undoubled ∧
      (env.count ≤ 2 ^ 31 ∨ ∀ i, 0 < i → i < env.count → (env.queueBuf i).disabled = true) := by
  have early : env.schedule.beforeRare = true := by rw [schedule]; rfl
  have scored : env.Scored := ⟨active, fun late => absurd late (by rw [early]; decide)⟩
  have weighs (i : Nat) : 0 < env.effectiveWeight i ↔ (env.queueBuf i).disabled = false := by
    have averaged : 0 < env.averagedWeight i := WeightEnv.averagedWeight_pos i
    cases disabled : (env.queueBuf i).disabled with
    | true => simp [WeightEnv.effectiveWeight, disabled]
    | false =>
      simp only [WeightEnv.effectiveWeight, WeightEnv.weight, disabled, early, Bool.false_eq_true,
        if_false, if_true, iff_true]
      split <;> positivity
  have weightless (i : Nat) : env.effectiveWeight i = 0 ↔ (env.queueBuf i).disabled = true := by
    rw [← Bool.not_eq_false, ← weighs i]
    have nonneg : 0 ≤ env.effectiveWeight i := WeightEnv.weight_nonneg i
    rw [not_lt]
    exact ⟨fun zero => zero.le, fun le => le_antisymm le nonneg⟩
  have positive : ∃ i < env.count, 0 < env.effectiveWeight i := by
    obtain ⟨i, below, enabled⟩ := active
    exact ⟨i, below, (weighs i).mpr enabled⟩
  rw [MassSound, WeightEnv.sum_share_iff schedule scored]
  refine and_congr_right fun undoubled => ?_
  rw [realisesWeights_iff undoubled positive]
  simp only [weightless]

/-- Three entries under `MMOPT`, the last of them discovered and disabled since. -/
def mmoptRetired : WeightEnv ℚ where
  schedule := .mmopt
  queueBuf := fun i => ⟨i = 2, false, false, false, 1, 1, 0, 0⟩
  queuedItems := 3
  queuedDiscovered := 1
  nFuzz := fun _ => 0
  log10 := fun _ => 0
  log := fun _ => 0
  calculateScore := fun _ => 100

/-- The last entry would count twice, but has no weight. -/
theorem mass_sound_mmoptRetired : mmoptRetired.doubled 2 = true ∧ MassSound mmoptRetired := by
  have undoubled : mmoptRetired.Undoubled := by
    intro i below enabled
    have early : i ≠ 2 := of_decide_eq_false enabled
    have inside : i < 3 := below
    interval_cases i
    · rfl
    · rfl
    · exact absurd rfl early
  exact ⟨rfl, (mass_sound_iff mmoptRetired rfl ⟨0, by decide, rfl⟩).mpr
    ⟨undoubled, .inl (by decide)⟩⟩

/-- Two equal entries under `MMOPT`; the second was discovered. -/
def mmoptPair : WeightEnv ℚ where
  schedule := .mmopt
  queueBuf := fun _ => ⟨false, false, false, false, 1, 1, 0, 0⟩
  queuedItems := 2
  queuedDiscovered := 1
  nFuzz := fun _ => 0
  log10 := fun _ => 0
  log := fun _ => 0
  calculateScore := fun _ => 100

/-- The second entry counts twice and the masses sum to more than two. -/
theorem mass_not_sound : ¬ MassSound mmoptPair := by
  rintro ⟨mass, _⟩
  have scored : mmoptPair.Scored := ⟨⟨0, by decide, rfl⟩, fun late => by cases late⟩
  have undoubled := (WeightEnv.sum_share_iff rfl scored).mp mass
  have single := undoubled 1 (by decide) rfl
  revert single
  decide

/-! ## What is selected -/

/-- A `u64` as a `double`: 53 bits are kept, and ties go to the even number. -/
def roundToDouble (x : Nat) : Nat :=
  let shift := x.log2 + 1 - 53
  let kept := x >>> shift
  let rest := x % 2 ^ shift
  let up := 2 ^ shift < 2 * rest ∨ 2 ^ shift = 2 * rest ∧ kept % 2 = 1
  (if up then kept + 1 else kept) <<< shift

/-- `rand_next_percent`, for what `rand_next` returns. -/
def randNextPercent (x : BitVec 64) : ℚ := roundToDouble x.toNat / roundToDouble 0xffffffffffffffff

theorem randNextPercent_nonneg (x : BitVec 64) : 0 ≤ randNextPercent x :=
  div_nonneg (Nat.cast_nonneg _) (Nat.cast_nonneg _)

/-- The largest number is one. -/
theorem randNextPercent_max : randNextPercent 0xffffffffffffffff = 1 := by
  have some : (roundToDouble 0xffffffffffffffff : ℚ) ≠ 0 := by
    rw [Nat.cast_ne_zero]
    decide +kernel
  exact div_self some

/-- The table is created, and with any random numbers it selects an entry that is active. -/
def SelectsActive (env : WeightEnv ℚ) : Prop :=
  ∃ t, (∀ fuel, env.count ≤ fuel → createAliasTable env fuel = some t) ∧
    ∀ s < env.count, ∀ x : BitVec 64,
      selectNextQueueEntry t.aliasProbability t.aliasTable s (randNextPercent x) < env.count ∧
      (env.queueBuf (selectNextQueueEntry t.aliasProbability t.aliasTable s
        (randNextPercent x))).disabled = false

/-- The sorted stacks have mass for every entry. -/
theorem AliasArrays.Sorted.supplied {env : WeightEnv ℚ} {a : AliasArrays ℚ}
    (sorted : AliasArrays.Sorted env.share env.queuedItems a (List.range env.count))
    (scored : env.Scored) :
    Supplied (Finset.range env.count) env.share 0 (a.pairing env.queuedItems) := by
  obtain ⟨mass, perm, small_mass, large_mass, within, prob, table⟩ := sorted
  obtain ⟨first, below, _⟩ := scored.active
  have pending {i : Nat} : i ∈ (a.pairing env.queuedItems).small ++ (a.pairing env.queuedItems).large ↔
      i ∈ Finset.range env.count := by
    rw [perm.mem_iff, List.mem_range, Finset.mem_range]
  refine ⟨fun i => pending.mp, perm.nodup_iff.mpr List.nodup_range, ?_, ?_, ?_, ?_, ?_, ?_, ?_⟩
  · exact List.ne_nil_of_mem (pending.mpr (Finset.mem_range.mpr below))
  · intro i member
    change a.P i < 1
    rw [mass]
    exact small_mass i member
  · intro i member
    change 1 ≤ a.P i
    rw [mass]
    exact large_mass i member
  · exact fun i => .inl (congrFun mass i)
  · exact fun i _ => congrFun table i
  · exact fun i inside settled => absurd (pending.mpr inside) settled
  · have total := WeightEnv.count_le_sum_share scored.sum_pos
    rw [perm.length_eq, (perm.map _).sum_eq, List.length_range]
    change (env.count : ℚ) ≤ ((List.range env.count).map a.P).sum
    rw [mass]
    exact total

/-- Only the first entry can be selected without having a share. -/
theorem selects_active_iff (env : WeightEnv ℚ) (scored : env.Scored) :
    SelectsActive env ↔ (env.queueBuf 0).disabled = false := by
  obtain ⟨first, first_below, _⟩ := scored.active
  have some_ : 0 < env.count := by omega
  have shareless {i : Nat} (disabled : (env.queueBuf i).disabled = true) : env.share i = 0 := by
    rw [WeightEnv.share, if_pos disabled]
  have enabled {i : Nat} (rich : 1 ≤ env.share i) : (env.queueBuf i).disabled = false := by
    rw [← Bool.not_eq_true]
    intro disabled
    rw [shareless disabled] at rich
    linarith
  by_cases small : env.count ≤ 2 ^ 31
  · obtain ⟨t, paired, run, supplied, done, prob, table⟩ :=
      @createAliasTable_runs ℚ _ _ env small (Supplied (Finset.range env.count) env.share 0)
        Supplied.pair fun _ sorted => sorted.supplied scored
    constructor
    · rintro ⟨t', run', selects⟩
      have same : t' = t := Option.some.inj ((run' _ le_rfl).symm.trans (run _ le_rfl))
      subst same
      obtain ⟨i, inside, left, blank⟩ := supplied.left_over
      have chosen := (selects i (Finset.mem_range.mp inside) 0xffffffffffffffff).2
      rwa [selectNextQueueEntry, randNextPercent_max, prob, left, if_neg (lt_irrefl 1), table,
        blank] at chosen
    · intro zero
      refine ⟨t, run, fun s below x => ?_⟩
      have nonneg := randNextPercent_nonneg x
      rw [selectNextQueueEntry, prob, table]
      rcases supplied.finish done (Finset.mem_range.mpr below) with
        ⟨_, blank, rich⟩ | ⟨own, member, rich⟩
      · split
        · exact ⟨below, enabled rich⟩
        · rw [blank]
          exact ⟨some_, zero⟩
      · split
        next low =>
          refine ⟨below, ?_⟩
          rcases own with keeps | rich'
          · rw [← Bool.not_eq_true]
            intro disabled
            rw [keeps, shareless disabled] at low
            linarith
          · exact enabled rich'
        next => exact ⟨Finset.mem_range.mp member, enabled rich⟩
  · -- the table was only cleared
    have run (fuel : Nat) := createAliasTable_of_gt (not_le.mp small) fuel
    have chosen (s : Nat) (x : BitVec 64) :
        selectNextQueueEntry (AliasArrays.initial env.share env.queuedItems).aliasProbability
          (AliasArrays.initial env.share env.queuedItems).aliasTable s (randNextPercent x) = 0 :=
      if_neg (not_lt.mpr (randNextPercent_nonneg x))
    constructor
    · rintro ⟨t, run', selects⟩
      have same := Option.some.inj ((run' _ le_rfl).symm.trans (run _))
      subst same
      have first := (selects 0 some_ 0).2
      rwa [chosen] at first
    · intro zero
      refine ⟨_, fun fuel _ => run fuel, fun s _ x => ?_⟩
      rw [chosen]
      exact ⟨some_, zero⟩

/-- Two entries under `SEEK`, the first of which is disabled. -/
def firstDisabled : WeightEnv ℚ where
  schedule := .seek
  queueBuf := fun i => ⟨i = 0, false, false, false, 1, 1, 0, 0⟩
  queuedItems := 2
  queuedDiscovered := 0
  nFuzz := fun _ => 0
  log10 := fun _ => 0
  log := fun _ => 0
  calculateScore := fun _ => 100

theorem selects_active_evenQueue :
    SelectsActive (evenQueue 3) ↔ ((evenQueue 3).queueBuf 0).disabled = false :=
  selects_active_iff (evenQueue 3) ⟨⟨0, by decide, rfl⟩, fun _ => ⟨0, by decide, rfl, by decide⟩⟩

/-- With the largest random number the second entry leads to the first, which is disabled. -/
theorem selects_disabled : ¬ SelectsActive firstDisabled := by
  rintro ⟨t, run, selects⟩
  have entries : (createAliasTable firstDisabled 2).map
      (fun t => (t.aliasProbability 1, t.aliasTable 1)) = some (1, 0) := by
    decide +kernel
  rw [run 2 le_rfl] at entries
  obtain ⟨prob, table⟩ := Prod.mk.inj (Option.some.inj entries)
  have chosen := (selects 1 (by decide) 0xffffffffffffffff).2
  rw [selectNextQueueEntry, randNextPercent_max, prob, if_neg (lt_irrefl 1), table] at chosen
  cases chosen

end Swam.Afl
