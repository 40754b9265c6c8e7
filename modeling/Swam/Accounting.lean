import Swam.FuzzRuns

/-!
# Accounting for selections

Every scenario the scheduler selects should be recorded once: in the same call when
instantiation fails, at the start of the next call otherwise. A ledger of selections
and records states this, and a run balances exactly when no call but the last loses
the module it selected a scenario for.
-/
namespace Swam

open Binaryen Lib

/-- A catalog scenario was selected, or an outcome recorded. -/
inductive Entry where
  | selected (id : Nat)
  | recorded (id : Nat)
  deriving DecidableEq, Repr

def Effect.entry : Effect → Option Entry
  | .select id => if (swamGetScenario id).isSome then some (.selected id) else none
  | .update id _ => some (.recorded id)
  | _ => none

def Call.entries (c : Call) : List Entry := c.result.effects.filterMap Effect.entry

/-- The selection that a call's own entries leave open, if they are in order. -/
def closeOwn : List Entry → Option (Option Nat)
  | [] => some none
  | [.selected id] => some (some id)
  | [.selected id, .recorded id'] => if id = id' then some none else none
  | _ => none

/-- A call starts with the record of the selection left open before it. -/
def closeCall (owed : Option Nat) (entries : List Entry) : Option (Option Nat) :=
  match owed, entries with
  | none, own => closeOwn own
  | some id, .recorded id' :: own => if id = id' then closeOwn own else none
  | some _, _ => none

/-- The selection a run leaves open, the most recent call first; `none` when some
selection was not recorded exactly once, or something else was recorded. -/
def balance : List (List Entry) → Option (Option Nat)
  | [] => some none
  | entries :: past => (balance past).bind (closeCall · entries)

/-! ## What a call owes -/

/-- The selection the next call will record. -/
def Mutator.owed (d : Mutator) : Option Nat :=
  if d.lastWasExploit then some d.lastScenarioId else none

/-- The module survives: it can be copied, serialised within the limit, and kept. -/
def Survives (env : CallEnv) (input : CallInput) (m : Module) : Prop :=
  env.malloc = true ∧ ∃ bytes, env.writeOutput m = some bytes ∧ bytes.length ≤ input.maxSize

/-- A call that selects a scenario can clone its input, and an instantiated module
survives. -/
def Call.Keeps (c : Call) : Prop :=
  let d := (swamSettle c.env.fopen c.start).1
  ∀ m id s r, c.env.readInput c.input.buf = some m →
    swamChooseScenario c.env.ucb d = (some (id, some s), r) →
    ∃ clone, swamPrepareClone c.env (m.setFeatures enabledFeatures) = some clone ∧
      ∀ m' r', swamInstantiateScenario c.env.exploit
        (swamSchedulerScenarioReached d.scheduler s.id) s clone r = some (none, m', r') →
        Survives c.env c.input m'

/-- With the input parsed, the scenario chosen and the clone made, only an instantiated
module has to survive. -/
theorem Call.keeps_iff {c : Call} {m clone : Module} {id : Nat} {s : SwamScenario} {r : Rand}
    (parsed : c.env.readInput c.input.buf = some m)
    (choice : swamChooseScenario c.env.ucb (swamSettle c.env.fopen c.start).1 =
      (some (id, some s), r))
    (prepared : swamPrepareClone c.env (m.setFeatures enabledFeatures) = some clone) :
    c.Keeps ↔ ∀ m' r', swamInstantiateScenario c.env.exploit (swamSchedulerScenarioReached
      (swamSettle c.env.fopen c.start).1.scheduler s.id) s clone r = some (none, m', r') →
      Survives c.env c.input m' := by
  constructor
  · intro keeps m' r' placed
    obtain ⟨clone', again, survives⟩ := keeps m id s r parsed choice
    rw [prepared] at again
    cases again
    exact survives m' r' placed
  · intro survives m₀ id₀ s₀ r₀ parsed₀ choice₀
    rw [parsed] at parsed₀
    rw [choice] at choice₀
    cases parsed₀
    cases choice₀
    exact ⟨clone, prepared, survives⟩

theorem swamSettle_entries (fopen : Bool) {calls : List Call} {d : Mutator} (area : MarkerArea)
    (settled : Settled calls d) :
    (swamSettle fopen (d.marked area)).2.filterMap Effect.entry =
      d.owed.toList.map .recorded := by
  obtain ⟨_, quiet, exploit⟩ := swamSettle_spec fopen area settled
  unfold Mutator.owed
  cases flag : d.lastWasExploit with
  | false =>
    rw [quiet flag]
    rfl
  | true =>
    obtain ⟨c, past, s, m, saves, _, _, _, found, _, effects, each⟩ := exploit flag
    have silent : saves.filterMap Effect.entry = [] := by
      rw [List.filterMap_eq_nil_iff]
      intro e member
      rcases each e member with ⟨f, rfl⟩ | ⟨⟨n, tag, rfl⟩, _⟩ <;> rfl
    rw [effects, List.filterMap_cons, Effect.entry, silent, (swamGetScenario_eq_some found).2.1]
    rfl

/-- Finishing an exploit call leaves its selection to the next call exactly when the
module survives. -/
theorem swamFinish_owed {env : CallEnv} {input : CallInput} {d d' : Mutator} {s : SwamScenario}
    {m : Module} {out : List UInt8} (finished : swamFinish env input d (.exploit s m) m = (out, d'))
    (clear : d.lastWasExploit = false) :
    (Survives env input m ∧ d'.owed = some s.id) ∨ (¬ Survives env input m ∧ d'.owed = none) := by
  have lost : d.owed = none := by simp [Mutator.owed, clear]
  unfold swamFinish at finished
  split at finished
  next failed =>
    cases finished
    exact .inr ⟨by simp [Survives, failed], lost⟩
  next binary written =>
    dsimp only at finished
    by_cases fits : binary.length ≤ input.maxSize
    · have whole : clampOutput input binary = binary := by
        rw [clampOutput, if_neg (by omega)]
      rw [whole, if_pos rfl] at finished
      obtain ⟨rfl, rfl⟩ := Prod.mk.inj finished
      unfold swamKeepPending
      split
      next kept => exact .inl ⟨⟨kept, binary, written, fits⟩, rfl⟩
      next dropped =>
        refine .inr ⟨fun survives => dropped survives.1, ?_⟩
        simpa [Mutator.owed] using clear
    · have shorter : (clampOutput input binary).length ≠ binary.length := by
        rw [clampOutput, if_pos (by omega), List.length_take]
        omega
      rw [if_neg shorter] at finished
      cases finished
      refine .inr ⟨?_, lost⟩
      rintro ⟨_, bytes, equal, short⟩
      rw [written] at equal
      cases equal
      exact fits short

/-- The ways a call can enter its own selection into the ledger, with what it then owes. -/
inductive Closes (c : Call) (d' : Mutator) : List Entry → Prop
  | quiet (keeps : c.Keeps) (owed : d'.owed = none) : Closes c d' []
  | now (id : Nat) (keeps : c.Keeps) (owed : d'.owed = none) :
      Closes c d' [.selected id, .recorded id]
  | later (id : Nat) (keeps : c.Keeps) (owed : d'.owed = some id) : Closes c d' [.selected id]
  | lost (id : Nat) (loses : ¬ c.Keeps) (owed : d'.owed = none) : Closes c d' [.selected id]

/-- One call: it first records what it owes, then enters its own selection. -/
theorem callStep_closes {calls : List Call} {d d' : Mutator} {c : Call}
    (settled : Settled calls d) (step : callStep d c d') :
    ∃ own, c.entries = d.owed.toList.map .recorded ++ own ∧ Closes c d' own := by
  obtain ⟨⟨area, start⟩, returned, rfl⟩ := step
  have checked := swamSettle_entries c.env.fopen area settled
  rw [← start] at checked
  have clear := swamSettle_lastWasExploit c.env.fopen c.start
  have nothing {d : Mutator} (flag : d.lastWasExploit = false) : d.owed = none := by
    simp [Mutator.owed, flag]
  rcases aflCustomFuzz_cases returned with ⟨unparsed, equal⟩ |
    ⟨m, d₁, d₂, tried, module_, parsed, tries, ⟨r, rfl⟩, chosen, finished, _, effects⟩
  · refine ⟨[], ?_, .quiet ?_ ?_⟩
    · rw [Call.entries, equal, checked, List.append_nil]
    · rintro m id s r parsed
      rw [unparsed] at parsed
      cases parsed
    · rw [equal]
      exact nothing clear
  obtain ⟨⟨r', n, sched, rfl⟩, outcome⟩ := swamExploit_cases tries
  refine ⟨tried.filterMap Effect.entry, ?_, ?_⟩
  · rw [Call.entries, effects, List.filterMap_append, checked]
  -- a call that did not place a probe keeps the cleared flag
  have unplaced (other : ∀ s m, c.result.attempted ≠ .exploit s m) :
      c.result.mutator.owed = none := by
    rcases (swamFinish_state finished).2 with unchanged | ⟨s, m, exploit, _⟩
    · exact nothing (unchanged.trans clear)
    · exact absurd exploit (other s m)
  have same {m₀ : Module} (again : c.env.readInput c.input.buf = some m₀) : m₀ = m := by
    rw [parsed] at again
    exact (Option.some.inj again).symm
  rcases outcome with ⟨attempted, quiet, unchosen⟩ | ⟨id, s, r₀, choice, outcome⟩
  · have silent : tried.filterMap Effect.entry = [] := by
      rcases quiet with rfl | ⟨id, missing, rfl⟩ <;> simp [Effect.entry, *]
    rw [silent]
    exact .quiet (fun m id s r _ choice => absurd choice (unchosen id s r))
      (unplaced (by simp [attempted]))
  have found := swamChooseScenario_id choice
  have entry : Effect.entry (.select id) = some (.selected id) := by simp [Effect.entry, found]
  have number := (swamGetScenario_eq_some found).2.1
  generalize attempt : c.result.attempted = attempted at finished tries outcome unplaced chosen
  cases outcome with
  | cloneFailed failed =>
    rw [List.filterMap_cons, entry, List.filterMap_nil]
    refine .lost id (fun keeps => ?_) (unplaced (by simp))
    obtain ⟨clone, prepared, _⟩ := keeps m id s r₀ parsed choice
    rw [failed] at prepared
    cases prepared
  | @instantiateFailed clone reason m' r' prepared failed =>
    rw [List.filterMap_cons, entry, List.filterMap_cons, Effect.entry, number, List.filterMap_nil]
    refine .now id ((Call.keeps_iff parsed choice prepared).mpr ?_) (unplaced (by simp))
    simp [failed]
  | @exploit clone m' r' prepared placed =>
    rw [List.filterMap_cons, entry, List.filterMap_nil]
    rw [chosen s m' rfl] at finished
    have survival : c.Keeps ↔ Survives c.env c.input m' := by
      rw [Call.keeps_iff parsed choice prepared]
      simp [placed]
    rcases swamFinish_owed finished clear with ⟨survives, owed⟩ | ⟨dies, owed⟩
    · exact .later id (survival.mpr survives) (owed.trans (congrArg some number))
    · exact .lost id (fun keeps => dies (survival.mp keeps)) owed

/-! ## Whole runs -/

/-- What the ledger of a run amounts to. -/
structure Balanced (calls : List Call) (d : Mutator) : Prop where
  kept : (∀ c ∈ calls, c.Keeps) → balance (calls.map Call.entries) = some d.owed
  lost : ∀ c past, calls = c :: past → (∀ c ∈ past, c.Keeps) → ¬ c.Keeps →
    d.owed = none ∧ ∃ id, balance (calls.map Call.entries) = some (some id)
  broken : ∀ c past, calls = c :: past → ¬ (∀ c ∈ past, c.Keeps) →
    balance (calls.map Call.entries) = none

theorem callStep_balanced {calls : List Call} {d d' : Mutator} {c : Call}
    (settled : Settled calls d) (balanced : Balanced calls d) (step : callStep d c d') :
    Balanced (c :: calls) d' := by
  obtain ⟨own, entries, closes⟩ := callStep_closes settled step
  -- a call closes what it owes, and leaves open what its own entries leave open
  have close : closeCall d.owed c.entries = closeOwn own := by
    rw [entries]
    cases d.owed <;> simp [closeCall]
  have next (paid : ∀ c ∈ calls, c.Keeps) :
      balance ((c :: calls).map Call.entries) = closeOwn own := by
    rw [List.map_cons, balance, balanced.kept paid, Option.bind_some, close]
  refine ⟨fun keeps => ?_, ?_, ?_⟩
  · obtain ⟨here, past⟩ := List.forall_mem_cons.mp keeps
    rw [next past]
    cases closes with
    | quiet _ owed => rw [owed]; rfl
    | now id _ owed => simp [owed, closeOwn]
    | later id _ owed => rw [owed]; rfl
    | lost id loses _ => exact absurd here loses
  · rintro c past ⟨rfl, rfl⟩ paid loses
    rw [next paid]
    cases closes with
    | quiet keeps | now _ keeps | later _ keeps => exact absurd keeps loses
    | lost id _ owed => exact ⟨owed, id, rfl⟩
  · rintro c past ⟨rfl, rfl⟩ unpaid
    rw [List.map_cons, balance]
    cases calls with
    | nil => simp at unpaid
    | cons prev older =>
      by_cases paid : ∀ c ∈ older, c.Keeps
      · -- the previous call lost its module, so nothing records its selection
        have loses : ¬ prev.Keeps := fun keeps => unpaid (List.forall_mem_cons.mpr ⟨keeps, paid⟩)
        obtain ⟨owed, id, open_⟩ := balanced.lost prev older rfl paid loses
        rw [open_, Option.bind_some, entries, owed]
        cases closes <;> rfl
      · rw [balanced.broken prev older rfl paid, Option.bind_none]

theorem run_balanced {calls : List Call} {d : Mutator}
    (run : Trace Mutator.Initial callStep calls d) : Settled calls d ∧ Balanced calls d := by
  induction run with
  | start initial =>
    refine ⟨run_settled (.start initial), ?_, by simp, by simp⟩
    obtain ⟨calloc, runtime, markers, r, rfl⟩ := initial
    exact fun _ => rfl
  | next _ now ih => exact ⟨callStep_settled ih.1 now, callStep_balanced ih.1 ih.2 now⟩

/-- Over every run, each selection of a catalog scenario is recorded exactly once, in its own
call or at the start of the next, and nothing else is recorded, exactly when every call but
the last keeps the module it selected a scenario for. -/
theorem run_accounts_iff {calls : List Call} {d : Mutator}
    (run : Trace Mutator.Initial callStep calls d) :
    (balance (calls.map Call.entries)).isSome ↔ ∀ c ∈ calls.tail, c.Keeps := by
  obtain ⟨_, balanced⟩ := run_balanced run
  cases calls with
  | nil => simp [balance]
  | cons c past =>
    rw [List.tail_cons]
    by_cases paid : ∀ c ∈ past, c.Keeps
    · refine iff_of_true ?_ paid
      by_cases keeps : c.Keeps
      · rw [balanced.kept (List.forall_mem_cons.mpr ⟨keeps, paid⟩)]
        rfl
      · obtain ⟨_, id, open_⟩ := balanced.lost c past rfl paid keeps
        rw [open_]
        rfl
    · refine iff_of_false ?_ paid
      rw [balanced.broken c past rfl paid]
      exact Bool.false_ne_true

theorem run_accounts_probing :
    ∃ d, ∃ c₁ c₂ : Call, Trace Mutator.Initial callStep [c₂, c₁] d ∧
      c₁.Keeps ∧ (balance [c₂.entries, c₁.entries]).isSome := by
  let c₁ := probing probingStart ⟨none, none⟩ ⟨oneFunctionBinary, none, 4096⟩
  let c₂ := probing c₁.result.mutator ⟨some (1, 0, 1), none⟩ ⟨[], none, 4096⟩
  have initial : probingStart.Initial := ⟨_, _, _, _, rfl⟩
  have first : callStep probingStart c₁ c₁.result.mutator := probing_step ..
  have second : callStep c₁.result.mutator c₂ c₂.result.mutator := probing_step ..
  have fits : probedBinary.length ≤ 4096 := by
    rw [probedBinary_length]
    decide
  have keeps : c₁.Keeps := by
    intro m id s r parsed choice
    exact ⟨_, rfl, fun m' r' _ => ⟨rfl, probedBinary, rfl, fits⟩⟩
  refine ⟨_, c₁, c₂, .next (.next (.start initial) first) second, keeps, ?_⟩
  exact (run_accounts_iff (.next (.next (.start initial) first) second)).mpr (by simpa using keeps)

/-- A fresh mutator that draws an exploit call and then never a zero. -/
def oversizeStart : Mutator :=
  aflCustomInit true none ⟨none, none⟩ ⟨fun p => if p = 0 then 0 else 1, 0⟩

/-- The first row of the catalog. -/
def interiorLoad : SwamScenario :=
  ⟨1, .i32Load, .load, .interior, .noTrap, 4, false, .i32, .noWrap, .na⟩

/-- The scheduler of a fresh mutator. -/
def freshScheduler : SwamScheduler :=
  ⟨List.replicate swamScenarioCount ⟨0, 0, 0, 0⟩, 0, swamProposalsAll, none⟩

private theorem freshScheduler_cold : ∃ rest, freshScheduler.cold = 0 :: rest := by
  have number : freshScheduler.numScenarios = 599 + 1 := by
    rw [SwamScheduler.numScenarios, freshScheduler, List.length_replicate]
    decide +kernel
  have passes : swamScenarioPassesFilter freshScheduler (0 + 1) = true := by decide +kernel
  have unrecorded : (freshScheduler.stats[0]?.any (·.nSelected = 0)) = true := by decide +kernel
  rw [SwamScheduler.cold, SwamScheduler.active, number, List.range_succ_eq_map, List.filter_cons,
    if_pos passes, List.filter_cons, if_pos unrecorded]
  exact ⟨_, rfl⟩

private theorem oversizeStart_chooses : ∃ r,
    swamChooseScenario probingEnv.ucb (swamSettle true (oversizeStart.marked ⟨none, none⟩)).1 =
      (some (1, some interiorLoad), r) := by
  obtain ⟨rest, cold⟩ := freshScheduler_cold
  let r : Rand := ⟨fun p => if p = 0 then 0 else 1, 1⟩
  have draws (p limit : Nat) (after : r.pos ≤ p) (two : 2 ≤ limit) : r.source p % limit ≠ 0 := by
    have later : r.source p = 1 := if_neg (Nat.ne_of_gt after)
    rw [later, Nat.mod_eq_of_lt two]
    decide
  obtain ⟨r', select⟩ : ∃ r', swamSchedulerSelect probingEnv.ucb (some freshScheduler) r =
      (1, r') := by
    have first : reservoir (0 :: rest) (0, 0) r = reservoir rest (0, 1) r := by
      rw [reservoir]
      exact if_pos rfl
    rw [swamSchedulerSelect_cold _ _ (by simp [cold]), cold, first,
      reservoir_first rest 0 1 r Nat.one_pos draws]
    exact ⟨_, rfl⟩
  have scheduler : (oversizeStart.marked ⟨none, none⟩).scheduler = some freshScheduler := by
    decide +kernel
  have settled : swamSettle true (oversizeStart.marked ⟨none, none⟩) =
    (oversizeStart.marked ⟨none, none⟩, []) := if_neg Bool.false_ne_true
  have coin : randBelow 2 (oversizeStart.marked ⟨none, none⟩).rand = (0, r) := rfl
  have found : swamGetScenario 1 = some interiorLoad := by decide +kernel
  rw [← scheduler] at select
  refine ⟨r', ?_⟩
  rw [settled, ← found]
  exact swamChooseScenario_exploit coin select

private theorem swamInstantiateScenario_small (reached : Nat) (r : Rand) :
    ∃ m', swamInstantiateScenario .accepting reached interiorLoad (swamStripMarkers
      ExploitEnv.accepting.finalize ((oneFunctionModule 1).setFeatures enabledFeatures)) r =
      some (none, m', r) :=
  ⟨_, rfl⟩

/-- The module with the probe is longer than the limit: the selection is never recorded. -/
theorem run_loses_oversize :
    ∃ d, ∃ c₁ c₂ : Call, Trace Mutator.Initial callStep [c₂, c₁] d ∧
      ¬ (balance [c₂.entries, c₁.entries]).isSome := by
  let c₁ := probing oversizeStart ⟨none, none⟩ ⟨oneFunctionBinary, none, 64⟩
  let c₂ := probing c₁.result.mutator ⟨none, none⟩ ⟨[], none, 64⟩
  have initial : oversizeStart.Initial := ⟨_, _, _, _, rfl⟩
  have first : callStep oversizeStart c₁ c₁.result.mutator := probing_step ..
  have second : callStep c₁.result.mutator c₂ c₂.result.mutator := probing_step ..
  have run := Trace.next (.next (.start initial) first) second
  have loses : ¬ c₁.Keeps := by
    intro keeps
    obtain ⟨r, choice⟩ := oversizeStart_chooses
    obtain ⟨m', placed⟩ := swamInstantiateScenario_small
      (swamSchedulerScenarioReached (swamSettle true c₁.start).1.scheduler 1) r
    obtain ⟨_, bytes, written, short⟩ :=
      (Call.keeps_iff (c := c₁) (m := oneFunctionModule 1) rfl choice rfl).mp keeps m' r placed
    obtain rfl : probedBinary = bytes := Option.some.inj written
    rw [probedBinary_length] at short
    exact absurd short (by decide)
  have broken := (run_balanced run).2.broken c₂ [c₁] rfl (by simpa using loses)
  refine ⟨_, c₁, c₂, run, ?_⟩
  rw [List.map_cons, List.map_cons, List.map_nil] at broken
  simp [broken]

end Swam
