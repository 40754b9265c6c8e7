import Swam.Fuzz
import Swam.Lib.Trace

/-!
# Runs of the custom mutator

What a call returns, what it leaves for the next call, and which records and files
come out of whole runs. Between two calls the harness may write anything into the
marker area.
-/
namespace Swam

open Binaryen Lib

/-! ## One call -/

section Call

variable {env : CallEnv} {input : CallInput}

theorem swamFinish_output {d d' : Mutator} {attempted : Attempted} {module_ : Module}
    {out : List UInt8} (finished : swamFinish env input d attempted module_ = (out, d')) :
    out.length ≤ input.maxSize ∧
      (env.writeOutput module_ = some out ∨ out = input.buf.take input.maxSize) := by
  have short : (input.buf.take input.maxSize).length ≤ input.maxSize :=
    List.length_take_le ..
  unfold swamFinish at finished
  split at finished
  · cases finished
    exact ⟨short, .inr rfl⟩
  next binary written =>
    have chosen : out = clampOutput input binary := by
      dsimp only at finished
      split at finished
      · split at finished <;> cases finished <;> rfl
      · cases finished
        rfl
    unfold clampOutput at chosen
    split at chosen
    · subst chosen
      exact ⟨short, .inr rfl⟩
    · subst chosen
      exact ⟨by omega, .inl written⟩

/-- Finishing a call either keeps a complete exploit module for the next one or leaves
the exploit flag alone. -/
theorem swamFinish_state {d d' : Mutator} {attempted : Attempted} {module_ : Module}
    {out : List UInt8} (finished : swamFinish env input d attempted module_ = (out, d')) :
    (d'.savedBugCount = d.savedBugCount ∧ d'.unknownSavedNotrap = d.unknownSavedNotrap) ∧
      (d'.lastWasExploit = d.lastWasExploit ∨
        ∃ s m, attempted = .exploit s m ∧ env.writeOutput module_ = some out ∧
          d' = { d with
            pendingModule := some out
            pendingModuleSize := out.length
            markers := swamMarkersReset d.markers
            lastWasExploit := true
            lastScenarioId := s.id }) := by
  unfold swamFinish at finished
  split at finished
  · cases finished
    exact ⟨⟨rfl, rfl⟩, .inl rfl⟩
  next binary written =>
    dsimp only at finished
    split at finished
    next s m =>
      split at finished
      next same =>
        cases finished
        -- the fallback is shorter than the module it replaces
        have fits : clampOutput input binary = binary := by
          unfold clampOutput at same ⊢
          split at same
          next large =>
            simp only [List.length_take] at same
            omega
          next small => rw [if_neg small]
        rw [fits, swamKeepPending]
        split
        · exact ⟨⟨rfl, rfl⟩, .inr ⟨s, m, rfl, written, rfl⟩⟩
        · exact ⟨⟨rfl, rfl⟩, .inl rfl⟩
      · cases finished
        exact ⟨⟨rfl, rfl⟩, .inl rfl⟩
    · cases finished
      exact ⟨⟨rfl, rfl⟩, .inl rfl⟩

theorem swamChooseScenario_id {ucb : Ucb} {d : Mutator} {id : Nat} {found : Option SwamScenario}
    {r : Rand} (choice : swamChooseScenario ucb d = (some (id, found), r)) :
    swamGetScenario id = found := by
  unfold swamChooseScenario at choice
  dsimp only at choice
  split at choice
  · simp only [Prod.mk.injEq, Option.some.injEq] at choice
    rw [← choice.1.1]
    exact choice.1.2
  · simp at choice

theorem swamChooseScenario_exploit {ucb : Ucb} {d : Mutator} {id : Nat} {r r' : Rand}
    (coin : randBelow 2 d.rand = (0, r))
    (select : swamSchedulerSelect ucb d.scheduler r = (id, r')) :
    swamChooseScenario ucb d = (some (id, swamGetScenario id), r') := by
  simp only [swamChooseScenario, coin, select, if_pos]

/-- How the exploit half of a call can go once a scenario was chosen. -/
inductive Tries (env : CallEnv) (d : Mutator) (m : Module) (id : Nat) (s : SwamScenario)
    (r : Rand) : Attempted → List Effect → Prop
  | cloneFailed (failed : swamPrepareClone env m = none) :
      Tries env d m id s r (.cloneFailed s) [.select id]
  | instantiateFailed {clone reason m' r'} (prepared : swamPrepareClone env m = some clone)
      (failed : swamInstantiateScenario env.exploit
        (swamSchedulerScenarioReached d.scheduler s.id) s clone r = some (some reason, m', r')) :
      Tries env d m id s r (.instantiateFailed s) [.select id, .update s.id .instantiateFail]
  | exploit {clone m' r'} (prepared : swamPrepareClone env m = some clone)
      (placed : swamInstantiateScenario env.exploit
        (swamSchedulerScenarioReached d.scheduler s.id) s clone r = some (none, m', r')) :
      Tries env d m id s r (.exploit s m') [.select id]

/-- The exploit half changes statistics and the random source only. -/
theorem swamExploit_cases {d d' : Mutator} {m : Module} {attempted : Attempted}
    {tried : List Effect} (tries : swamExploit env d m = some (attempted, d', tried)) :
    (∃ r n sched, d' = { d with rand := r, exploitCnt := n, scheduler := sched }) ∧
      ((attempted = .nothing ∧
          (tried = [] ∨ ∃ id, swamGetScenario id = none ∧ tried = [.select id]) ∧
          ∀ id s r, swamChooseScenario env.ucb d ≠ (some (id, some s), r)) ∨
        ∃ id s r, swamChooseScenario env.ucb d = (some (id, some s), r) ∧
          Tries env d m id s r attempted tried) := by
  unfold swamExploit at tries
  split at tries
  next r choice =>
    cases tries
    refine ⟨⟨_, _, _, rfl⟩, .inl ⟨rfl, .inl rfl, ?_⟩⟩
    simp [choice]
  next id r choice =>
    cases tries
    refine ⟨⟨_, _, _, rfl⟩, .inl ⟨rfl, .inr ⟨id, swamChooseScenario_id choice, rfl⟩, ?_⟩⟩
    simp [choice]
  next id s r choice =>
    split at tries
    next failed =>
      cases tries
      exact ⟨⟨_, _, _, rfl⟩, .inr ⟨id, s, r, choice, .cloneFailed failed⟩⟩
    next clone prepared =>
      obtain ⟨⟨failure, m', r'⟩, outcome, equal⟩ := Option.map_eq_some_iff.mp tries
      cases failure with
      | none =>
        cases equal
        exact ⟨⟨_, _, _, rfl⟩, .inr ⟨id, s, r, choice, .exploit prepared outcome⟩⟩
      | some reason =>
        cases equal
        exact ⟨⟨_, _, _, rfl⟩, .inr ⟨id, s, r, choice, .instantiateFailed prepared outcome⟩⟩

/-- The exploit half saves nothing, and an exploit is for a catalog scenario. -/
theorem swamExploit_state {d d' : Mutator} {m : Module} {attempted : Attempted}
    {tried : List Effect} (tries : swamExploit env d m = some (attempted, d', tried)) :
    (∃ r n sched, d' = { d with rand := r, exploitCnt := n, scheduler := sched }) ∧
      (∀ e ∈ tried, e.isBug = false) ∧
      ∀ s clone, attempted = .exploit s clone → ∃ id, swamGetScenario id = some s := by
  obtain ⟨state, ⟨rfl, quiet, _⟩ | ⟨id, s, r, choice, outcome⟩⟩ := swamExploit_cases tries
  · refine ⟨state, ?_, by simp⟩
    rcases quiet with rfl | ⟨id, _, rfl⟩ <;> simp [Effect.isBug]
  · refine ⟨state, ?_, fun s' clone same => ⟨id, ?_⟩⟩
    · cases outcome <;> simp [Effect.isBug]
    · rw [swamChooseScenario_id choice]
      cases outcome <;> cases same
      rfl

theorem wasmExplore_state (d : Mutator) (m : Module) :
    ∃ r, (wasmExplore env input d m).2 = { d with rand := r } := by
  unfold wasmExplore
  split <;> exact ⟨_, rfl⟩

/-- A call that parsed its input, taken apart. -/
theorem aflCustomFuzz_cases {d : Mutator} {result : CallResult}
    (returned : aflCustomFuzz env input d = some result) :
    (env.readInput input.buf = none ∧
      result = ⟨input.buf.take input.maxSize, none, .nothing, (swamSettle env.fopen d).2,
        (swamSettle env.fopen d).1⟩) ∨
    ∃ m d₁ d₂ tried module_, env.readInput input.buf = some m ∧
      swamExploit env (swamSettle env.fopen d).1 (m.setFeatures enabledFeatures) =
        some (result.attempted, d₁, tried) ∧
      (∃ r, d₂ = { d₁ with rand := r }) ∧
      (∀ s clone, result.attempted = .exploit s clone → module_ = clone) ∧
      swamFinish env input d₂ result.attempted module_ = (result.output, result.mutator) ∧
      result.outputModule = some module_ ∧ result.effects = (swamSettle env.fopen d).2 ++ tried := by
  unfold aflCustomFuzz at returned
  dsimp only at returned
  split at returned
  next unparsed =>
    cases returned
    exact .inl ⟨unparsed, rfl⟩
  next m parsed =>
    obtain ⟨⟨attempted, d₁, tried⟩, tries, equal⟩ := Option.map_eq_some_iff.mp returned
    refine .inr ⟨m, d₁, ?_⟩
    cases attempted with
    | exploit s clone =>
      cases equal
      exact ⟨d₁, tried, clone, parsed, tries, ⟨d₁.rand, rfl⟩, by simp, rfl, rfl, rfl⟩
    | nothing =>
      cases equal
      exact ⟨_, tried, _, parsed, tries, wasmExplore_state _ _, by simp, rfl, rfl, rfl⟩
    | cloneFailed s =>
      cases equal
      exact ⟨_, tried, _, parsed, tries, wasmExplore_state _ _, by simp, rfl, rfl, rfl⟩
    | instantiateFailed s =>
      cases equal
      exact ⟨_, tried, _, parsed, tries, wasmExplore_state _ _, by simp, rfl, rfl, rfl⟩

theorem swamSettle_lastWasExploit (fopen : Bool) (d : Mutator) :
    (swamSettle fopen d).1.lastWasExploit = false := by
  unfold swamSettle
  split
  · rfl
  next h => simpa using h

/-- Binaryen can copy the data segments of every clone of the input, so that it does not
end the process during instantiation. -/
def SegmentsReadable (env : CallEnv) (input : CallInput) : Prop :=
  ∀ m clone, env.readInput input.buf = some m →
    swamPrepareClone env (m.setFeatures enabledFeatures) = some clone → (copySegments clone).isSome

theorem swamExploit_returns (d : Mutator) {m : Module}
    (readable : ∀ clone, swamPrepareClone env m = some clone → (copySegments clone).isSome) :
    (swamExploit env d m).isSome := by
  unfold swamExploit
  split
  · rfl
  · rfl
  next s r _ =>
    split
    · rfl
    next clone prepared =>
      rw [Option.isSome_map]
      exact swamInstantiateScenario_returns _ _ _ _ (readable clone prepared)

theorem aflCustomFuzz_returns (d : Mutator) (readable : SegmentsReadable env input) :
    (aflCustomFuzz env input d).isSome := by
  unfold aflCustomFuzz
  dsimp only
  split
  · rfl
  next m parsed =>
    rw [Option.isSome_map]
    exact swamExploit_returns _ fun clone => readable m clone parsed

/-- The output contract, for whatever module exploring comes back with: a call returns, with at
most `max_size` bytes, either the complete serialisation of the module meant to be returned or
a prefix of the input, and the exploit flag only for a complete exploit module. -/
theorem aflCustomFuzz_output_contract (env : CallEnv) (input : CallInput) (d : Mutator) :
    (SegmentsReadable env input → (aflCustomFuzz env input d).isSome) ∧
    ∀ result, aflCustomFuzz env input d = some result →
      result.output.length ≤ input.maxSize ∧
      ((∃ m, result.outputModule = some m ∧ env.writeOutput m = some result.output) ∨
        result.output = input.buf.take (min input.buf.length input.maxSize)) ∧
      (result.mutator.lastWasExploit = true → ∃ s m, result.attempted = .exploit s m ∧
        result.outputModule = some m ∧ env.writeOutput m = some result.output) := by
  refine ⟨aflCustomFuzz_returns d, fun result returned => ?_⟩
  have clipped : input.buf.take (min input.buf.length input.maxSize) =
      input.buf.take input.maxSize := by
    rw [Nat.min_comm, ← List.take_take, List.take_length]
  rw [clipped]
  have settled := swamSettle_lastWasExploit env.fopen d
  rcases aflCustomFuzz_cases returned with ⟨_, rfl⟩ |
    ⟨m, d₁, d₂, tried, module_, _, tries, ⟨r, rfl⟩, chosen, finished, output, _⟩
  · refine ⟨List.length_take_le .., .inr rfl, fun flag => ?_⟩
    rw [settled] at flag
    cases flag
  · obtain ⟨⟨r', n, sched, equal⟩, _, _⟩ := swamExploit_state tries
    obtain ⟨short, written⟩ := swamFinish_output finished
    refine ⟨short, ?_, fun flag => ?_⟩
    · rcases written with complete | fallback
      · exact .inl ⟨module_, output, complete⟩
      · exact .inr fallback
    · rcases (swamFinish_state finished).2 with unchanged | ⟨s, clone, exploit, complete, _⟩
      · rw [unchanged, equal, settled] at flag
        cases flag
      · refine ⟨s, clone, exploit, ?_, ?_⟩
        · rw [output, chosen s clone exploit]
        · rw [← chosen s clone exploit]
          exact complete

end Call

/-- The binary of `oneFunctionModule 1`. -/
def oneFunctionBinary : List UInt8 :=
  [0x00, 0x61, 0x73, 0x6d, 0x01, 0x00, 0x00, 0x00, 0x01, 0x04, 0x01, 0x60, 0x00, 0x00, 0x03,
    0x02, 0x01, 0x00, 0x05, 0x03, 0x01, 0x00, 0x01, 0x07, 0x05, 0x01, 0x01, 0x66, 0x00, 0x00,
    0x0a, 0x05, 0x01, 0x03, 0x00, 0x01, 0x0b]

/-- The same module with the probe of the first scenario. -/
def probedBinary : List UInt8 :=
  [0x00, 0x61, 0x73, 0x6d, 0x01, 0x00, 0x00, 0x00, 0x01, 0x04, 0x01, 0x60, 0x00, 0x00, 0x03,
    0x02, 0x01, 0x00, 0x05, 0x03, 0x01, 0x00, 0x01, 0x06, 0x0b, 0x02, 0x7f, 0x01, 0x41, 0x00,
    0x0b, 0x7f, 0x01, 0x41, 0x00, 0x0b, 0x07, 0x32, 0x03, 0x01, 0x66, 0x00, 0x00, 0x14, 0x5f,
    0x5f, 0x73, 0x77, 0x61, 0x6d, 0x5f, 0x6d, 0x61, 0x72, 0x6b, 0x65, 0x72, 0x5f, 0x62, 0x65,
    0x66, 0x6f, 0x72, 0x65, 0x03, 0x00, 0x13, 0x5f, 0x5f, 0x73, 0x77, 0x61, 0x6d, 0x5f, 0x6d,
    0x61, 0x72, 0x6b, 0x65, 0x72, 0x5f, 0x61, 0x66, 0x74, 0x65, 0x72, 0x03, 0x01, 0x0a, 0x21,
    0x01, 0x1f, 0x01, 0x01, 0x7f, 0x41, 0x01, 0x24, 0x00, 0x3f, 0x00, 0x41, 0x80, 0x80, 0x04,
    0x6c, 0x41, 0x02, 0x6e, 0x21, 0x00, 0x20, 0x00, 0x28, 0x02, 0x00, 0x1a, 0x41, 0x01, 0x24,
    0x01, 0x01, 0x0b]

theorem probedBinary_length : probedBinary.length = 123 := by decide +kernel

/-- Services that know these two binaries only. -/
def probingEnv : CallEnv where
  readInput := fun buf => if buf.isEmpty then none else some (oneFunctionModule 1)
  writeClone := fun _ => some oneFunctionBinary
  readClone := fun _ => some (oneFunctionModule 1)
  readSplice := fun _ => none
  writeOutput := fun _ => some probedBinary
  exploit := .accepting
  ucb := ⟨Unit, fun _ _ _ => (), (), fun _ _ => false, fun _ _ => true⟩
  explore := fun m _ r => (m, r)
  malloc := true
  fopen := true

/-- A mutator without scheduler statistics, whose draws are all zero. -/
def probingStart : Mutator := aflCustomInit false none ⟨none, none⟩ ⟨fun _ => 0, 0⟩

private theorem probingEnv_readable (input : CallInput) : SegmentsReadable probingEnv input := by
  rintro m clone _ prepared
  cases prepared
  rfl

/-- What a call with these services returns. -/
def probingCall (input : CallInput) (d : Mutator) : CallResult :=
  (aflCustomFuzz probingEnv input d).get (aflCustomFuzz_returns d (probingEnv_readable input))

private theorem aflCustomFuzz_probing (input : CallInput) (d : Mutator) :
    aflCustomFuzz probingEnv input d = some (probingCall input d) :=
  (Option.some_get _).symm

theorem aflCustomFuzz_probes :
    SegmentsReadable probingEnv ⟨oneFunctionBinary, none, 4096⟩ ∧
      ∃ result, aflCustomFuzz probingEnv ⟨oneFunctionBinary, none, 4096⟩ probingStart =
        some result ∧ result.output.length ≤ 4096 ∧ result.mutator.lastWasExploit = true ∧
        ∃ s m, result.attempted = .exploit s m ∧ result.outputModule = some m ∧
          probingEnv.writeOutput m = some result.output := by
  have returned := aflCustomFuzz_probing ⟨oneFunctionBinary, none, 4096⟩ probingStart
  obtain ⟨short, _, exploit⟩ :=
    (aflCustomFuzz_output_contract probingEnv _ probingStart).2 _ returned
  have flag : (probingCall ⟨oneFunctionBinary, none, 4096⟩ probingStart).mutator.lastWasExploit = true := by
    decide +kernel
  exact ⟨probingEnv_readable _, _, returned, short, flag, exploit flag⟩

/-! ## Runs -/

/-- A call with the state it starts from and what it returned. -/
structure Call where
  env : CallEnv
  input : CallInput
  start : Mutator
  result : CallResult

/-- The state after the harness wrote the marker area. -/
def Mutator.marked (d : Mutator) (area : MarkerArea) : Mutator := { d with markers := area }

/-- The harness writes the marker area, then the mutator is called. -/
def callStep (d : Mutator) (c : Call) (d' : Mutator) : Prop :=
  (∃ area, c.start = d.marked area) ∧
    aflCustomFuzz c.env c.input c.start = some c.result ∧ d' = c.result.mutator

/-- The state after `afl_custom_init`, whatever the allocator, the environment and the
random source. -/
def Mutator.Initial (d : Mutator) : Prop :=
  ∃ calloc runtime markers r, d = aflCustomInit calloc runtime markers r

/-- What a pending exploit module refers to: the call that just returned it. -/
structure Held (d : Mutator) (c : Call) : Prop where
  exploit : ∃ s m, c.result.attempted = .exploit s m ∧
    swamGetScenario d.lastScenarioId = some s ∧ c.env.writeOutput m = some c.result.output
  pending : d.pendingModule = some c.result.output
  size : d.pendingModuleSize = c.result.output.length
  reset : d.markers = swamMarkersReset c.start.markers

/-- The state between two calls. -/
def Settled (calls : List Call) (d : Mutator) : Prop :=
  d.Capped ∧ (d.lastWasExploit = true → ∃ c past, calls = c :: past ∧ Held d c)

/-- Settling accounts with the previous call: one record for its scenario, bug files
only of its module and only for a mismatch. -/
theorem swamSettle_spec (fopen : Bool) {calls : List Call} {d : Mutator} (area : MarkerArea)
    (settled : Settled calls d) :
    (d.marked area).Kept (swamSettle fopen (d.marked area)).1 ∧
      (d.lastWasExploit = false → (swamSettle fopen (d.marked area)).2 = []) ∧
      (d.lastWasExploit = true → ∃ c past s m saves, calls = c :: past ∧ Held d c ∧
        c.result.attempted = .exploit s m ∧ swamGetScenario d.lastScenarioId = some s ∧
        c.env.writeOutput m = some c.result.output ∧
        (swamSettle fopen (d.marked area)).2 =
          .update s.id (swamClassify s (swamMarkersRead area)) :: saves ∧
        ∀ e ∈ saves, (∃ f, e = .saveUnknown f) ∨
          ((∃ n tag, e = .saveBug ⟨n, s, tag, c.result.output⟩) ∧
            Mismatch s (swamMarkersRead area))) := by
  by_cases flag : d.lastWasExploit = true
  · have taken : (d.marked area).lastWasExploit = true := flag
    rw [swamSettle, if_pos taken]
    obtain ⟨c, past, rfl, held⟩ := settled.2 flag
    obtain ⟨s, m, attempted, found, written⟩ := held.exploit
    obtain ⟨⟨markers, capped⟩, saves, effects, pending, reported⟩ :=
      swamOracleCheck_spec fopen (d := d.marked area) (s := s) found
    refine ⟨⟨markers, fun held => ?_⟩, fun h => absurd flag (by simp [h]), fun _ => ?_⟩
    · obtain ⟨bugs, unknowns⟩ := capped held
      exact ⟨bugs, unknowns⟩
    refine ⟨c, past, s, m, saves, rfl, held, attempted, found, written, effects, ?_⟩
    intro e member
    rcases pending e member with unknown | ⟨n, tag, bytes, same, equal⟩
    · exact .inl unknown
    · have whole : bytes = c.result.output := Option.some.inj (same.symm.trans held.pending)
      have content : bytes.take d.pendingModuleSize = c.result.output := by
        rw [whole, held.size, List.take_length]
      have mismatch : Mismatch s (swamMarkersRead area) := by
        rcases reported with mismatch | ⟨_, noBug⟩
        · exact mismatch
        · have impossible := noBug e member
          rw [equal] at impossible
          cases impossible
      refine .inr ⟨⟨n, tag, ?_⟩, mismatch⟩
      rw [← content]
      exact equal
  · have skipped : ¬ (d.marked area).lastWasExploit = true := flag
    rw [swamSettle, if_neg skipped]
    exact ⟨⟨rfl, id⟩, fun _ => rfl, fun h => absurd h flag⟩

/-- One call keeps the state between calls. -/
theorem callStep_settled {calls : List Call} {d d' : Mutator} {c : Call}
    (settled : Settled calls d) (step : callStep d c d') : Settled (c :: calls) d' := by
  obtain ⟨⟨area, start⟩, returned, rfl⟩ := step
  rw [start] at returned
  obtain ⟨markers, bounded⟩ := (swamSettle_spec c.env.fopen area settled).1
  have capped := bounded ⟨settled.1.bugs, settled.1.unknowns⟩
  have cleared := swamSettle_lastWasExploit c.env.fopen (d.marked area)
  rcases aflCustomFuzz_cases returned with ⟨_, equal⟩ |
    ⟨m, d₁, d₂, tried, module_, _, tries, ⟨r, rfl⟩, chosen, finished, output, _⟩
  · rw [equal]
    refine ⟨capped, fun flag => ?_⟩
    rw [cleared] at flag
    cases flag
  · obtain ⟨⟨r', n, sched, rfl⟩, _, catalog⟩ := swamExploit_state tries
    obtain ⟨⟨bugs, unknowns⟩, last⟩ := swamFinish_state finished
    refine ⟨⟨?_, ?_⟩, fun flag => ⟨c, calls, rfl, ?_⟩⟩
    · rw [bugs]
      exact capped.bugs
    · rw [unknowns]
      exact capped.unknowns
    · rcases last with unchanged | ⟨s, clone, exploit, complete, kept⟩
      · rw [unchanged, cleared] at flag
        cases flag
      · obtain ⟨id, found⟩ := catalog s clone exploit
        have same := (swamGetScenario_eq_some found).2.1
        rw [kept]
        refine ⟨⟨s, clone, exploit, ?_, ?_⟩, rfl, rfl, ?_⟩
        · simpa [same] using found
        · rw [← chosen s clone exploit]
          exact complete
        · rw [start]
          exact congrArg swamMarkersReset markers

theorem run_settled {calls : List Call} {d : Mutator}
    (run : Trace Mutator.Initial callStep calls d) : Settled calls d := by
  refine run.history ?_ fun _ _ _ _ settled step => callStep_settled settled step
  rintro d ⟨calloc, runtime, markers, r, rfl⟩
  exact ⟨⟨fun _ _ => Nat.zero_le _, fun _ => Nat.zero_le _⟩, fun flag => Bool.noConfusion flag⟩

/-- A call with these services, after the harness wrote the marker area. -/
def probing (d : Mutator) (area : MarkerArea) (input : CallInput) : Call where
  env := probingEnv
  input := input
  start := d.marked area
  result := probingCall input (d.marked area)

theorem probing_step (d : Mutator) (area : MarkerArea) (input : CallInput) :
    callStep d (probing d area input) (probing d area input).result.mutator :=
  ⟨⟨area, rfl⟩, aflCustomFuzz_probing _ _, rfl⟩

end Swam
