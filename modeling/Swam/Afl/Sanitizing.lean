import Swam.Afl.Classification

/-!
# Which inputs the sanitizers see

With the unique-trace abstraction an input goes to the sanitizer binaries when the bit of
its trace is not set in `n_fuzz_dup`. The bit is looked up under `cksum` and set under the
hash of the trace; the two agree where the schedule has made `cksum` the hash of the trace.
-/
namespace Swam.Afl

/-! ## What a block leaves alone -/

/-- No sanitizer ran and no trace was recorded in between. -/
structure Unsanitized (a b : AflState) : Prop where
  nFuzzDup : b.nFuzzDup = a.nFuzzDup
  sanRuns : b.sanRuns = a.sanRuns

namespace Unsanitized

variable {env : SaveEnv} {a b c : AflState}

theorem refl (a : AflState) : Unsanitized a a := ⟨rfl, rfl⟩

/-- Fields that do not matter here. -/
theorem same (kept : Unsanitized a b) (nFuzzDup : c.nFuzzDup = b.nFuzzDup)
    (sanRuns : c.sanRuns = b.sanRuns) : Unsanitized a c :=
  ⟨nFuzzDup.trans kept.nFuzzDup, sanRuns.trans kept.sanRuns⟩

theorem observe {k : Calibration} (kept : Unsanitized a k.afl) :
    Unsanitized a (k.observe env).afl := by
  simp only [Calibration.observe]
  split
  · split <;> exact kept.same rfl rfl
  · exact kept.same rfl rfl

theorem calibrateLoop : ∀ n (k : Calibration), Unsanitized a k.afl →
    Unsanitized a (calibrateLoop env n k).2.afl
  | 0, k, kept => kept
  | n + 1, k, kept => by
    have ran : Unsanitized a (k.afl.run env).2 := kept.same rfl rfl
    simp only [Afl.calibrateLoop]
    split
    · split
      · exact ran
      · split
        · exact ran
        · exact Unsanitized.calibrateLoop n _ ran.observe
    · exact kept

theorem calibrateCase (kept : Unsanitized a b) : Unsanitized a (calibrateCase env b).2 := by
  rw [Afl.calibrateCase]
  split
  · exact kept
  next entry queue _ =>
    have begun : Unsanitized a (beginCalibration env entry b).afl := by
      simp only [beginCalibration]
      generalize (if env.cmplogMode then { entry with execCksum := 0 } else entry) = current
      split <;> exact kept.same rfl rfl
    exact (Unsanitized.calibrateLoop calCyclesLong _ begun).same rfl rfl

theorem classifyIfNecessary {s : Call} (kept : Unsanitized a s.afl) :
    Unsanitized a (classifyIfNecessary s).afl := by
  rw [Afl.classifyIfNecessary]
  split <;> exact kept.same rfl rfl

theorem calculateCksumIfNecessary {s : Call} (kept : Unsanitized a s.afl) :
    Unsanitized a (calculateCksumIfNecessary env s).afl := by
  rw [Afl.calculateCksumIfNecessary]
  split
  · exact kept
  · exact kept.classifyIfNecessary

theorem calculateNewBitsIfNecessary {s : Call} (kept : Unsanitized a s.afl) :
    Unsanitized a (calculateNewBitsIfNecessary env s).afl := by
  simp only [Afl.calculateNewBitsIfNecessary, AflState.scanUnclassified]
  split
  · exact kept
  · split
    · exact kept.same rfl rfl
    · split <;> exact kept.same rfl rfl

theorem saveToQueue {s : Call} (kept : Unsanitized a s.afl) :
    Unsanitized a (saveToQueue env s).2.afl := by
  have ready : Unsanitized a
      (Afl.calculateNewBitsIfNecessary env (Afl.calculateCksumIfNecessary env s)).afl :=
    kept.calculateCksumIfNecessary.calculateNewBitsIfNecessary
  simp only [Afl.saveToQueue]
  generalize Afl.calculateNewBitsIfNecessary env (Afl.calculateCksumIfNecessary env s) = t
    at ready ⊢
  have queued : Unsanitized a (addToQueue env t) := by
    simp only [addToQueue]
    split <;> exact ready.same rfl rfl
  split <;> exact queued.calibrateCase

theorem uniqueFault (which : VirginMap) (kept : Unsanitized a b) :
    Unsanitized a (uniqueFault env which b).2 := by
  rw [Afl.uniqueFault]
  split <;> exact kept.same rfl rfl

theorem saveHang {s : Call} (kept : Unsanitized a s.afl) :
    Unsanitized a (saveHang env s).2.afl := by
  simp only [Afl.saveHang]
  have counted : Unsanitized a { s.afl with totalTmouts := s.afl.totalTmouts + 1 } :=
    kept.same rfl rfl
  split
  · exact counted
  · have tested := @Unsanitized.uniqueFault env _ _ .tmout counted
    generalize Afl.uniqueFault env .tmout _ = test at tested ⊢
    -- the second execution is one of the main target
    have ran : Unsanitized a (test.2.run env).2 := tested.same rfl rfl
    split
    · exact tested
    · split
      · split
        · exact ran
        · split
          · split <;> exact ran.same rfl rfl
          · exact ran.same rfl rfl
      · exact tested.same rfl rfl

theorem keepAsCrash {s : Call} (kept : Unsanitized a s.afl) :
    Unsanitized a (keepAsCrash env s).2.afl := by
  simp only [Afl.keepAsCrash]
  have counted : Unsanitized a { s.afl with totalCrashes := s.afl.totalCrashes + 1 } :=
    kept.same rfl rfl
  split
  · exact counted
  · have tested := @Unsanitized.uniqueFault env _ _ .crash counted
    split <;> exact tested.same rfl rfl

/-- After the first label the sanitizers are done. -/
theorem stepCall {c : Point × Call} (kept : Unsanitized a c.2.afl) :
    Unsanitized a (stepCall env c).2.afl := by
  obtain ⟨point, s⟩ := c
  cases point with
  | saveToQueue => exact kept.saveToQueue
  | maySaveFault =>
    simp only [Afl.stepCall, maySaveFault]
    split
    · exact kept.saveHang
    all_goals exact kept
  | keepAsCrash => exact kept.keepAsCrash
  | returned keeping => exact kept
  | fatal => exact kept

theorem saveIfInteresting (env : SaveEnv) (a : AflState) (len : Nat) (fault : FsrvRun) (n : Nat) :
    Unsanitized (enterCall env a len fault).2.afl (saveIfInteresting env a len fault n).2.afl := by
  induction n with
  | zero => exact refl _
  | succ n ih =>
    rw [Afl.saveIfInteresting, Function.iterate_succ_apply']
    exact ih.stepCall

end Unsanitized

/-! ## One call -/

/-- The classified trace of the input a call is about. -/
def inputTrace (a : AflState) : List Word := (classifyCounts a.cov).traceBits

/-- The bit of `n_fuzz_dup` that is looked up: `cksum` is only computed by the schedules that
count paths, and is 0 otherwise. -/
def lookupKey (env : SaveEnv) (a : AflState) : Nat :=
  if env.schedule.frequency then env.hash64 (inputTrace a) % 2 ^ 32 else 0

theorem runSanitizers_counted (env : SaveEnv) : ∀ n (a : AflState),
    (runSanitizers env n a).2.nFuzzDup = a.nFuzzDup ∧
      a.sanRuns ≤ (runSanitizers env n a).2.sanRuns ∧
      (n ≠ 0 → a.sanRuns < (runSanitizers env n a).2.sanRuns)
  | 0, a => ⟨rfl, Nat.le_refl _, fun none => absurd rfl none⟩
  | n + 1, a => by
    simp only [runSanitizers]
    split
    · exact ⟨rfl, Nat.le_succ _, fun _ => Nat.lt_succ_self _⟩
    · obtain ⟨same, more, _⟩ := runSanitizers_counted env n { a with
        sanRuns := a.sanRuns + 1
        sanCrashOnly := a.sanCrashOnly || env.sanitizer a.sanRuns ≠ .ok }
      exact ⟨same, Nat.le_of_succ_le more, fun _ => more⟩

section OneCall

variable {env : SaveEnv} {a : AflState} {len : Nat} {fault : FsrvRun}

theorem normalExecution_spec (s : Call) :
    Unsanitized (sanitize env s).2.afl (normalExecution env s).2.afl := by
  have counted : Unsanitized (sanitize env s).2.afl
      (calculateNewBitsIfNecessary env (sanitize env s).2).afl :=
    (Unsanitized.refl _).calculateNewBitsIfNecessary
  simp only [normalExecution]
  generalize calculateNewBitsIfNecessary env (sanitize env s).2 = t at counted ⊢
  split
  · split <;> exact counted.same rfl rfl
  · exact counted.same rfl rfl

/-- Counting the path classifies the trace and leaves its hash in `cksum`. -/
theorem updateFrequency_counted (env : SaveEnv) (a : AflState) (fault : FsrvRun) :
    let s := updateFrequency env (Call.initial a fault).resetSan
    Unsanitized a s.afl ∧ s.cksum % 2 ^ 32 = lookupKey env a ∧
      (classifyIfNecessary s).afl.cov.traceBits = inputTrace a := by
  unfold updateFrequency lookupKey
  split
  · exact ⟨⟨rfl, rfl⟩, rfl, rfl⟩
  · exact ⟨⟨rfl, rfl⟩, rfl, rfl⟩

theorem enterCall_other (other : len = 0 ∨ fault ≠ env.normal) :
    Unsanitized a (enterCall env a len fault).2.afl := by
  unfold enterCall
  dsimp only
  split
  · exact .refl a
  next nonempty =>
    split
    · split <;> exact ⟨rfl, rfl⟩
    · rw [if_neg (other.resolve_left nonempty)]
      exact (updateFrequency_counted env a fault).1

/-- With sanitizers and the unique-trace abstraction a normal input is fed exactly when its
bit is not set, and then the bit of its trace gets set. -/
theorem enterCall_normal (nonempty : len ≠ 0) (unique : env.sanAbstraction = .uniqueTrace)
    (binaries : env.sanBinaryLength ≠ 0) :
    let b := (enterCall env a len env.normal).2.afl
    if a.nFuzzDup (lookupKey env a) then Unsanitized a b
    else b.nFuzzDup = Function.update a.nFuzzDup (env.hash32 (inputTrace a)) true ∧
      a.sanRuns < b.sanRuns := by
  have noTimeout : ¬ (env.normal = .tmout ∧ env.ignoreTimeouts = true) := by
    unfold SaveEnv.normal
    cases env.crashMode <;> simp
  have entered : enterCall env a len env.normal =
      normalExecution env (updateFrequency env (Call.initial a env.normal).resetSan) := by
    simp only [enterCall, if_neg nonempty, if_neg noTimeout, if_true]
  obtain ⟨counted, key, trace⟩ := updateFrequency_counted env a env.normal
  dsimp only
  rw [entered]
  generalize updateFrequency env (Call.initial a env.normal).resetSan = s at counted key trace ⊢
  have classified : Unsanitized a (classifyIfNecessary s).afl := counted.classifyIfNecessary
  have cksum : (classifyIfNecessary s).cksum = s.cksum := by
    unfold classifyIfNecessary
    split <;> rfl
  have rest : Unsanitized (sanitize env s).2.afl (normalExecution env s).2.afl :=
    normalExecution_spec s
  have fed : feedSan env s =
      if a.nFuzzDup (lookupKey env a) then (false, classifyIfNecessary s)
      else (true, { classifyIfNecessary s with
        afl.nFuzzDup := Function.update a.nFuzzDup (env.hash32 (inputTrace a)) true }) := by
    simp only [feedSan, if_neg binaries, unique, trace, cksum, key, classified.nFuzzDup]
  simp only [sanitize, fed] at rest
  split
  next seen =>
    simp only [seen, if_true, Bool.false_eq_true, if_false] at rest
    exact classified.same rest.nFuzzDup rest.sanRuns
  next unseen =>
    simp only [unseen] at rest
    obtain ⟨same, _, more⟩ := runSanitizers_counted env env.sanBinaryLength
      { (classifyIfNecessary s).afl with
        nFuzzDup := Function.update a.nFuzzDup (env.hash32 (inputTrace a)) true }
    have started : a.sanRuns = (classifyIfNecessary s).afl.sanRuns := classified.sanRuns.symm
    refine ⟨rest.nFuzzDup.trans same, ?_⟩
    rw [rest.sanRuns, started]
    exact more binaries

end OneCall

/-! ## Histories -/

/-- A call of `save_if_interesting` as far as it has run. -/
structure SaveCall where
  env : SaveEnv
  afl : AflState
  len : Nat
  fault : FsrvRun
  blocks : Nat

namespace SaveCall

def after (c : SaveCall) : AflState :=
  (saveIfInteresting c.env c.afl c.len c.fault c.blocks).2.afl

def trace (c : SaveCall) : List Word := inputTrace c.afl

/-- `fault == afl->crash_mode`. -/
def Normal (c : SaveCall) : Prop := c.fault = c.env.normal

/-- A sanitizer binary ran during the call. -/
def Fed (c : SaveCall) : Prop := c.afl.sanRuns < c.after.sanRuns

instance (c : SaveCall) : Decidable c.Normal := inferInstanceAs (Decidable (_ = _))

instance (c : SaveCall) : Decidable c.Fed := inferInstanceAs (Decidable (_ < _))

end SaveCall

section Histories

variable (hash : List Word → Nat)

/-- The 32-bit hash of the trace, its bit in `n_fuzz_dup`. -/
def SaveCall.bit (c : SaveCall) : Nat := hash c.trace % 2 ^ 32

/-- The calls of a campaign, the latest first, and the bits of `n_fuzz_dup` they leave. The
schedule and everything else may change between two calls. -/
inductive SaveRun : List SaveCall → (Nat → Bool) → Prop where
  | start : SaveRun [] fun _ => false
  | call {past : List SaveCall} {seen : Nat → Bool} (run : SaveRun past seen) (c : SaveCall)
      (hash64 : c.env.hash64 = hash) (hash32 : c.env.hash32 = fun trace => hash trace % 2 ^ 32)
      (unique : c.env.sanAbstraction = .uniqueTrace) (binaries : c.env.sanBinaryLength ≠ 0)
      (nFuzzDup : c.afl.nFuzzDup = seen) : SaveRun (c :: past) c.after.nFuzzDup

/-- No trace is fed a second time, and a trace with a new hash is fed. -/
def Deduplicated : List SaveCall → Prop
  | [] => True
  | c :: past => Deduplicated past ∧ (c.Normal →
      ((∃ d ∈ past, d.Normal ∧ d.trace = c.trace) → ¬ c.Fed) ∧
      ((∀ d ∈ past, d.Normal → d.bit hash ≠ c.bit hash) → c.Fed))

/-- The lookup answers for the trace of the input: the schedule counts paths, or bit 0 happens
to have the same value as the bit of the trace. An empty input is not looked up at all, which
is as if its bit were set. -/
def SaveCall.Keyed (c : SaveCall) : Prop :=
  if c.len = 0 then c.afl.nFuzzDup (c.bit hash) = true
  else c.env.schedule.frequency = true ∨
    c.afl.nFuzzDup 0 = c.afl.nFuzzDup (c.bit hash)

instance (c : SaveCall) : Decidable (c.Keyed hash) := inferInstanceAs (Decidable (ite _ _ _))

/-- Normal inputs with the same hash have the same trace. -/
def NoCollisions (calls : List SaveCall) : Prop :=
  ∀ c ∈ calls, ∀ d ∈ calls, c.Normal → d.Normal →
    c.bit hash = d.bit hash → c.trace = d.trace

variable {hash}

theorem SaveCall.after_same (c : SaveCall) :
    Unsanitized (enterCall c.env c.afl c.len c.fault).2.afl c.after :=
  Unsanitized.saveIfInteresting c.env c.afl c.len c.fault c.blocks

theorem SaveCall.other (c : SaveCall) (other : c.len = 0 ∨ ¬ c.Normal) :
    c.after.nFuzzDup = c.afl.nFuzzDup ∧ ¬ c.Fed := by
  have entered := @enterCall_other c.env c.afl c.len c.fault other
  have kept := entered.same c.after_same.nFuzzDup c.after_same.sanRuns
  refine ⟨kept.nFuzzDup, ?_⟩
  rw [SaveCall.Fed, kept.sanRuns]
  exact Nat.lt_irrefl _

/-- One call of a run: whether it is fed and what it records depend on the bit looked up. -/
theorem SaveCall.looked (c : SaveCall) (normal : c.Normal) (nonempty : c.len ≠ 0)
    (hash32 : c.env.hash32 = fun trace => hash trace % 2 ^ 32)
    (unique : c.env.sanAbstraction = .uniqueTrace) (binaries : c.env.sanBinaryLength ≠ 0) :
    (c.Fed ↔ c.afl.nFuzzDup (lookupKey c.env c.afl) = false) ∧
      c.after.nFuzzDup = if c.afl.nFuzzDup (lookupKey c.env c.afl) then c.afl.nFuzzDup
        else Function.update c.afl.nFuzzDup (c.bit hash) true := by
  have entered := @enterCall_normal c.env c.afl c.len nonempty unique binaries
  rw [← show c.fault = c.env.normal from normal] at entered
  have after := c.after_same
  simp only [hash32] at entered
  unfold SaveCall.Fed
  split at entered
  next seen =>
    have kept := entered.same after.nFuzzDup after.sanRuns
    simp [seen, kept.nFuzzDup, kept.sanRuns]
  next unseen =>
    obtain ⟨recorded, fed⟩ := entered
    rw [← after.sanRuns] at fed
    simp only [Bool.not_eq_true] at unseen
    simp only [unseen, fed, true_and, Bool.false_eq_true, if_false]
    rw [after.nFuzzDup, recorded]
    rfl

/-- For a keyed call both depend on the bit of its own trace. -/
theorem SaveCall.keyed_spec (c : SaveCall) (normal : c.Normal) (keyed : c.Keyed hash)
    (hash64 : c.env.hash64 = hash) (hash32 : c.env.hash32 = fun trace => hash trace % 2 ^ 32)
    (unique : c.env.sanAbstraction = .uniqueTrace) (binaries : c.env.sanBinaryLength ≠ 0) :
    (c.Fed ↔ c.afl.nFuzzDup (c.bit hash) = false) ∧
      ∀ k, c.after.nFuzzDup k = true ↔
        c.afl.nFuzzDup k = true ∨ c.bit hash = k := by
  unfold SaveCall.Keyed at keyed
  split at keyed
  next empty =>
    obtain ⟨same, unfed⟩ := c.other (.inl empty)
    refine ⟨by simp [unfed, keyed], fun k => ?_⟩
    rw [same]
    exact ⟨.inl, fun h => h.elim id fun equal => equal ▸ keyed⟩
  next nonempty =>
    obtain ⟨fed, after⟩ := c.looked normal nonempty hash32 unique binaries
    have bit : c.afl.nFuzzDup (lookupKey c.env c.afl) =
        c.afl.nFuzzDup (c.bit hash) := by
      unfold lookupKey
      split
      · rw [hash64]
        rfl
      next rare => exact keyed.resolve_left rare
    rw [bit] at fed after
    refine ⟨fed, fun k => ?_⟩
    rw [after]
    split
    next seen => exact ⟨.inl, fun h => h.elim id fun equal => equal ▸ seen⟩
    · by_cases equal : k = c.bit hash
      · simp [equal]
      · simp [Function.update_of_ne equal, Ne.symm equal]

/-- Induction on the run: while all calls are keyed, the bits set are the hashes seen. -/
theorem SaveRun.seen_iff {calls : List SaveCall} {seen : Nat → Bool}
    (run : SaveRun hash calls seen) (keyed : ∀ c ∈ calls, c.Normal → c.Keyed hash) (k : Nat) :
    seen k = true ↔ ∃ d ∈ calls, d.Normal ∧ d.bit hash = k := by
  induction run with
  | start => simp
  | @call past seen run c hash64 hash32 unique binaries nFuzzDup ih =>
    have earlier := ih fun d member => keyed d (List.mem_cons_of_mem c member)
    simp only [List.mem_cons, exists_eq_or_imp, ← earlier]
    by_cases normal : c.Normal
    · have one := (c.keyed_spec normal (keyed c List.mem_cons_self normal) hash64 hash32 unique
        binaries).2 k
      rw [one, nFuzzDup]
      simp [normal, or_comm]
    · simp [(c.other (.inr normal)).1, normal, nFuzzDup]

/-- While the lookup answers for the trace of each input, no trace is fed twice and every new
one is; without colliding hashes these are the only such histories. -/
theorem sanitizers_deduplicate {calls : List SaveCall} {seen : Nat → Bool}
    (run : SaveRun hash calls seen) :
    ((∀ c ∈ calls, c.Normal → c.Keyed hash) → Deduplicated hash calls) ∧
      (NoCollisions hash calls → Deduplicated hash calls →
        ∀ c ∈ calls, c.Normal → c.Keyed hash) := by
  induction run with
  | start => simp [Deduplicated]
  | @call past seen run c hash64 hash32 unique binaries nFuzzDup ih =>
    constructor
    · intro keyed
      have earlier : ∀ d ∈ past, d.Normal → d.Keyed hash := fun d member =>
        keyed d (List.mem_cons_of_mem c member)
      refine ⟨ih.1 earlier, fun normal => ?_⟩
      have fed := (c.keyed_spec normal (keyed c List.mem_cons_self normal) hash64 hash32 unique
        binaries).1
      have seen_iff := run.seen_iff earlier (c.bit hash)
      rw [nFuzzDup] at fed
      constructor
      · rintro ⟨d, member, before, equal⟩
        rw [fed, seen_iff.mpr ⟨d, member, before, by rw [SaveCall.bit, equal, SaveCall.bit]⟩]
        decide
      · intro fresh
        rw [fed, ← Bool.not_eq_true, seen_iff]
        rintro ⟨d, member, before, equal⟩
        exact fresh d member before equal
    · rintro distinct ⟨deduplicated, here⟩
      have earlier := ih.2 (fun d member e member' => distinct d (List.mem_cons_of_mem c member)
        e (List.mem_cons_of_mem c member')) deduplicated
      have seen_iff := run.seen_iff earlier (c.bit hash)
      rw [← nFuzzDup] at seen_iff
      rw [List.forall_mem_cons]
      refine ⟨fun normal => ?_, earlier⟩
      obtain ⟨old, new⟩ := here normal
      -- what was not seen has to be fed
      have unfed (unfed : ¬ c.Fed) : c.afl.nFuzzDup (c.bit hash) = true := by
        by_contra unseen
        rw [seen_iff] at unseen
        exact unfed (new fun d member before equal => unseen ⟨d, member, before, equal⟩)
      unfold SaveCall.Keyed
      split
      next empty => exact unfed (c.other (.inl empty)).2
      next nonempty =>
        by_cases frequency : c.env.schedule.frequency = true
        · exact .inl frequency
        · right
          have fed := (c.looked normal nonempty hash32 unique binaries).1
          rw [lookupKey, if_neg frequency] at fed
          cases bit : c.afl.nFuzzDup 0 with
          | true => exact (unfed (by simp [fed, bit])).symm
          | false =>
            symm
            rw [← Bool.not_eq_true, seen_iff]
            rintro ⟨d, member, before, equal⟩
            have same := distinct d (List.mem_cons_of_mem c member) c List.mem_cons_self before
              normal equal
            exact old ⟨d, member, before, same⟩ (fed.mpr bit)

end Histories

/-- The target of `steadyEnv` with one sanitizer binary, under a given schedule. -/
def sanitizedEnv (schedule : Schedule) : SaveEnv :=
  { steadyEnv with
    hash32 := fun trace => steadyEnv.hash64 trace % 2 ^ 32
    schedule
    sanAbstraction := .uniqueTrace
    sanBinaryLength := 1 }

/-- The same input for the first and for the second time. -/
def firstCall (schedule : Schedule) : SaveCall := ⟨sanitizedEnv schedule, emptyState, 1, .ok, 0⟩

def secondCall (schedule : Schedule) : SaveCall :=
  ⟨sanitizedEnv schedule, (firstCall schedule).after, 1, .ok, 0⟩

theorem twoCalls_run (schedule : Schedule) : SaveRun steadyEnv.hash64
    [secondCall schedule, firstCall schedule] (secondCall schedule).after.nFuzzDup :=
  .call (.call .start (firstCall schedule) rfl rfl rfl Nat.one_ne_zero rfl)
    (secondCall schedule) rfl rfl rfl Nat.one_ne_zero rfl

theorem sanitizers_deduplicate_fast :
    Deduplicated steadyEnv.hash64 [secondCall .fast, firstCall .fast] :=
  (sanitizers_deduplicate (twoCalls_run .fast)).1 (by decide)

/-- Under a schedule that does not count paths the sanitizers see the same trace twice. -/
theorem sanitizers_repeat : ∃ seen calls, SaveRun steadyEnv.hash64 calls seen ∧
    (∀ c ∈ calls, c.Normal ∧ c.len ≠ 0) ∧ ¬ Deduplicated steadyEnv.hash64 calls := by
  refine ⟨_, _, twoCalls_run .explore, by decide, ?_⟩
  rintro ⟨_, second⟩
  exact (second (by decide)).1 ⟨_, List.mem_cons_self, by decide, rfl⟩ (by decide)

end Swam.Afl
