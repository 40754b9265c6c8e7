import Swam.Afl.ForkserverRuns

/-!
# Calls of the fork server return

Between two requests only some steps are possible, and with `SIGKILL` one of them is as long as a
call has not returned, even when the child does nothing. A child that catches another signal may
keep the call waiting. A process does no more executions than its loop allows.
-/
namespace Swam.Afl.Forkserver

open Lib

variable {cfg : Config} {s s' : State}

/-! ## What a step does to the processes -/

/-- The ways in which the processes and the executions change. -/
inductive Effect (cfg : Config) (s s' : State) : Prop
  | none (procs : s'.procs = s.procs) (executions : s'.executions = s.executions)
      (next : s'.nextPid = s.nextPid)
  | collect (pid status : Nat) (before : s.procs pid = some (.zombie status))
      (procs : s'.procs = Function.update s.procs pid .none)
      (executions : s'.executions = s.executions) (next : s'.nextPid = s.nextPid)
  | fork (procs : s'.procs = Function.update s.procs s.nextPid (some (.running cfg.cycleCnt)))
      (executions : s'.executions = s.executions) (next : s'.nextPid = s.nextPid + 1)
  | resume (pid : Nat) (cycleCnt : BitVec 32) (before : s.procs pid = some (.stopped cycleCnt))
      (procs : s'.procs = Function.update s.procs pid (some (.running cycleCnt)))
      (executions : s'.executions = s.executions) (next : s'.nextPid = s.nextPid)
  | stop (pid : Nat) (cycleCnt : BitVec 32) (persistent : cfg.isPersistent = true)
      (before : s.procs pid = some (.running cycleCnt)) (more : cycleCnt - 1 ≠ 0)
      (procs : s'.procs = Function.update s.procs pid (some (.stopped (cycleCnt - 1))))
      (executions : ∃ e, s'.executions = e :: s.executions ∧ e.pid = pid) (next : s'.nextPid = s.nextPid)
  | die (pid : Nat) (cycleCnt : BitVec 32) (status : Nat)
      (before : s.procs pid = some (.running cycleCnt))
      (procs : s'.procs = Function.update s.procs pid (some (.zombie status)))
      (executions : ∃ e, s'.executions = e :: s.executions ∧ e.pid = pid) (next : s'.nextPid = s.nextPid)
  | dieStopped (pid : Nat) (cycleCnt : BitVec 32) (status : Nat)
      (before : s.procs pid = some (.stopped cycleCnt))
      (procs : s'.procs = Function.update s.procs pid (some (.zombie status)))
      (executions : s'.executions = s.executions) (next : s'.nextPid = s.nextPid)

theorem fuzzerStep_effect {act : FuzzerAct} (step : fuzzerStep s act = some s') : Effect cfg s s' := by
  cases act with
  | request =>
    obtain ⟨_, rfl⟩ := request_step step
    exact .none rfl rfl rfl
  | readPid =>
    obtain ⟨_, _, _, _, rfl⟩ := readPid_step step
    exact .none rfl rfl rfl
  | readStatus =>
    obtain ⟨_, _, _, _, _, rfl⟩ := readStatus_step step
    exact .none rfl rfl rfl
  | timeout =>
    obtain ⟨_, _, _, rfl⟩ := timeout_step step
    exact .none rfl rfl rfl
  | kill =>
    obtain ⟨pid, _, rfl⟩ := kill_step step
    rw [kill_eq]
    exact .none rfl rfl rfl
  | readLate =>
    obtain ⟨_, _, _, _, _, rfl⟩ := readLate_step step
    exact .none rfl rfl rfl

theorem serverStep_effect (step : serverStep cfg s = some s') : Effect cfg s s' := by
  unfold serverStep at step
  split at step
  · split at step
    · cases step
    · split at step
      · cases step
        exact .none rfl rfl rfl
      · cases step
        exact .none rfl rfl rfl
  · split at step
    next w proc =>
      cases step
      exact .collect s.childPid w proc rfl rfl rfl
    next => cases step
  · split at step
    · cases step
      exact .fork rfl rfl rfl
    · cases step
      unfold State.resume
      split
      next c proc => exact .resume s.childPid c proc rfl rfl rfl
      next => exact .none rfl rfl rfl
  · cases step
    exact .none rfl rfl rfl
  · split at step
    next w proc =>
      cases step
      exact .collect s.childPid w proc rfl rfl rfl
    next =>
      split at step
      · cases step
        exact .none rfl rfl rfl
      · cases step
    next => cases step
  · cases step
    exact .none rfl rfl rfl

theorem childStep_effect {pid : Nat} {act : ChildAct} (step : childStep cfg s pid act = some s') :
    Effect cfg s s' := by
  simp only [childStep] at step
  split at step
  next c runs =>
    cases act with
    | loop =>
      simp only at step
      split at step
      next again =>
        cases step
        exact .stop pid c again.1 runs again.2 rfl ⟨_, rfl, rfl⟩ rfl
      next => cases step
    | exit code =>
      cases step
      exact .die pid c _ runs rfl ⟨_, rfl, rfl⟩ rfl
    | crash sig =>
      simp only at step
      split at step
      · cases step
        exact .die pid c _ runs rfl ⟨_, rfl, rfl⟩ rfl
      · cases step
    | «catch» =>
      simp only at step
      split at step
      · cases step
        exact .none rfl rfl rfl
      · cases step
  next => cases step

theorem deliverStep_effect {pid : Nat} (step : deliverStep cfg s pid = some s') :
    Effect cfg s s' := by
  simp only [deliverStep] at step
  split at step
  · split at step
    next c runs =>
      cases step
      exact .die pid c _ runs rfl ⟨_, rfl, rfl⟩ rfl
    next c proc =>
      split at step
      · cases step
        exact .dieStopped pid c _ proc rfl rfl rfl
      · cases step
    next =>
      cases step
      exact .none rfl rfl rfl
  · cases step

theorem step_effect {act : Act} (took : step cfg s act = some s') : Effect cfg s s' := by
  cases act with
  | fuzzer act => exact fuzzerStep_effect took
  | server => exact serverStep_effect took
  | child pid act => exact childStep_effect took
  | deliver pid => exact deliverStep_effect took

/-! ## How often a process is used -/

def State.executionsOf (s : State) (pid : Nat) : Nat := s.executions.countP fun e => e.pid = pid

/-- The passes of a loop whose counter has the value `c`: from 0 the counter goes round. -/
def passesLeft (c : BitVec 32) : Nat := if c = 0 then 2 ^ 32 else c.toNat

/-- The executions that a process of the target may do. -/
def Config.passes (cfg : Config) : Nat := passesLeft cfg.cycleCnt

theorem passesLeft_pos (c : BitVec 32) : 0 < passesLeft c := by
  unfold passesLeft
  split
  next => decide
  next other => bv_omega

theorem passesLeft_sub_one {c : BitVec 32} (more : c - 1 ≠ 0) :
    passesLeft (c - 1) + 1 = passesLeft c := by
  -- the counter goes round only where it was 0
  unfold passesLeft
  rw [if_neg more]
  split
  next zero =>
    subst zero
    decide
  next other => bv_omega

/-- The executions that a process may still do. -/
def remaining : Option Proc → Nat
  | some (.running cycleCnt) => passesLeft cycleCnt
  | some (.stopped cycleCnt) => passesLeft cycleCnt
  | _ => 0

structure Counted (cfg : Config) (s : State) : Prop where
  bound : ∀ pid, s.executionsOf pid + remaining (s.procs pid) ≤ cfg.passes
  fresh : ∀ pid, s.nextPid ≤ pid → s.executionsOf pid = 0 ∧ s.procs pid = none
  persistent : ∀ pid c, s.procs pid = some (.stopped c) → cfg.isPersistent = true

/-- A process and the count of its executions change together. -/
theorem Counted.update (counted : Counted cfg s) {pid : Nat} {new : Option Proc}
    (procs : s'.procs = Function.update s.procs pid new) (next : s.nextPid ≤ s'.nextPid)
    (old : pid < s'.nextPid) (here : s'.executionsOf pid + remaining new ≤ cfg.passes)
    (others : ∀ other, other ≠ pid → s'.executionsOf other = s.executionsOf other)
    (persistent : ∀ c, new = some (.stopped c) → cfg.isPersistent = true) : Counted cfg s' where
  bound := by
    intro other
    by_cases same : other = pid
    · subst same
      rw [procs, Function.update_self]
      exact here
    · rw [procs, Function.update_of_ne same, others other same]
      exact counted.bound other
  fresh := by
    intro other above
    have different : other ≠ pid := by omega
    rw [procs, Function.update_of_ne different, others other different]
    exact counted.fresh other (by omega)
  persistent := by
    intro other c held
    by_cases same : other = pid
    · subst same
      rw [procs, Function.update_self] at held
      exact persistent c held
    · rw [procs, Function.update_of_ne same] at held
      exact counted.persistent other c held

theorem executionsOf_same (executions : s'.executions = s.executions) (pid : Nat) :
    s'.executionsOf pid = s.executionsOf pid := by
  unfold State.executionsOf
  rw [executions]

theorem executionsOf_more {pid : Nat} (executions : ∃ e, s'.executions = e :: s.executions ∧ e.pid = pid) :
    s'.executionsOf pid = s.executionsOf pid + 1 ∧
      ∀ other, other ≠ pid → s'.executionsOf other = s.executionsOf other := by
  obtain ⟨e, executions, rfl⟩ := executions
  unfold State.executionsOf
  rw [executions]
  constructor
  · simp
  · intro other different
    simp [different.symm]

theorem Counted.old (counted : Counted cfg s) {pid : Nat} {proc : Proc} (held : s.procs pid = some proc) :
    pid < s.nextPid := by
  by_contra above
  have none := (counted.fresh pid (by omega)).2
  rw [held] at none
  cases none

theorem counted_step (counted : Counted cfg s) (effect : Effect cfg s s') : Counted cfg s' := by
  cases effect with
  | none procs executions next =>
    have same := executionsOf_same executions
    refine ⟨?_, ?_, ?_⟩
    · intro pid
      rw [same, procs]
      exact counted.bound pid
    · intro pid above
      rw [same, procs]
      exact counted.fresh pid (by omega)
    · rw [procs]
      exact counted.persistent
  | collect pid w before procs executions next =>
    have same := executionsOf_same executions
    have bound := counted.bound pid
    refine counted.update procs (by omega) (next ▸ counted.old before) ?_ (fun other _ => same other)
      (by simp)
    rw [same]
    exact Nat.le_trans (Nat.add_le_add_left (Nat.zero_le _) _) bound
  | fork procs executions next =>
    have same := executionsOf_same executions
    refine counted.update procs (by omega) (by omega) ?_ (fun other _ => same other) (by simp)
    rw [same, (counted.fresh s.nextPid (Nat.le_refl _)).1]
    exact Nat.le_of_eq (Nat.zero_add _)
  | resume pid c before procs executions next =>
    have same := executionsOf_same executions
    have bound := counted.bound pid
    rw [before] at bound
    refine counted.update procs (by omega) (next ▸ counted.old before) ?_ (fun other _ => same other)
      (by simp)
    rw [same]
    exact bound
  | stop pid c persistent before again procs executions next =>
    obtain ⟨count, others⟩ := executionsOf_more executions
    have bound := counted.bound pid
    have less := passesLeft_sub_one again
    rw [before] at bound
    refine counted.update procs (by omega) (next ▸ counted.old before) ?_ others (fun _ _ => persistent)
    simp only [remaining] at bound ⊢
    omega
  | die pid c w before procs executions next =>
    obtain ⟨count, others⟩ := executionsOf_more executions
    have bound := counted.bound pid
    -- the pass that ends here was still to be done
    have left := passesLeft_pos c
    rw [before] at bound
    refine counted.update procs (by omega) (next ▸ counted.old before) ?_ others (by simp)
    simp only [remaining] at bound ⊢
    omega
  | dieStopped pid c w before procs executions next =>
    have same := executionsOf_same executions
    have bound := counted.bound pid
    refine counted.update procs (by omega) (next ▸ counted.old before) ?_ (fun other _ => same other)
      (by simp)
    rw [same]
    exact Nat.le_trans (Nat.add_le_add_left (Nat.zero_le _) _) bound

theorem reachable_counted {acts : List Act} (run : Reachable cfg acts s) : Counted cfg s := by
  refine run.invariant ?_ fun _ _ _ counted took => counted_step counted (step_effect took)
  rintro _ rfl
  refine ⟨?_, fun _ _ => ⟨rfl, rfl⟩, ?_⟩
  · intro pid
    exact Nat.zero_le _
  · intro pid c held
    cases held

def FuzzerAt.rank : FuzzerAt → Nat
  | .idle => 0
  | .fatal => 0
  | .awaitLate _ => 1
  | .timedOut _ => 4
  | .awaitStatus _ => 5
  | .awaitPid => 6

def ServerAt.rank (asked : Bool) : ServerAt → Nat
  | .readCtl => if asked then 30 else 0
  | .reap => 25
  | .launch => 20
  | .writePid => 6
  | .await => 4
  | .writeStatus _ => 2

def childRank : Option Proc → Nat
  | some (.running _) => 3
  | some (.stopped _) => 2
  | some (.zombie _) => 1
  | none => 0

/-- How many steps are left at most before the next request. -/
def State.rank (s : State) : Nat :=
  s.fuzzer.rank + s.server.rank (!s.ctl.isEmpty) + childRank (s.procs s.childPid) +
    (s.pending s.childPid).toNat

theorem childRank_le (child : Option Proc) : childRank child ≤ 3 := by
  cases child with
  | none => exact Nat.zero_le _
  | some proc => cases proc <;> simp [childRank]

theorem fuzzerStep_rank {act : FuzzerAct} (step : fuzzerStep s act = some s') (other : act ≠ .request) :
    s'.rank < s.rank := by
  cases act with
  | request => exact absurd rfl other
  | readPid =>
    obtain ⟨here, pid, st, _, rfl⟩ := readPid_step step
    have next : (if pid = 0 then FuzzerAt.fatal else .awaitStatus pid).rank ≤ 5 := by
      split
      · exact Nat.zero_le _
      · exact Nat.le_refl _
    simp only [State.rank, here, FuzzerAt.rank] at next ⊢
    omega
  | readStatus =>
    obtain ⟨pid, status, st, here, _, rfl⟩ := readStatus_step step
    simp only [State.rank, State.finish, here, FuzzerAt.rank]
    omega
  | timeout =>
    obtain ⟨pid, here, _, rfl⟩ := timeout_step step
    simp only [State.rank, here, FuzzerAt.rank]
    omega
  | kill =>
    obtain ⟨pid, here, rfl⟩ := kill_step step
    have sent := Bool.toNat_le ((s.kill pid).pending s.childPid)
    rw [kill_eq]
    simp only [State.rank, here, FuzzerAt.rank]
    omega
  | readLate =>
    obtain ⟨pid, status, st, here, _, rfl⟩ := readLate_step step
    simp only [State.rank, State.finish, here, FuzzerAt.rank]
    omega

@[simp] theorem collect_fuzzer (s : State) (pid : Nat) : (s.collect pid).fuzzer = s.fuzzer := rfl

@[simp] theorem fork_fuzzer (s : State) : (s.fork cfg).fuzzer = s.fuzzer := rfl

@[simp] theorem resume_fuzzer (s : State) : s.resume.fuzzer = s.fuzzer := by
  unfold State.resume
  split <;> rfl

theorem serverStep_rank (inv : Inv cfg s) (step : serverStep cfg s = some s') : s'.rank < s.rank := by
  have most := childRank_le (s'.procs s'.childPid)
  have sent := Bool.toNat_le (s'.pending s'.childPid)
  unfold serverStep at step
  split at step
  next here =>
    split at step
    next => cases step
    next asked =>
      split at step
      · cases step
        simp only [State.rank, here, asked, ServerAt.rank, List.isEmpty_cons, Bool.not_false, if_true]
        omega
      · cases step
        simp only [State.rank, here, asked, ServerAt.rank, List.isEmpty_cons, Bool.not_false, if_true]
        omega
  next here =>
    split at step
    · cases step
      simp only [State.rank, here, ServerAt.rank, collect_fuzzer] at most sent ⊢
      omega
    · cases step
  next here =>
    split at step
    · cases step
      simp only [State.rank, here, ServerAt.rank, fork_fuzzer] at most sent ⊢
      omega
    · cases step
      simp only [State.rank, here, ServerAt.rank, resume_fuzzer] at most sent ⊢
      omega
  next here =>
    cases step
    simp only [State.rank, here, ServerAt.rank]
    omega
  next here =>
    split at step
    next w proc =>
      cases step
      have gone := inv.collect_alone s.childPid
      have child : (s.collect s.childPid).childPid = s.childPid := rfl
      simp only [State.rank, here, ServerAt.rank, collect_fuzzer, child, gone, childRank, proc]
      simp only [Bool.toNat_false]
      omega
    next =>
      split at step
      · cases step
        simp only [State.rank, here, ServerAt.rank]
        omega
      · cases step
    next => cases step
  next w here =>
    -- Nobody asks while the server has a status to tell.
    have unasked : s.ctl = [] := by
      cases inv.phase with
      | idle _ _ ctl | requested _ _ _ server | reaping _ _ server | launching _ _ server
      | writing _ _ server => simp_all
      | serving _ ctl => exact ctl
    cases step
    simp only [State.rank, here, unasked, ServerAt.rank, List.isEmpty_nil, Bool.not_true,
      Bool.false_eq_true, if_false]
    omega

theorem childStep_rank (inv : Inv cfg s) {pid : Nat} {act : ChildAct}
    (step : childStep cfg s pid act = some s') : s'.rank < s.rank := by
  obtain ⟨c, runs, ended | caught⟩ := childStep_step step
  · obtain ⟨status, proc, rfl, fate⟩ := ended
    obtain rfl := inv.running_child runs
    have changed : (s.ends s.childPid status false proc).procs s.childPid = some proc :=
      Function.update_self _ _ _
    have less : childRank (some proc) ≤ 2 := by
      rcases fate with ⟨c', rfl, _⟩ | rfl
      · exact Nat.le_refl _
      · exact Nat.le_succ _
    have before : childRank (s.procs s.childPid) = 3 := by rw [runs]; rfl
    have after : (s.ends s.childPid status false proc).rank =
        s.fuzzer.rank + s.server.rank (!s.ctl.isEmpty) + childRank (some proc) +
          (s.pending s.childPid).toNat := by
      rw [← changed]
      rfl
    rw [after, State.rank, before]
    omega
  · obtain ⟨sent, _, rfl⟩ := caught
    obtain rfl := inv.running_child runs
    simp only [State.rank, Function.update_self, sent]
    simp

theorem deliverStep_rank (inv : Inv cfg s) {pid : Nat} (step : deliverStep cfg s pid = some s') :
    s'.rank < s.rank := by
  simp only [deliverStep] at step
  split at step
  next sent =>
    obtain ⟨rfl, _⟩ := inv.sent_to sent
    split at step
    next c runs =>
      cases step
      simp only [State.rank, State.ends, Function.update_self, runs, sent, childRank]
      simp
    next c proc =>
      split at step
      · cases step
        simp only [State.rank, Function.update_self, proc, sent, childRank]
        simp
      · cases step
    next =>
      cases step
      simp only [State.rank, Function.update_self, sent]
      simp
  next => cases step

/-- Every step that is no request leaves fewer steps to do. -/
theorem step_rank (inv : Inv cfg s) {act : Act} (took : step cfg s act = some s')
    (other : act ≠ .fuzzer .request) : s'.rank < s.rank := by
  cases act with
  | fuzzer act => exact fuzzerStep_rank took fun same => other (congrArg Act.fuzzer same)
  | server => exact serverStep_rank inv took
  | child pid act => exact childStep_rank inv took
  | deliver pid => exact deliverStep_rank inv took

/-- A step is possible that is no request, and to which no child contributes. -/
def Progresses (cfg : Config) (s : State) : Prop :=
  ∃ act s', act ≠ .fuzzer .request ∧ (∀ pid own, act ≠ .child pid own) ∧ step cfg s act = some s'

theorem Progresses.of_server (enabled : (serverStep cfg s).isSome) : Progresses cfg s := by
  obtain ⟨s', took⟩ := Option.isSome_iff_exists.mp enabled
  exact ⟨.server, s', by simp, by simp, took⟩

theorem Progresses.of_fuzzer (act : FuzzerAct) (other : act ≠ .request)
    (enabled : (fuzzerStep s act).isSome) : Progresses cfg s := by
  obtain ⟨s', took⟩ := Option.isSome_iff_exists.mp enabled
  exact ⟨.fuzzer act, s', by simpa using other, by simp, took⟩

/-- `SIGKILL` ends the child wherever it is. -/
theorem Progresses.of_sigkill (same : cfg.childKillSignal = sigkill)
    (sent : s.pending s.childPid = true) : Progresses cfg s := by
  refine ⟨.deliver s.childPid, ?_⟩
  simp only [step, deliverStep, sent, if_true, same]
  split
  all_goals exact ⟨_, by simp, by simp, rfl⟩

theorem Inv.progress (inv : Inv cfg s) (counted : Counted cfg s)
    (same : cfg.childKillSignal = sigkill) (call : s.fuzzer ≠ .idle) : Progresses cfg s := by
  cases inv.phase with
  | idle fuzzer => exact absurd fuzzer call
  | requested killed _ _ server ctl =>
    refine .of_server ?_
    simp only [serverStep, server, ctl]
    split <;> rfl
  | reaping _ _ server _ _ _ dying =>
    rcases dying with ⟨_, _, sent⟩ | ⟨w, proc⟩
    · exact .of_sigkill same (sent same)
    · exact .of_server (by simp [serverStep, server, proc])
  | launching _ _ server =>
    refine .of_server ?_
    simp only [serverStep, server]
    split <;> rfl
  | writing _ _ server => exact .of_server (by simp [serverStep, server])
  | @serving killed words busy ctl serving =>
    cases busy with
    | awaitPid here =>
      refine .of_fuzzer .readPid (by simp) ?_
      cases serving with
      | awaiting _ st | reporting _ _ st | reported w _ st => simp [fuzzerStep, here, st]
    | awaitStatus here =>
      -- Either there is a word to read, or the poll may end without one.
      cases held : s.st with
      | nil => exact .of_fuzzer .timeout (by simp) (by simp [fuzzerStep, here, held])
      | cons w st => exact .of_fuzzer .readStatus (by simp) (by simp [fuzzerStep, here, held])
    | timedOut here => exact .of_fuzzer .kill (by simp) (by simp [fuzzerStep, here])
    | awaitLate here =>
      cases serving with
      | awaiting server _ _ started =>
        cases started with
        | running c proc sent => exact .of_sigkill same (sent.pending same rfl)
        | stopped c proc =>
          -- only the child of a persistent target stops, and for that one `waitpid` returns
          have persistent := counted.persistent _ c proc
          exact .of_server (by simp [serverStep, server, proc, persistent])
        | dead w proc => exact .of_server (by simp [serverStep, server, proc])
      | reporting w server => exact .of_server (by simp [serverStep, server])
      | reported w _ st => exact .of_fuzzer .readLate (by simp) (by simp [fuzzerStep, here, st])

/-- Another signal may be caught, and then only the child can end the call. -/
def caughtSignal : List Act :=
  [.fuzzer .request, .server, .server, .server, .fuzzer .readPid, .fuzzer .timeout, .fuzzer .kill,
    .child 1 .catch]

/-- The child runs, no signal is on its way, and fuzzer and server wait. -/
theorem caughtSignal_waits (other : cfg.childKillSignal ≠ sigkill) :
    ∃ s, steps cfg caughtSignal initial = some s ∧ s.fuzzer = .awaitLate 1 ∧ s.st = [] ∧
      s.server = .await ∧ s.childPid = 1 ∧ s.procs 1 = some (.running cfg.cycleCnt) ∧
      ∀ pid, s.pending pid = false := by
  simp [caughtSignal, steps, step, fuzzerStep, serverStep, childStep, initial, State.fork, State.kill,
    other]

theorem not_progresses_of_waits (fuzzer : s.fuzzer = .awaitLate 1) (st : s.st = [])
    (server : s.server = .await) (child : s.childPid = 1)
    (runs : s.procs 1 = some (.running cfg.cycleCnt)) (quiet : ∀ pid, s.pending pid = false) :
    ¬Progresses cfg s := by
  rintro ⟨act, s', other, own, took⟩
  cases act with
  | fuzzer act => cases act <;> simp_all [step, fuzzerStep]
  | server => simp [step, serverStep, server, child, runs] at took
  | child pid act => exact own pid act rfl
  | deliver pid => simp [step, deliverStep, quiet pid] at took

theorem steps_left {more : List Act}
    (inv : Inv cfg s) (onward : Trace (· = s) (fun s act s' => step cfg s act = some s') more s')
    (quiet : ∀ act ∈ more, act ≠ .fuzzer .request) : more.length ≤ 40 := by
  have left : Inv cfg s' ∧ ((∀ act ∈ more, act ≠ .fuzzer .request) → more.length + s'.rank ≤ s.rank) := by
    refine onward.history (P := fun more s' =>
      Inv cfg s' ∧ ((∀ act ∈ more, act ≠ .fuzzer .request) → more.length + s'.rank ≤ s.rank)) ?_ ?_
    · rintro _ rfl
      exact ⟨inv, fun _ => Nat.le_of_eq (Nat.zero_add _)⟩
    · rintro acts t act t' ⟨inv, bound⟩ took
      refine ⟨step_inv inv took, fun quiet => ?_⟩
      have less := step_rank inv took (quiet act List.mem_cons_self)
      have := bound fun act member => quiet act (List.mem_cons_of_mem _ member)
      rw [List.length_cons]
      omega
  have top : s.rank ≤ 40 := by
    have child := childRank_le (s.procs s.childPid)
    have sent := Bool.toNat_le (s.pending s.childPid)
    have fuzzer : s.fuzzer.rank ≤ 6 := by cases s.fuzzer <;> simp [FuzzerAt.rank]
    have server : s.server.rank (!s.ctl.isEmpty) ≤ 30 := by
      cases s.server with
      | readCtl => simp only [ServerAt.rank]; split <;> omega
      | reap | launch | writePid | await | writeStatus => simp [ServerAt.rank]
    unfold State.rank
    omega
  have := left.2 quiet
  omega

/-- From any moment on at most forty steps are possible before the next request. In every state in
which a call has not returned a step is possible without the child exactly when the signal for
children that take too long is `SIGKILL`. -/
theorem calls_return (cfg : Config) :
    (∀ acts s more s', Reachable cfg acts s →
      Trace (· = s) (fun s act s' => step cfg s act = some s') more s' →
      (∀ act ∈ more, act ≠ .fuzzer .request) → more.length ≤ 40) ∧
    ((∀ acts s, Reachable cfg acts s → s.fuzzer ≠ .idle → Progresses cfg s) ↔
      cfg.childKillSignal = sigkill) := by
  refine ⟨fun acts s more s' run => steps_left (reachable_inv run), ⟨fun always => ?_, ?_⟩⟩
  · by_contra other
    -- once the signal was caught, fuzzer and server wait for a child that does nothing
    obtain ⟨s, went, fuzzer, st, server, child, runs, quiet⟩ := caughtSignal_waits other
    have run : Reachable cfg caughtSignal.reverse s := by
      simpa using reachable_steps (.start rfl) went
    exact not_progresses_of_waits fuzzer st server child runs quiet
      (always _ s run (by rw [fuzzer]; simp))
  · intro same acts s run call
    exact (reachable_inv run).progress (reachable_counted run) same call

end Swam.Afl.Forkserver
