import Mathlib.Data.List.Forall2
import Swam.Lib.Trace
import Swam.Afl.Forkserver

/-!
# Runs of the fork server

Whatever the order of the steps, the words in the pipes are the ones that the parties expect, and
the server continues a child only when nobody killed it.
-/
namespace Swam.Afl.Forkserver

open Lib

/-- The results of the calls are what became of the executions. After a call that timed out the
status may be the one of the signal, or not. -/
def Agree (executions : List Execution) (results : List RunResult) : Prop :=
  List.Forall₂ (fun e r => r.pid = e.pid ∧
    (r.lastRunTimedOut = false → r.childStatus = e.status ∧ e.killed = false)) executions results

/-- Whether the last call timed out. -/
def lastTimedOut : List RunResult → Bool
  | [] => false
  | r :: _ => r.lastRunTimedOut

/-! ## The invariant -/

/-- Only a signal that was sent is on its way, and `SIGKILL` is so until it ends the child. -/
structure Sent (cfg : Config) (pending killed : Bool) : Prop where
  of_pending : pending = true → killed = true
  pending : cfg.childKillSignal = sigkill → killed = true → pending = true

/-- The child when the server is not in an execution. -/
inductive Settled (cfg : Config) (childStopped : Bool) (child : Option Proc) (pending killed : Bool) :
    Prop
  | gone (flag : childStopped = false) (proc : child = none) (quiet : pending = false)
  | stopped (cycleCnt : BitVec 32) (flag : childStopped = true)
      (proc : child = some (.stopped cycleCnt)) (sent : Sent cfg pending killed)
  | dead (status : Nat) (flag : childStopped = true) (proc : child = some (.zombie status))
      (was : killed = true)

abbrev State.Settled (s : State) (cfg : Config) (killed : Bool) : Prop :=
  Forkserver.Settled cfg s.childStopped (s.procs s.childPid) (s.pending s.childPid) killed

/-- The last execution is one that no call has read the status of. -/
def Unread (childPid : Nat) (executions : List Execution) (results : List RunResult) (killed : Bool)
    (status : Nat) : Prop :=
  ∃ e es, executions = e :: es ∧ e.pid = childPid ∧
    (killed = false → e.status = status ∧ e.killed = false) ∧ Agree es results

abbrev State.Unread (s : State) (killed : Bool) (status : Nat) : Prop :=
  Forkserver.Unread s.childPid s.executions s.results killed status

/-- The child during an execution, which may be over. -/
inductive Started (cfg : Config) (childPid : Nat) (child : Option Proc) (pending : Bool)
    (executions : List Execution) (results : List RunResult) (killed : Bool) : Prop
  | running (cycleCnt : BitVec 32) (proc : child = some (.running cycleCnt))
      (sent : Sent cfg pending killed) (agree : Agree executions results)
  | stopped (cycleCnt : BitVec 32) (proc : child = some (.stopped cycleCnt))
      (sent : Sent cfg pending killed) (unread : Unread childPid executions results killed stopWord)
  | dead (status : Nat) (proc : child = some (.zombie status))
      (unread : Unread childPid executions results killed status)

abbrev State.Started (s : State) (cfg : Config) (killed : Bool) : Prop :=
  Forkserver.Started cfg s.childPid (s.procs s.childPid) (s.pending s.childPid) s.executions s.results
    killed

/-- The fuzzer in a call, whether it killed the child, and the words it has to read before the
status. -/
inductive Busy (childPid : Nat) (fuzzer : FuzzerAt) (flag : Bool) : Bool → List Nat → Prop
  | awaitPid (here : fuzzer = .awaitPid) (clear : flag = false) (named : 0 < childPid) :
      Busy childPid fuzzer flag false [childPid]
  | awaitStatus (here : fuzzer = .awaitStatus childPid) (clear : flag = false) :
      Busy childPid fuzzer flag false []
  | timedOut (here : fuzzer = .timedOut childPid) (clear : flag = false) :
      Busy childPid fuzzer flag false []
  | awaitLate (here : fuzzer = .awaitLate childPid) (set : flag = true) :
      Busy childPid fuzzer flag true []

/-- The server from the moment on at which it has told the process id. -/
inductive Serving (cfg : Config) (s : State) (killed : Bool) (words : List Nat) : Prop
  | awaiting (server : s.server = .await) (st : s.st = words) (cleared : s.childStopped = false)
      (started : s.Started cfg killed)
  | reporting (status : Nat) (server : s.server = .writeStatus status) (st : s.st = words)
      (settled : s.Settled cfg killed) (unread : s.Unread killed status)
  | reported (status : Nat) (server : s.server = .readCtl) (st : s.st = words ++ [status])
      (settled : s.Settled cfg killed) (unread : s.Unread killed status)

/-- Where fuzzer and server can be together. -/
inductive Phase (cfg : Config) (s : State) : Prop
  | idle (fuzzer : s.fuzzer = .idle) (server : s.server = .readCtl) (ctl : s.ctl = []) (st : s.st = [])
      (settled : s.Settled cfg s.lastRunTimedOut) (agree : Agree s.executions s.results)
      (told : s.lastRunTimedOut = lastTimedOut s.results)
  | requested (killed : Bool) (fuzzer : s.fuzzer = .awaitPid) (clear : s.lastRunTimedOut = false)
      (server : s.server = .readCtl) (ctl : s.ctl = [killed.toNat]) (st : s.st = [])
      (settled : s.Settled cfg killed) (agree : Agree s.executions s.results)
      (told : killed = lastTimedOut s.results)
  | reaping (fuzzer : s.fuzzer = .awaitPid) (clear : s.lastRunTimedOut = false)
      (server : s.server = .reap) (ctl : s.ctl = []) (st : s.st = []) (cleared : s.childStopped = false)
      (dying : (∃ c, s.procs s.childPid = some (.stopped c) ∧
          (cfg.childKillSignal = sigkill → s.pending s.childPid = true)) ∨
        ∃ w, s.procs s.childPid = some (.zombie w))
      (agree : Agree s.executions s.results)
  | launching (fuzzer : s.fuzzer = .awaitPid) (clear : s.lastRunTimedOut = false)
      (server : s.server = .launch) (ctl : s.ctl = []) (st : s.st = []) (settled : s.Settled cfg false)
      (agree : Agree s.executions s.results)
  | writing (fuzzer : s.fuzzer = .awaitPid) (clear : s.lastRunTimedOut = false)
      (server : s.server = .writePid) (ctl : s.ctl = []) (st : s.st = [])
      (cleared : s.childStopped = false) (started : s.Started cfg false)
  | serving {killed : Bool} {words : List Nat}
      (busy : Busy s.childPid s.fuzzer s.lastRunTimedOut killed words) (ctl : s.ctl = [])
      (serving : Serving cfg s killed words)

/-- The invariant: at most one process, which is the child, and a phase. -/
structure Inv (cfg : Config) (s : State) : Prop where
  alone : ∀ pid, pid ≠ s.childPid → s.procs pid = none ∧ s.pending pid = false
  positive : 0 < s.nextPid
  named : s.procs s.childPid ≠ none → 0 < s.childPid
  phase : Phase cfg s

theorem initial_inv (cfg : Config) : Inv cfg initial where
  alone := fun _ _ => ⟨rfl, rfl⟩
  positive := Nat.one_pos
  named := fun some => absurd rfl some
  phase := .idle rfl rfl rfl rfl (.gone rfl rfl rfl) .nil rfl

variable {cfg : Config} {s s' : State}

/-! ## The steps of the fuzzer -/

section
variable {fuzzer : FuzzerAt} {childPid : Nat} {flag killed : Bool} {words : List Nat}

theorem Busy.not_idle (busy : Busy childPid fuzzer flag killed words) : fuzzer ≠ .idle := by
  rintro rfl
  cases busy <;> contradiction

theorem Busy.at_awaitPid (busy : Busy childPid .awaitPid flag killed words) :
    killed = false ∧ words = [childPid] ∧ flag = false := by
  cases busy with
  | awaitPid _ clear => exact ⟨rfl, rfl, clear⟩
  | awaitStatus here | timedOut here | awaitLate here => cases here

theorem Busy.at_awaitStatus {pid : Nat} (busy : Busy childPid (.awaitStatus pid) flag killed words) :
    pid = childPid ∧ killed = false ∧ words = [] ∧ flag = false := by
  cases busy with
  | awaitStatus here clear =>
    cases here
    exact ⟨rfl, rfl, rfl, clear⟩
  | awaitPid here | timedOut here | awaitLate here => cases here

theorem Busy.at_timedOut {pid : Nat} (busy : Busy childPid (.timedOut pid) flag killed words) :
    pid = childPid ∧ killed = false ∧ words = [] ∧ flag = false := by
  cases busy with
  | timedOut here clear =>
    cases here
    exact ⟨rfl, rfl, rfl, clear⟩
  | awaitPid here | awaitStatus here | awaitLate here => cases here

theorem Busy.at_awaitLate {pid : Nat} (busy : Busy childPid (.awaitLate pid) flag killed words) :
    pid = childPid ∧ killed = true ∧ words = [] ∧ flag = true := by
  cases busy with
  | awaitLate here set =>
    cases here
    exact ⟨rfl, rfl, rfl, set⟩
  | awaitPid here | awaitStatus here | timedOut here => cases here

end

theorem request_step (step : fuzzerStep s .request = some s') :
    s.fuzzer = .idle ∧ s' = { s with
      ctl := s.ctl ++ [s.lastRunTimedOut.toNat]
      lastRunTimedOut := false
      fuzzer := .awaitPid } := by
  simp only [fuzzerStep] at step
  split at step
  next here => exact ⟨here, (Option.some.inj step).symm⟩
  next => cases step

theorem request_inv (inv : Inv cfg s) (step : fuzzerStep s .request = some s') : Inv cfg s' := by
  obtain ⟨here, rfl⟩ := request_step step
  refine ⟨inv.alone, inv.positive, inv.named, ?_⟩
  cases inv.phase with
  | idle _ server ctl st settled agree told =>
    -- the flag of the last call is cleared as it is sent, so that only the word knows of it
    refine .requested s.lastRunTimedOut rfl rfl server ?_ st settled agree told
    exact congrArg (· ++ [s.lastRunTimedOut.toNat]) ctl
  | requested _ fuzzer | reaping fuzzer | launching fuzzer | writing fuzzer =>
    rw [here] at fuzzer
    cases fuzzer
  | serving busy => exact absurd here busy.not_idle

/-- The fuzzer takes the first word of the pipe. -/
theorem Serving.read {killed : Bool} {word pid : Nat} {words st : List Nat}
    (serving : Serving cfg s killed (word :: words)) (here : s.st = pid :: st) (fuzzer : FuzzerAt) :
    pid = word ∧ Serving cfg { s with st, fuzzer } killed words := by
  cases serving with
  | awaiting server held cleared started =>
    rw [here] at held
    cases held
    exact ⟨rfl, .awaiting server rfl cleared started⟩
  | reporting status server held settled unread =>
    rw [here] at held
    cases held
    exact ⟨rfl, .reporting status server rfl settled unread⟩
  | reported status server held settled unread =>
    rw [here] at held
    cases held
    exact ⟨rfl, .reported status server rfl settled unread⟩

theorem readPid_step (step : fuzzerStep s .readPid = some s') :
    s.fuzzer = .awaitPid ∧ ∃ pid st, s.st = pid :: st ∧
      s' = { s with st, fuzzer := if pid = 0 then .fatal else .awaitStatus pid } := by
  simp only [fuzzerStep] at step
  split at step
  next here held => exact ⟨here, _, _, held, (Option.some.inj step).symm⟩
  next => cases step

theorem readPid_inv (inv : Inv cfg s) (step : fuzzerStep s .readPid = some s') : Inv cfg s' := by
  obtain ⟨here, pid, st, held, rfl⟩ := readPid_step step
  refine ⟨inv.alone, inv.positive, inv.named, ?_⟩
  cases inv.phase with
  | idle fuzzer =>
    rw [here] at fuzzer
    cases fuzzer
  | requested _ _ _ _ _ empty | reaping _ _ _ _ empty | launching _ _ _ _ empty
  | writing _ _ _ _ empty =>
    rw [held] at empty
    cases empty
  | serving busy ctl serving =>
    have named : 0 < s.childPid := by
      cases busy with
      | awaitPid _ _ named => exact named
      | awaitStatus other | timedOut other | awaitLate other =>
        rw [here] at other
        cases other
    rw [here] at busy
    obtain ⟨rfl, rfl, clear⟩ := busy.at_awaitPid
    obtain ⟨rfl, serving⟩ := serving.read held (if pid = 0 then .fatal else .awaitStatus pid)
    exact .serving (.awaitStatus (if_neg (Nat.ne_of_gt named)) clear) ctl serving

/-- A call that has read the process id. -/
theorem Phase.in_call (phase : Phase cfg s) (call : s.fuzzer ≠ .idle) (named : s.fuzzer ≠ .awaitPid) :
    ∃ killed words, Busy s.childPid s.fuzzer s.lastRunTimedOut killed words ∧ s.ctl = [] ∧
      Serving cfg s killed words := by
  cases phase with
  | idle fuzzer => exact absurd fuzzer call
  | requested _ fuzzer | reaping fuzzer | launching fuzzer | writing fuzzer =>
    exact absurd fuzzer named
  | serving busy ctl serving => exact ⟨_, _, busy, ctl, serving⟩

/-- The end of a call: its result is what became of the last execution. -/
theorem Serving.finish {killed : Bool} {status : Nat} {st : List Nat} (serving : Serving cfg s killed [])
    (held : s.st = status :: st) (ctl : s.ctl = []) (flag : s.lastRunTimedOut = killed) :
    Phase cfg ({ s with st }.finish s.childPid status) := by
  cases serving with
  | awaiting _ empty | reporting _ _ empty =>
    rw [held] at empty
    cases empty
  | reported w server whole settled unread =>
    rw [held] at whole
    cases whole
    obtain ⟨e, es, executions, pid, fate, agree⟩ := unread
    refine .idle rfl server ctl rfl (by rwa [flag]) ?_ rfl
    simp only [State.finish, executions]
    exact .cons ⟨pid.symm, fun clear => ⟨(fate (flag ▸ clear)).1.symm, (fate (flag ▸ clear)).2⟩⟩ agree

theorem readStatus_step (step : fuzzerStep s .readStatus = some s') :
    ∃ pid status st, s.fuzzer = .awaitStatus pid ∧ s.st = status :: st ∧
      s' = { s with st }.finish pid status := by
  simp only [fuzzerStep] at step
  split at step
  next here held => exact ⟨_, _, _, here, held, (Option.some.inj step).symm⟩
  next => cases step

theorem readStatus_inv (inv : Inv cfg s) (step : fuzzerStep s .readStatus = some s') : Inv cfg s' := by
  obtain ⟨pid, status, st, here, held, rfl⟩ := readStatus_step step
  refine ⟨inv.alone, inv.positive, inv.named, ?_⟩
  obtain ⟨killed, words, busy, ctl, serving⟩ := inv.phase.in_call (by simp [here]) (by simp [here])
  rw [here] at busy
  obtain ⟨rfl, rfl, rfl, clear⟩ := busy.at_awaitStatus
  exact serving.finish held ctl clear

theorem readLate_step (step : fuzzerStep s .readLate = some s') :
    ∃ pid status st, s.fuzzer = .awaitLate pid ∧ s.st = status :: st ∧
      s' = { s with st }.finish pid status := by
  simp only [fuzzerStep] at step
  split at step
  next here held => exact ⟨_, _, _, here, held, (Option.some.inj step).symm⟩
  next => cases step

theorem readLate_inv (inv : Inv cfg s) (step : fuzzerStep s .readLate = some s') : Inv cfg s' := by
  obtain ⟨pid, status, st, here, held, rfl⟩ := readLate_step step
  refine ⟨inv.alone, inv.positive, inv.named, ?_⟩
  obtain ⟨killed, words, busy, ctl, serving⟩ := inv.phase.in_call (by simp [here]) (by simp [here])
  rw [here] at busy
  obtain ⟨rfl, rfl, rfl, set⟩ := busy.at_awaitLate
  exact serving.finish held ctl set

theorem timeout_step (step : fuzzerStep s .timeout = some s') :
    ∃ pid, s.fuzzer = .awaitStatus pid ∧ s.st = [] ∧ s' = { s with fuzzer := .timedOut pid } := by
  simp only [fuzzerStep] at step
  split at step
  next here held => exact ⟨_, here, held, (Option.some.inj step).symm⟩
  next => cases step

/-- The poll ends without a word. -/
theorem Serving.move {killed : Bool} {words : List Nat} (serving : Serving cfg s killed words)
    (fuzzer : FuzzerAt) : Serving cfg { s with fuzzer } killed words := by
  cases serving with
  | awaiting server held cleared started => exact .awaiting server held cleared started
  | reporting status server held settled unread => exact .reporting status server held settled unread
  | reported status server held settled unread => exact .reported status server held settled unread

theorem timeout_inv (inv : Inv cfg s) (step : fuzzerStep s .timeout = some s') : Inv cfg s' := by
  obtain ⟨pid, here, held, rfl⟩ := timeout_step step
  refine ⟨inv.alone, inv.positive, inv.named, ?_⟩
  obtain ⟨killed, words, busy, ctl, serving⟩ := inv.phase.in_call (by simp [here]) (by simp [here])
  rw [here] at busy
  obtain ⟨rfl, rfl, rfl, clear⟩ := busy.at_awaitStatus
  exact .serving (.timedOut rfl clear) ctl (serving.move (.timedOut s.childPid))

theorem kill_step (step : fuzzerStep s .kill = some s') :
    ∃ pid, s.fuzzer = .timedOut pid ∧
      s' = { s.kill pid with fuzzer := .awaitLate pid, lastRunTimedOut := true } := by
  simp only [fuzzerStep] at step
  split at step
  next here => exact ⟨_, here, (Option.some.inj step).symm⟩
  next => cases step

/-- `kill` leaves everything but the signals alone. -/
theorem kill_eq (s : State) (pid : Nat) :
    s.kill pid = { s with pending := (s.kill pid).pending } := by
  unfold State.kill
  split <;> rfl

theorem kill_pending_of_ne (s : State) {pid other : Nat} (different : other ≠ pid) :
    (s.kill pid).pending other = s.pending other := by
  unfold State.kill
  split
  · exact Function.update_of_ne different _ _
  · exact Function.update_of_ne different _ _
  · rfl

theorem kill_pending (s : State) (pid : Nat) :
    (s.kill pid).pending pid = match s.procs pid with
      | some (.running _) | some (.stopped _) => true
      | _ => s.pending pid := by
  unfold State.kill
  cases s.procs pid with
  | none => rfl
  | some proc =>
    cases proc with
    | running | stopped => exact Function.update_self _ _ _
    | zombie => rfl

theorem Unread.kill {childPid status : Nat} {executions : List Execution} {results : List RunResult}
    (unread : Unread childPid executions results false status) :
    Unread childPid executions results true status := by
  obtain ⟨e, es, last, pid, _, agree⟩ := unread
  exact ⟨e, es, last, pid, fun impossible => absurd impossible (by simp), agree⟩

/-- The signal is sent to whatever the child is by now. -/
theorem Serving.kill (serving : Serving cfg s false []) (fuzzer : FuzzerAt) (flag : Bool) :
    Serving cfg { s.kill s.childPid with fuzzer, lastRunTimedOut := flag } true [] := by
  have sent := kill_pending s s.childPid
  rw [kill_eq]
  have on_its_way {pending : Bool} (sent : pending = true) : Sent cfg pending true :=
    ⟨fun _ => rfl, fun _ _ => sent⟩
  -- a child whose status was told is gone, or stopped and now has a signal on its way
  have settles (settled : s.Settled cfg false) : Forkserver.Settled cfg s.childStopped
      (s.procs s.childPid) ((s.kill s.childPid).pending s.childPid) true := by
    cases settled with
    | gone flag proc quiet => exact .gone flag proc (by rw [sent, proc]; exact quiet)
    | stopped c flag proc _ => exact .stopped c flag proc (on_its_way (by rw [sent, proc]))
    | dead _ _ _ was => cases was
  cases serving with
  | awaiting server held cleared started =>
    refine .awaiting server held cleared ?_
    -- the execution may be over, and its status on the way as if nothing had been sent
    cases started with
    | running c proc _ agree => exact .running c proc (on_its_way (sent.trans (by rw [proc]))) agree
    | stopped c proc _ unread =>
      exact .stopped c proc (on_its_way (sent.trans (by rw [proc]))) unread.kill
    | dead w proc unread => exact .dead w proc unread.kill
  | reporting w server held settled unread => exact .reporting w server held (settles settled) unread.kill
  | reported w server held settled unread => exact .reported w server held (settles settled) unread.kill

theorem kill_inv (inv : Inv cfg s) (step : fuzzerStep s .kill = some s') : Inv cfg s' := by
  obtain ⟨pid, here, rfl⟩ := kill_step step
  obtain ⟨killed, words, busy, ctl, serving⟩ := inv.phase.in_call (by simp [here]) (by simp [here])
  rw [here] at busy
  obtain ⟨rfl, rfl, rfl, _⟩ := busy.at_timedOut
  have after := serving.kill (.awaitLate s.childPid) true
  have others {pid : Nat} (different : pid ≠ s.childPid) := kill_pending_of_ne s different
  rw [kill_eq] at after ⊢
  refine ⟨?_, inv.positive, inv.named, .serving (.awaitLate rfl rfl) ctl after⟩
  intro pid different
  exact ⟨(inv.alone pid different).1, (others different).trans (inv.alone pid different).2⟩

theorem fuzzerStep_inv (inv : Inv cfg s) {act : FuzzerAct} (step : fuzzerStep s act = some s') :
    Inv cfg s' := by
  cases act with
  | request => exact request_inv inv step
  | readPid => exact readPid_inv inv step
  | readStatus => exact readStatus_inv inv step
  | timeout => exact timeout_inv inv step
  | kill => exact kill_inv inv step
  | readLate => exact readLate_inv inv step

/-! ## The steps of the server -/

/-- With its only process collected, no process is left. -/
theorem Inv.collect_alone (inv : Inv cfg s) (pid : Nat) :
    (s.collect s.childPid).procs pid = none ∧ (s.collect s.childPid).pending pid = false := by
  by_cases here : pid = s.childPid
  · subst here
    exact ⟨Function.update_self _ _ _, Function.update_self _ _ _⟩
  · obtain ⟨proc, pending⟩ := inv.alone pid here
    exact ⟨(Function.update_of_ne here _ _).trans proc, (Function.update_of_ne here _ _).trans pending⟩

/-- A new process takes the place of one that is gone. -/
theorem fork_inv (inv : Inv cfg s) (fuzzer : s.fuzzer = .awaitPid) (clear : s.lastRunTimedOut = false)
    (ctl : s.ctl = []) (st : s.st = []) (cleared : s.childStopped = false)
    (proc : s.procs s.childPid = none) (quiet : s.pending s.childPid = false)
    (agree : Agree s.executions s.results) : Inv cfg { s.fork cfg with server := .writePid } := by
  have none_left (pid : Nat) : s.procs pid = none ∧ s.pending pid = false := by
    by_cases here : pid = s.childPid
    · exact here ▸ ⟨proc, quiet⟩
    · exact inv.alone pid here
  refine ⟨?_, Nat.succ_pos _, fun _ => inv.positive, .writing fuzzer clear rfl ctl st cleared ?_⟩
  · intro pid different
    exact ⟨(Function.update_of_ne different _ _).trans (none_left pid).1, (none_left pid).2⟩
  · refine .running cfg.cycleCnt (Function.update_self _ _ _) ⟨fun sent => ?_, by simp⟩ agree
    -- no signal can be on its way to a process that was not there
    exact absurd (sent.symm.trans (none_left s.nextPid).2) (by simp)

/-- A stopped child that nobody killed runs again. -/
theorem resume_inv (inv : Inv cfg s) (fuzzer : s.fuzzer = .awaitPid) (clear : s.lastRunTimedOut = false)
    (ctl : s.ctl = []) (st : s.st = []) {cycleCnt : BitVec 32}
    (proc : s.procs s.childPid = some (.stopped cycleCnt))
    (quiet : Sent cfg (s.pending s.childPid) false) (agree : Agree s.executions s.results) :
    Inv cfg { s.resume with server := .writePid } := by
  have resumed : s.resume = { s with
      procs := Function.update s.procs s.childPid (some (.running cycleCnt))
      childStopped := false } := by
    unfold State.resume
    rw [proc]
  rw [resumed]
  refine ⟨?_, inv.positive, fun _ => inv.named (by simp [proc]), .writing fuzzer clear rfl ctl st rfl ?_⟩
  · intro pid different
    exact ⟨(Function.update_of_ne different _ _).trans (inv.alone pid different).1,
      (inv.alone pid different).2⟩
  · exact .running cycleCnt (Function.update_self _ _ _) quiet agree

theorem readCtl_inv (inv : Inv cfg s) {killed : Bool} (fuzzer : s.fuzzer = .awaitPid)
    (clear : s.lastRunTimedOut = false) (server : s.server = .readCtl) (ctl : s.ctl = [killed.toNat])
    (st : s.st = []) (settled : s.Settled cfg killed) (agree : Agree s.executions s.results)
    (step : serverStep cfg s = some s') : Inv cfg s' := by
  simp only [serverStep, server, ctl] at step
  -- the server waits for a child only if it stopped and was killed: one that died it has collected
  by_cases dying : s.childStopped = true ∧ killed.toNat ≠ 0
  · rw [if_pos dying] at step
    cases step
    have killed : killed = true := by simpa using dying.2
    subst killed
    refine ⟨inv.alone, inv.positive, inv.named, .reaping fuzzer clear rfl rfl st rfl ?_ agree⟩
    cases settled with
    | gone flag => exact absurd (dying.1.symm.trans flag) (by simp)
    | stopped c _ proc sent => exact .inl ⟨c, proc, fun sigkill => sent.pending sigkill rfl⟩
    | dead w _ proc => exact .inr ⟨w, proc⟩
  · rw [if_neg dying] at step
    cases step
    refine ⟨inv.alone, inv.positive, inv.named, .launching fuzzer clear rfl rfl st ?_ agree⟩
    cases settled with
    | gone flag proc quiet => exact .gone flag proc quiet
    | stopped c flag proc sent =>
      have alive : killed = false := by
        by_contra was
        exact dying ⟨flag, by simpa using was⟩
      exact .stopped c flag proc (alive ▸ sent)
    | dead w flag proc was => exact absurd ⟨flag, by simp [was]⟩ dying

theorem launch_inv (inv : Inv cfg s) (fuzzer : s.fuzzer = .awaitPid) (clear : s.lastRunTimedOut = false)
    (server : s.server = .launch) (ctl : s.ctl = []) (st : s.st = []) (settled : s.Settled cfg false)
    (agree : Agree s.executions s.results) (step : serverStep cfg s = some s') : Inv cfg s' := by
  simp only [serverStep, server] at step
  cases settled with
  | gone flag proc quiet =>
    rw [if_pos flag] at step
    cases step
    exact fork_inv inv fuzzer clear ctl st flag proc quiet agree
  | stopped c flag proc sent =>
    rw [if_neg (by simp [flag])] at step
    cases step
    exact resume_inv inv fuzzer clear ctl st proc sent agree
  | dead _ _ _ was => cases was

/-- `waitpid` returns for a child that died or, of a persistent target, that stopped. -/
theorem await_inv (inv : Inv cfg s) {killed : Bool} {words : List Nat}
    (busy : Busy s.childPid s.fuzzer s.lastRunTimedOut killed words) (ctl : s.ctl = [])
    (server : s.server = .await) (st : s.st = words) (cleared : s.childStopped = false)
    (started : s.Started cfg killed) (step : serverStep cfg s = some s') : Inv cfg s' := by
  simp only [serverStep, server] at step
  cases started with
  | running c proc => simp [proc] at step
  | stopped c proc sent unread =>
    simp only [proc] at step
    split at step
    · cases step
      exact ⟨inv.alone, inv.positive, inv.named,
        .serving busy ctl (.reporting stopWord rfl st (.stopped c rfl proc sent) unread)⟩
    · cases step
  | dead w proc unread =>
    simp only [proc, Option.some.injEq] at step
    subst step
    -- with the process goes a signal that came too late for it
    have gone := inv.collect_alone
    refine ⟨fun pid _ => gone pid, inv.positive, fun some => absurd (gone s.childPid).1 some, ?_⟩
    exact .serving busy ctl
      (.reporting w rfl st (.gone cleared (gone s.childPid).1 (gone s.childPid).2) unread)

theorem serverStep_inv (inv : Inv cfg s) (step : serverStep cfg s = some s') : Inv cfg s' := by
  cases inv.phase with
  -- without a request in the pipe the server waits, between calls and at the end of one
  | idle _ server ctl => simp [serverStep, server, ctl] at step
  | requested _ fuzzer clear server ctl st settled agree _ =>
    exact readCtl_inv inv fuzzer clear server ctl st settled agree step
  | reaping fuzzer clear server ctl st cleared dying agree =>
    simp only [serverStep, server] at step
    split at step
    next w proc =>
      cases step
      have gone := inv.collect_alone
      exact ⟨fun pid _ => gone pid, inv.positive, fun some => absurd (gone s.childPid).1 some,
        .launching fuzzer clear rfl ctl st (.gone cleared (gone s.childPid).1 (gone s.childPid).2) agree⟩
    next => cases step
  | launching fuzzer clear server ctl st settled agree =>
    exact launch_inv inv fuzzer clear server ctl st settled agree step
  | writing fuzzer clear server ctl st cleared started =>
    simp only [serverStep, server, Option.some.injEq] at step
    subst step
    have named : 0 < s.childPid := by
      refine inv.named ?_
      cases started with
      | running _ proc | stopped _ proc | dead _ proc => simp [proc]
    refine ⟨inv.alone, inv.positive, inv.named, .serving (.awaitPid fuzzer clear named) ctl ?_⟩
    exact .awaiting rfl (congrArg (· ++ [s.childPid]) st) cleared started
  | serving busy ctl serving =>
    cases serving with
    | awaiting server st cleared started => exact await_inv inv busy ctl server st cleared started step
    | reporting w server st settled unread =>
      simp only [serverStep, server, Option.some.injEq] at step
      subst step
      exact ⟨inv.alone, inv.positive, inv.named,
        .serving busy ctl (.reported w rfl (congrArg (· ++ [w]) st) settled unread)⟩
    | reported _ server => simp [serverStep, server, ctl] at step

/-! ## The steps of the child and the signals -/

/-- While the child runs an execution is going on, and what happens to the child may change. -/
theorem Inv.during (inv : Inv cfg s) {cycleCnt : BitVec 32}
    (runs : s.procs s.childPid = some (.running cycleCnt)) :
    ∃ killed, Sent cfg (s.pending s.childPid) killed ∧ Agree s.executions s.results ∧
      ∀ procs pending executions, State.Started { s with procs, pending, executions } cfg killed →
        (∀ pid, pid ≠ s.childPid → procs pid = none ∧ pending pid = false) →
        Inv cfg { s with procs, pending, executions } := by
  have named : 0 < s.childPid := inv.named (by simp [runs])
  have facts {killed : Bool} (started : s.Started cfg killed) :
      Sent cfg (s.pending s.childPid) killed ∧ Agree s.executions s.results := by
    cases started with
    | running _ _ sent agree => exact ⟨sent, agree⟩
    | stopped _ proc | dead _ proc =>
      rw [runs] at proc
      cases proc
  have not_settled {killed : Bool} (settled : s.Settled cfg killed) : False := by
    cases settled with
    | gone _ proc | stopped _ _ proc | dead _ _ proc =>
      rw [runs] at proc
      cases proc
  cases inv.phase with
  | idle _ _ _ _ settled | requested _ _ _ _ _ _ settled | launching _ _ _ _ _ settled =>
    exact (not_settled settled).elim
  | reaping _ _ _ _ _ _ dying =>
    rw [runs] at dying
    simp at dying
  | writing fuzzer clear server ctl st cleared started =>
    refine ⟨false, (facts started).1, (facts started).2, ?_⟩
    intro procs pending executions started alone
    exact ⟨alone, inv.positive, fun _ => named, .writing fuzzer clear server ctl st cleared started⟩
  | @serving killed _ busy ctl serving =>
    cases serving with
    | awaiting server st cleared started =>
      refine ⟨killed, (facts started).1, (facts started).2, ?_⟩
      intro procs pending executions started alone
      exact ⟨alone, inv.positive, fun _ => named,
        .serving busy ctl (.awaiting server st cleared started)⟩
    | reporting _ _ _ settled | reported _ _ _ settled => exact (not_settled settled).elim

/-- The only process that can do anything is the child. -/
theorem Inv.running_child (inv : Inv cfg s) {pid : Nat} {cycleCnt : BitVec 32}
    (runs : s.procs pid = some (.running cycleCnt)) : pid = s.childPid := by
  by_contra other
  rw [(inv.alone pid other).1] at runs
  cases runs

/-- A child ends its execution, or catches the fuzzer's signal. -/
theorem childStep_step {pid : Nat} {act : ChildAct} (step : childStep cfg s pid act = some s') :
    ∃ cycleCnt, s.procs pid = some (.running cycleCnt) ∧
      ((∃ status proc, s' = s.ends pid status false proc ∧
        ((∃ c, proc = .stopped c ∧ status = stopWord) ∨ proc = .zombie status)) ∨
      s.pending pid = true ∧ cfg.childKillSignal ≠ sigkill ∧
        s' = { s with pending := Function.update s.pending pid false }) := by
  simp only [childStep] at step
  split at step
  next c runs =>
    refine ⟨c, runs, ?_⟩
    cases act with
    | loop =>
      simp only at step
      split at step
      · cases step
        exact .inl ⟨_, _, rfl, .inl ⟨_, rfl, rfl⟩⟩
      · cases step
    | exit code =>
      cases step
      exact .inl ⟨_, _, rfl, .inr rfl⟩
    | crash sig =>
      simp only at step
      split at step
      · cases step
        exact .inl ⟨_, _, rfl, .inr rfl⟩
      · cases step
    | «catch» =>
      simp only at step
      split at step
      next caught =>
        cases step
        exact .inr ⟨caught.1, caught.2, rfl⟩
      next => cases step
  next => cases step

theorem childStep_inv (inv : Inv cfg s) {pid : Nat} {act : ChildAct}
    (step : childStep cfg s pid act = some s') : Inv cfg s' := by
  obtain ⟨c, runs, ended | caught⟩ := childStep_step step
  · obtain ⟨status, proc, rfl, fate⟩ := ended
    obtain rfl := inv.running_child runs
    obtain ⟨killed, sent, agree, after⟩ := inv.during runs
    refine after _ _ _ ?_ ?_
    · have unread (status : Nat) : Unread s.childPid (⟨s.childPid, status, false⟩ :: s.executions)
          s.results killed status := ⟨_, _, rfl, rfl, fun _ => ⟨rfl, rfl⟩, agree⟩
      rcases fate with ⟨c', rfl, rfl⟩ | rfl
      · exact .stopped c' (Function.update_self _ _ _) sent (unread _)
      · exact .dead status (Function.update_self _ _ _) (unread _)
    · intro pid different
      exact ⟨(Function.update_of_ne different _ _).trans (inv.alone pid different).1,
        (inv.alone pid different).2⟩
  · obtain ⟨_, other, rfl⟩ := caught
    obtain rfl := inv.running_child runs
    obtain ⟨killed, sent, agree, after⟩ := inv.during runs
    refine after _ _ _ ?_ ?_
    · -- the execution goes on as if nobody had sent anything
      have quiet : Function.update s.pending s.childPid false s.childPid = false :=
        Function.update_self _ _ _
      exact .running c runs ⟨fun impossible => absurd (impossible.symm.trans quiet) (by simp),
        fun same => absurd same other⟩ agree
    · intro pid different
      exact ⟨(inv.alone pid different).1,
        (Function.update_of_ne different _ _).trans (inv.alone pid different).2⟩

/-- A signal changes the child, whatever fuzzer and server are doing. -/
theorem Inv.signalled (inv : Inv cfg s) {procs : Nat → Option Proc} {pending : Nat → Bool}
    (settles : ∀ {killed}, s.Settled cfg killed →
      Settled cfg s.childStopped (procs s.childPid) (pending s.childPid) killed)
    (starts : ∀ {killed}, s.Started cfg killed → State.Started { s with procs, pending } cfg killed)
    (dies : ∃ w, procs s.childPid = some (.zombie w))
    (alone : ∀ pid, pid ≠ s.childPid → procs pid = none ∧ pending pid = false)
    (named : 0 < s.childPid) : Inv cfg { s with procs, pending } := by
  refine ⟨alone, inv.positive, fun _ => named, ?_⟩
  cases inv.phase with
  | idle fuzzer server ctl st settled agree told =>
    exact .idle fuzzer server ctl st (settles settled) agree told
  | requested killed fuzzer clear server ctl st settled agree told =>
    exact .requested killed fuzzer clear server ctl st (settles settled) agree told
  | reaping fuzzer clear server ctl st cleared _ agree =>
    exact .reaping fuzzer clear server ctl st cleared (.inr dies) agree
  | launching fuzzer clear server ctl st settled agree =>
    exact .launching fuzzer clear server ctl st (settles settled) agree
  | writing fuzzer clear server ctl st cleared started =>
    exact .writing fuzzer clear server ctl st cleared (starts started)
  | serving busy ctl serving =>
    refine .serving busy ctl ?_
    cases serving with
    | awaiting server st cleared started => exact .awaiting server st cleared (starts started)
    | reporting w server st settled unread => exact .reporting w server st (settles settled) unread
    | reported w server st settled unread => exact .reported w server st (settles settled) unread

/-- A signal that finds the child stopped: its execution was over. -/
theorem deliver_stopped_inv (inv : Inv cfg s) {cycleCnt : BitVec 32} {status : Nat}
    (sent : s.pending s.childPid = true)
    (proc : s.procs s.childPid = some (.stopped cycleCnt)) {pending : Nat → Bool}
    (quiet : ∀ pid, pid ≠ s.childPid → pending pid = false) :
    Inv cfg { s with
      pending
      procs := Function.update s.procs s.childPid (some (.zombie status)) } := by
  have here : Function.update s.procs s.childPid (some (.zombie status)) s.childPid =
      some (.zombie status) := Function.update_self _ _ _
  refine inv.signalled ?_ ?_ ⟨_, here⟩ ?_ (inv.named (by simp [proc]))
  · intro killed settled
    cases settled with
    | gone _ none | dead _ _ none =>
      rw [proc] at none
      cases none
    | stopped c flag _ was => exact .dead _ flag here (was.of_pending sent)
  · intro killed started
    cases started with
    | running _ none | dead _ none =>
      rw [proc] at none
      cases none
    | stopped c _ was unread =>
      -- the call knows that it timed out, so that the status may be either
      obtain rfl := was.of_pending sent
      obtain ⟨e, es, last, pid, _, agree⟩ := unread
      exact .dead _ here ⟨e, es, last, pid, fun impossible => absurd impossible (by simp), agree⟩
  · intro pid different
    exact ⟨(Function.update_of_ne different _ _).trans (inv.alone pid different).1, quiet pid different⟩

/-- A signal for a process that is dead already. -/
theorem deliver_dead_inv (inv : Inv cfg s) {status : Nat}
    (proc : s.procs s.childPid = some (.zombie status)) {pending : Nat → Bool}
    (quiet : ∀ pid, pid ≠ s.childPid → pending pid = false) : Inv cfg { s with pending } := by
  refine inv.signalled ?_ ?_ ⟨status, proc⟩ ?_ (inv.named (by simp [proc]))
  · intro killed settled
    cases settled with
    | gone _ none | stopped _ _ none =>
      rw [proc] at none
      cases none
    | dead w flag proc was => exact .dead w flag proc was
  · intro killed started
    cases started with
    | running _ none | stopped _ none =>
      rw [proc] at none
      cases none
    | dead w proc unread => exact .dead w proc unread
  · intro pid different
    exact ⟨(inv.alone pid different).1, quiet pid different⟩

/-- A signal is on its way to a process only. -/
theorem Inv.sent_to (inv : Inv cfg s) {pid : Nat} (sent : s.pending pid = true) :
    pid = s.childPid ∧ s.procs s.childPid ≠ none := by
  have here : pid = s.childPid := by
    by_contra other
    rw [(inv.alone pid other).2] at sent
    cases sent
  subst here
  refine ⟨rfl, ?_⟩
  intro none
  have not_settled {killed : Bool} (settled : s.Settled cfg killed) : False := by
    cases settled with
    | gone _ _ quiet => exact absurd (quiet.symm.trans sent) (by simp)
    | stopped _ _ proc | dead _ _ proc =>
      rw [none] at proc
      cases proc
  have not_started {killed : Bool} (started : s.Started cfg killed) : False := by
    cases started with
    | running _ proc | stopped _ proc | dead _ proc =>
      rw [none] at proc
      cases proc
  cases inv.phase with
  | idle _ _ _ _ settled | requested _ _ _ _ _ _ settled | launching _ _ _ _ _ settled =>
    exact not_settled settled
  | reaping _ _ _ _ _ _ dying =>
    rw [none] at dying
    simp at dying
  | writing _ _ _ _ _ _ started => exact not_started started
  | serving _ _ serving =>
    cases serving with
    | awaiting _ _ _ started => exact not_started started
    | reporting _ _ _ settled | reported _ _ _ settled => exact not_settled settled

theorem deliverStep_inv (inv : Inv cfg s) {pid : Nat} (step : deliverStep cfg s pid = some s') :
    Inv cfg s' := by
  simp only [deliverStep] at step
  split at step
  next sent =>
    obtain ⟨rfl, some⟩ := inv.sent_to sent
    have others (pid : Nat) (different : pid ≠ s.childPid) :
        Function.update s.pending s.childPid false pid = false :=
      (Function.update_of_ne different _ _).trans (inv.alone pid different).2
    split at step
    next c runs =>
      cases step
      obtain ⟨killed, was, agree, after⟩ := inv.during runs
      refine after _ _ _ ?_ ?_
      · refine .dead _ (Function.update_self _ _ _) ⟨_, _, rfl, rfl, ?_, agree⟩
        intro alive
        exact absurd ((was.of_pending sent).symm.trans alive) (by simp)
      · intro pid different
        exact ⟨(Function.update_of_ne different _ _).trans (inv.alone pid different).1,
          others pid different⟩
    next c proc =>
      split at step
      · cases step
        exact deliver_stopped_inv inv sent proc others
      · cases step
    next running stopped =>
      cases step
      cases child : s.procs s.childPid with
      | none => exact absurd child some
      | some proc =>
        cases proc with
        | running c => exact absurd child (running c)
        | stopped c => exact absurd child (stopped c)
        | zombie w => exact deliver_dead_inv inv child others
  next => cases step

/-- Every step keeps the invariant. -/
theorem step_inv (inv : Inv cfg s) {act : Act} (took : step cfg s act = some s') : Inv cfg s' := by
  cases act with
  | fuzzer act => exact fuzzerStep_inv inv took
  | server => exact serverStep_inv inv took
  | child pid act => exact childStep_inv inv took
  | deliver pid => exact deliverStep_inv inv took

/-! ## Whole runs -/

/-- Runs from the handshake on, in any order of the steps. -/
abbrev Reachable (cfg : Config) : List Act → State → Prop :=
  Trace (· = initial) fun s act s' => step cfg s act = some s'

theorem reachable_inv {acts : List Act} (run : Reachable cfg acts s) : Inv cfg s := by
  refine run.invariant ?_ fun _ _ _ inv took => step_inv inv took
  rintro _ rfl
  exact initial_inv cfg

/-- Whose words are read: the server finds in its pipe one word, the current request's, which tells
whether the call before timed out; the fuzzer finds the process id of the child where it waits for
one, and else the status of the last execution, which no call has read. -/
structure WordsRead (s : State) : Prop where
  ctl : ∀ wasKilled rest, s.ctl = wasKilled :: rest →
    rest = [] ∧ s.fuzzer = .awaitPid ∧ wasKilled = (lastTimedOut s.results).toNat
  pid : ∀ word rest, s.fuzzer = .awaitPid → s.st = word :: rest → word = s.childPid ∧ 0 < word
  status : ∀ pid word rest, s.fuzzer = .awaitStatus pid ∨ s.fuzzer = .awaitLate pid →
    s.st = word :: rest → rest = [] ∧ pid = s.childPid ∧
      ∃ e es, s.executions = e :: es ∧ e.pid = pid ∧ Agree es s.results ∧
        (s.fuzzer = .awaitStatus pid → word = e.status ∧ e.killed = false)

theorem Inv.ctl_read (inv : Inv cfg s) {wasKilled : Nat} {rest : List Nat}
    (held : s.ctl = wasKilled :: rest) :
    rest = [] ∧ s.fuzzer = .awaitPid ∧ wasKilled = (lastTimedOut s.results).toNat := by
  cases inv.phase with
  | requested killed fuzzer _ _ ctl _ _ _ told =>
    rw [held] at ctl
    cases ctl
    exact ⟨rfl, fuzzer, by rw [told]⟩
  | idle _ _ ctl | reaping _ _ _ ctl | launching _ _ _ ctl | writing _ _ _ ctl | serving _ ctl =>
    rw [held] at ctl
    cases ctl

theorem Inv.pid_read (inv : Inv cfg s) {word : Nat} {rest : List Nat} (here : s.fuzzer = .awaitPid)
    (held : s.st = word :: rest) : word = s.childPid ∧ 0 < word := by
  cases inv.phase with
  | idle _ _ _ st | requested _ _ _ _ _ st | reaping _ _ _ _ st | launching _ _ _ _ st
  | writing _ _ _ _ st =>
    rw [held] at st
    cases st
  | serving busy ctl serving =>
    cases busy with
    | awaitPid _ _ named =>
      obtain ⟨rfl, _⟩ := serving.read held s.fuzzer
      exact ⟨rfl, named⟩
    | awaitStatus other | timedOut other | awaitLate other =>
      rw [here] at other
      cases other

/-- With no other words before it, the word in the pipe is the status of the last execution. -/
theorem Serving.status_read {killed : Bool} {word : Nat} {rest : List Nat}
    (serving : Serving cfg s killed []) (held : s.st = word :: rest) :
    rest = [] ∧ ∃ e es, s.executions = e :: es ∧ e.pid = s.childPid ∧ Agree es s.results ∧
      (killed = false → word = e.status ∧ e.killed = false) := by
  cases serving with
  | awaiting _ st | reporting _ _ st =>
    rw [held] at st
    cases st
  | reported status _ st _ unread =>
    rw [held] at st
    cases st
    obtain ⟨e, es, last, pid, fate, agree⟩ := unread
    exact ⟨rfl, e, es, last, pid, agree, fun alive => ⟨(fate alive).1.symm, (fate alive).2⟩⟩

theorem Inv.status_read (inv : Inv cfg s) {pid word : Nat} {rest : List Nat}
    (here : s.fuzzer = .awaitStatus pid ∨ s.fuzzer = .awaitLate pid) (held : s.st = word :: rest) :
    rest = [] ∧ pid = s.childPid ∧ ∃ e es, s.executions = e :: es ∧ e.pid = pid ∧
      Agree es s.results ∧ (s.fuzzer = .awaitStatus pid → word = e.status ∧ e.killed = false) := by
  obtain ⟨killed, words, busy, _, serving⟩ := inv.phase.in_call
    (by rcases here with at_ | at_ <;> simp [at_]) (by rcases here with at_ | at_ <;> simp [at_])
  rcases here with at_ | at_
  · rw [at_] at busy
    obtain ⟨rfl, rfl, rfl, _⟩ := busy.at_awaitStatus
    obtain ⟨rfl, e, es, last, pid, agree, fate⟩ := serving.status_read held
    exact ⟨rfl, rfl, e, es, last, pid, agree, fun _ => fate rfl⟩
  · rw [at_] at busy
    obtain ⟨rfl, rfl, rfl, _⟩ := busy.at_awaitLate
    obtain ⟨rfl, e, es, last, pid, agree, _⟩ := serving.status_read held
    exact ⟨rfl, rfl, e, es, last, pid, agree, fun other => absurd (at_.symm.trans other) (by simp)⟩

/-- In every order of the steps there is never a process beside the child, each word is read for
what it is, a child is continued only when it is stopped and nobody killed it, and the results
of the calls are what became of the executions, one for each in their order. -/
theorem calls_agree {acts : List Act} (run : Reachable cfg acts s) :
    (∀ pid, pid ≠ s.childPid → s.procs pid = none) ∧ s.fuzzer ≠ .fatal ∧ WordsRead s ∧
      (s.server = .launch → s.childStopped = true →
        ∃ cycleCnt, s.procs s.childPid = some (.stopped cycleCnt) ∧ s.pending s.childPid = false) ∧
      (s.fuzzer = .idle → Agree s.executions s.results) := by
  have inv := reachable_inv run
  refine ⟨fun pid other => (inv.alone pid other).1, ?_, ⟨fun _ _ => inv.ctl_read,
    fun _ _ => inv.pid_read, fun _ _ _ => inv.status_read⟩, ?_, ?_⟩
  · intro here
    cases inv.phase with
    | idle fuzzer | requested _ fuzzer | reaping fuzzer | launching fuzzer | writing fuzzer =>
      rw [here] at fuzzer
      cases fuzzer
    | serving busy =>
      rw [here] at busy
      cases busy <;> contradiction
  · intro here flag
    cases inv.phase with
    | idle _ server | requested _ _ _ server | reaping _ _ server | writing _ _ server =>
      rw [here] at server
      cases server
    | launching _ _ _ _ _ settled =>
      cases settled with
      | gone clear => exact absurd (flag.symm.trans clear) (by simp)
      | stopped c _ proc sent =>
        refine ⟨c, proc, ?_⟩
        cases pending : s.pending s.childPid with
        | false => rfl
        | true => exact absurd (sent.of_pending pending) (by simp)
      | dead _ _ _ was => cases was
    | serving _ _ serving =>
      cases serving with
      | awaiting server | reporting _ server | reported _ server =>
        rw [here] at server
        cases server
  · intro here
    cases inv.phase with
    | idle _ _ _ _ _ agree => exact agree
    | requested _ fuzzer | reaping fuzzer | launching fuzzer | writing fuzzer =>
      rw [here] at fuzzer
      cases fuzzer
    | serving busy => exact absurd here busy.not_idle

/-! ## A run -/

def steps (cfg : Config) : List Act → State → Option State
  | [], s => some s
  | act :: acts, s => (step cfg s act).bind (steps cfg acts)

theorem reachable_steps {past acts : List Act} (run : Reachable cfg past s)
    (went : steps cfg acts s = some s') : Reachable cfg (acts.reverse ++ past) s' := by
  induction acts generalizing past s with
  | nil =>
    cases went
    exact run
  | cons act acts ih =>
    obtain ⟨mid, took, rest⟩ := Option.bind_eq_some_iff.mp went
    rw [List.reverse_cons, List.append_assoc]
    exact ih (run.next took) rest

/-- A persistent target of a thousand passes and the default signal. -/
def thousandPasses : Config := ⟨true, 1000, sigkill, rfl⟩

/-- A call whose child stops itself just before it is killed, and the next call. -/
def killedLate : List Act :=
  [.fuzzer .request, .server, .server, .server, .fuzzer .readPid, .fuzzer .timeout, .child 1 .loop,
    .fuzzer .kill, .server, .server, .fuzzer .readLate,
    .fuzzer .request, .server, .deliver 1, .server, .server, .server, .fuzzer .readPid, .child 2 .loop,
    .server, .server, .fuzzer .readStatus]

/-- The child that was killed late is not continued: the next execution is one of a new child. -/
theorem calls_agree_killedLate : ∃ s, Reachable thousandPasses killedLate.reverse s ∧
    s.results = [⟨2, stopWord, false⟩, ⟨1, stopWord, true⟩] ∧ Agree s.executions s.results := by
  obtain ⟨s, went, here, results⟩ : ∃ s, steps thousandPasses killedLate initial = some s ∧
      s.fuzzer = .idle ∧ s.results = [⟨2, stopWord, false⟩, ⟨1, stopWord, true⟩] := ⟨_, rfl, rfl, rfl⟩
  have run : Reachable thousandPasses killedLate.reverse s := by
    simpa using reachable_steps (.start rfl) went
  exact ⟨s, run, results, (calls_agree run).2.2.2.2 here⟩

end Swam.Afl.Forkserver
