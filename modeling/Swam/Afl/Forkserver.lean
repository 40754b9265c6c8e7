import Mathlib.Algebra.Order.Ring.Int
import Mathlib.Logic.Function.Basic

/-!
# The fork server

The fuzzer asks the fork server inside of the target for an execution through one pipe, and reads
the process id and the wait status of the child through another one. A child of a persistent
target stops itself after an execution and is continued for the next one. When an execution takes
too long the fuzzer kills the child, which may have stopped or died just before; unless the
signal is `SIGKILL` the child may also catch it. Fuzzer, server, child and kernel take their steps in
any order. What a call makes of the status it read is left out.
-/
namespace Swam.Afl.Forkserver

/-! ## Wait statuses -/

/-- The status of a process that stopped itself with `SIGSTOP`. -/
def stopWord : Nat := 19 <<< 8 ||| 0x7f

/-- The status of a process that called `exit`. -/
def exitWord (code : Nat) : Nat := code % 256 <<< 8

/-- The status of a process that died from a signal and left no core, which the fuzzer forbids. -/
def signalWord (sig : Nat) : Nat := sig

def sigkill : Nat := 9

/-- The signals that end a process that does not catch or ignore them: not those that stop or
continue it, and not those that are ignored by default. -/
def endsProcess (sig : Nat) : Bool := 0 < sig ∧ sig ≤ 64 ∧ sig ∉ [17, 18, 19, 20, 21, 22, 23, 28]

/-! ## The three parties -/

/-- A child: the counter of its loop, and in the end its status. -/
inductive Proc where
  | running (cycleCnt : BitVec 32)
  | stopped (cycleCnt : BitVec 32)
  | zombie (status : Nat)
deriving DecidableEq

/-- Where `afl_fsrv_run_target` is. -/
inductive FuzzerAt where
  | idle
  | awaitPid
  | awaitStatus (pid : Nat)
  /-- The poll came back without a word, and the child is about to be killed. -/
  | timedOut (pid : Nat)
  | awaitLate (pid : Nat)
  | fatal
deriving DecidableEq

/-- Where the loop of `__afl_start_forkserver` is. -/
inductive ServerAt where
  | readCtl
  /-- `waitpid` for a child that stopped and was killed. -/
  | reap
  | launch
  | writePid
  | await
  | writeStatus (status : Nat)
deriving DecidableEq

/-- The target: whether it is persistent, and the argument of its `__AFL_LOOP`; and the signal for
children that take too long, `SIGKILL` unless `AFL_KILL_SIGNAL` names another one. -/
structure Config where
  isPersistent : Bool
  maxCnt : BitVec 32
  childKillSignal : Nat
  ends_child : endsProcess childKillSignal = true

/-- How an execution came to its end. -/
structure Execution where
  pid : Nat
  status : Nat
  killed : Bool
deriving DecidableEq

/-- What a call of `afl_fsrv_run_target` saw. -/
structure RunResult where
  pid : Nat
  childStatus : Nat
  lastRunTimedOut : Bool
deriving DecidableEq

/-- The words in the two pipes, the parties, the processes, and the signals that were sent and not
delivered; beside them what happened, the latest first. -/
structure State where
  ctl : List Nat
  st : List Nat
  fuzzer : FuzzerAt
  lastRunTimedOut : Bool
  server : ServerAt
  childStopped : Bool
  childPid : Nat
  procs : Nat → Option Proc
  pending : Nat → Bool
  nextPid : Nat
  executions : List Execution
  results : List RunResult

/-- After the handshake. -/
def initial : State where
  ctl := []
  st := []
  fuzzer := .idle
  lastRunTimedOut := false
  server := .readCtl
  childStopped := false
  childPid := 0
  procs := fun _ => none
  pending := fun _ => false
  nextPid := 1
  executions := []
  results := []

/-! ## The fuzzer -/

inductive FuzzerAct where
  | request
  | readPid
  | readStatus
  | timeout
  | kill
  | readLate
deriving DecidableEq

/-- The end of `afl_fsrv_run_target`. -/
def State.finish (s : State) (pid childStatus : Nat) : State :=
  { s with
    fuzzer := .idle
    results := ⟨pid, childStatus, s.lastRunTimedOut⟩ :: s.results }

/-- `kill` with the signal of the configuration; there may be no such process any more. -/
def State.kill (s : State) (pid : Nat) : State :=
  match s.procs pid with
  | some (.running _) | some (.stopped _) => { s with pending := Function.update s.pending pid true }
  | _ => s

def fuzzerStep (s : State) : FuzzerAct → Option State
  | .request =>
    match s.fuzzer with
    | .idle => some { s with
        ctl := s.ctl ++ [s.lastRunTimedOut.toNat]
        lastRunTimedOut := false
        fuzzer := .awaitPid }
    | _ => none
  | .readPid =>
    match s.fuzzer, s.st with
    | .awaitPid, pid :: st => some { s with st, fuzzer := if pid = 0 then .fatal else .awaitStatus pid }
    | _, _ => none
  | .readStatus =>
    match s.fuzzer, s.st with
    | .awaitStatus pid, status :: st => some ({ s with st }.finish pid status)
    | _, _ => none
  | .timeout =>
    match s.fuzzer, s.st with
    | .awaitStatus pid, [] => some { s with fuzzer := .timedOut pid }
    | _, _ => none
  | .kill =>
    match s.fuzzer with
    | .timedOut pid => some { s.kill pid with fuzzer := .awaitLate pid, lastRunTimedOut := true }
    | _ => none
  | .readLate =>
    match s.fuzzer, s.st with
    | .awaitLate pid, status :: st => some ({ s with st }.finish pid status)
    | _, _ => none

/-! ## The server -/

/-- A process that was waited for is gone. -/
def State.collect (s : State) (pid : Nat) : State :=
  { s with
    procs := Function.update s.procs pid none
    pending := Function.update s.pending pid false }

/-- The loop counter of a new process; a target that is not persistent does one pass. -/
def Config.cycleCnt (cfg : Config) : BitVec 32 := if cfg.isPersistent then cfg.maxCnt else 1

def State.fork (cfg : Config) (s : State) : State :=
  { s with
    procs := Function.update s.procs s.nextPid (some (.running cfg.cycleCnt))
    childPid := s.nextPid
    nextPid := s.nextPid + 1 }

/-- `SIGCONT` to the child. -/
def State.resume (s : State) : State :=
  match s.procs s.childPid with
  | some (.stopped cycleCnt) =>
    { s with
      procs := Function.update s.procs s.childPid (some (.running cycleCnt))
      childStopped := false }
  | _ => { s with childStopped := false }

/-- The next step of the server, which has no choice. -/
def serverStep (cfg : Config) (s : State) : Option State :=
  match s.server with
  | .readCtl =>
    match s.ctl with
    | [] => none
    | wasKilled :: ctl =>
      if s.childStopped = true ∧ wasKilled ≠ 0 then
        some { s with ctl, childStopped := false, server := .reap }
      else some { s with ctl, server := .launch }
  | .reap =>
    match s.procs s.childPid with
    | some (.zombie _) => some { s.collect s.childPid with server := .launch }
    | _ => none
  | .launch =>
    if s.childStopped = false then some { s.fork cfg with server := .writePid }
    else some { s.resume with server := .writePid }
  | .writePid => some { s with st := s.st ++ [s.childPid], server := .await }
  | .await =>
    match s.procs s.childPid with
    | some (.zombie status) => some { s.collect s.childPid with server := .writeStatus status }
    | some (.stopped _) =>
      -- `WUNTRACED`
      if cfg.isPersistent = true then
        some { s with childStopped := true, server := .writeStatus stopWord }
      else none
    | _ => none
  | .writeStatus status => some { s with st := s.st ++ [status], server := .readCtl }

/-! ## The children -/

inductive ChildAct where
  /-- `__afl_persistent_loop`, other than the first time. -/
  | loop
  | exit (code : Nat)
  | crash (sig : Nat)
  /-- The signal of the fuzzer is caught or ignored, which `SIGKILL` cannot be. -/
  | catch
deriving DecidableEq

/-- The end of an execution. -/
def State.ends (s : State) (pid status : Nat) (killed : Bool) (proc : Proc) : State :=
  { s with
    procs := Function.update s.procs pid (some proc)
    executions := ⟨pid, status, killed⟩ :: s.executions }

def childStep (cfg : Config) (s : State) (pid : Nat) (act : ChildAct) : Option State :=
  match s.procs pid with
  | some (.running cycleCnt) =>
    match act with
    | .loop =>
      let cycleCnt := cycleCnt - 1
      if cfg.isPersistent = true ∧ cycleCnt ≠ 0 then
        some (s.ends pid stopWord false (.stopped cycleCnt))
      else none
    | .exit code => some (s.ends pid (exitWord code) false (.zombie (exitWord code)))
    | .crash sig =>
      if 0 < sig ∧ sig < 0x7f then
        some (s.ends pid (signalWord sig) false (.zombie (signalWord sig)))
      else none
    | .catch =>
      if s.pending pid = true ∧ cfg.childKillSignal ≠ sigkill then
        some { s with pending := Function.update s.pending pid false }
      else none
  | _ => none

/-- The fuzzer's signal arrives and ends the process. A stopped process has done its execution, and
only `SIGKILL` reaches it before it is continued. -/
def deliverStep (cfg : Config) (s : State) (pid : Nat) : Option State :=
  if s.pending pid = true then
    let s := { s with pending := Function.update s.pending pid false }
    let status := signalWord cfg.childKillSignal
    match s.procs pid with
    | some (.running _) => some (s.ends pid status true (.zombie status))
    | some (.stopped _) =>
      if cfg.childKillSignal = sigkill then
        some { s with procs := Function.update s.procs pid (some (.zombie status)) }
      else none
    | _ => some s
  else none

/-! ## The system -/

inductive Act where
  | fuzzer (act : FuzzerAct)
  | server
  | child (pid : Nat) (act : ChildAct)
  | deliver (pid : Nat)
deriving DecidableEq

def step (cfg : Config) (s : State) : Act → Option State
  | .fuzzer act => fuzzerStep s act
  | .server => serverStep cfg s
  | .child pid act => childStep cfg s pid act
  | .deliver pid => deliverStep cfg s pid

end Swam.Afl.Forkserver
