import Swam.Afl.SkipInference
import Swam.Afl.SaveIfInteresting

/-!
# Trimming

`trim_case` without custom trimmers and post-processing: chunks of a queue entry are left out as
long as the classified checksum of the trace stays the same, and what remains replaces the file
on disk.
-/
namespace Swam.Afl

open Lib

def trimMinBytes : Nat := 4

def trimStartSteps : Nat := 16

def trimEndSteps : Nat := 1024

/-- On `size_t`. -/
def nextPow2 (n : Nat) : Nat :=
  let out := (n + 2 ^ 64 - 1) % 2 ^ 64
  let out := out ||| out >>> 1
  let out := out ||| out >>> 2
  let out := out ||| out >>> 4
  let out := out ||| out >>> 8
  let out := out ||| out >>> 16
  (out + 1) % 2 ^ 64

/-! ## Writing the file -/

/-- The kernel's answers to `write`: the `n`-th call for a number of bytes takes some of them. -/
structure Writes where
  accepts : Nat → Nat → Nat
  positive : ∀ n count, 0 < count → 0 < accepts n count
  atMost : ∀ n count, accepts n count ≤ count

/-- A file being written; `calls` counts the calls of `write`. -/
structure Writing where
  file : List Byte
  written : Nat
  len : Nat
  off : Nat
  calls : Nat

namespace Writing

/-- `write` appends what it takes of the bytes given. -/
def write (writes : Writes) (data : List Byte) (count : Nat) (w : Writing) : Nat × Writing :=
  let result := writes.accepts w.calls count
  (result, { w with file := w.file ++ data.take result, calls := w.calls + 1 })

/-- The loop under `no_unlink`. -/
def writeAgain (writes : Writes) (buf : List Byte) (len : Nat) (w : Writing) : Writing :=
  let (result, w) := w.write writes buf (len - w.written)
  { w with written := w.written + result }

/-- The loop of `ck_write`; its complaint about a failed call is never reached. -/
def ckWriteRound (writes : Writes) (buf : List Byte) (w : Writing) : Round Empty Writing :=
  let (res, w) := w.write writes (buf.drop w.off) w.len
  if res ≠ w.len ∧ 0 < res ∧ w.written + res ≠ w.len then
    .next { w with written := w.written + res, len := w.len - res, off := w.off + res }
  else .leave w

end Writing

def writeNoUnlink (writes : Writes) (buf : List Byte) (len : Nat) : Option (List Byte) :=
  (whileLoop (fun w => w.written < len) (Writing.writeAgain writes buf len) len
    ⟨[], 0, 0, 0, 0⟩).map Writing.file

def ckWrite (writes : Writes) (buf : List Byte) (len : Nat) : Option (List Byte) :=
  if len = 0 then some []
  else
    match roundLoop (fun _ => true) (fun w => some (Writing.ckWriteRound writes buf w)) (len + 1)
      (⟨[], 0, len, 0, 0⟩ : Writing) with
    | some (.ok w) => some w.file
    | _ => none

/-- `ftruncate`: a shorter file is filled with zeros. -/
def ftruncate (file : List Byte) (len : Nat) : List Byte :=
  file.take len ++ List.replicate (len - file.length) 0

/-! ## Delivering the input -/

/-- Where the target finds its input: `use_shmem_fuzz`, or without it a file of its own, or, with
`use_stdin`, the file that is its standard input. -/
inductive Delivery where
  | sharedMemory | outFile | stdin
  deriving DecidableEq, Repr

/-- What one call meets. The classified checksum is a function of the input; `stops` and `faults`
are those after the `n`-th execution, and `headWrites` and `tailWrites` the kernel's answers to the
two calls of `ck_write` before it. -/
structure TrimCall where
  noUnlink : Bool
  delivery : Delivery
  cksum : List Byte → Cksum
  execCksum : Cksum
  stopSoon : Nat → Bool
  faults : Nat → FsrvRun
  headWrites : Nat → Writes
  tailWrites : Nat → Writes
  writes : Writes

/-- The two parts of a test case with a gap, each through `ck_write`. -/
def writeParts (call : TrimCall) (n : Nat) (mem : List Byte) (len skipAt skipLen : Nat) :
    Option (List Byte) :=
  let tailLen := len - skipAt - skipLen
  match ckWrite (call.headWrites n) mem skipAt,
    ckWrite (call.tailWrites n) (mem.drop (skipAt + skipLen)) tailLen with
  | some head, some tail => some (head ++ tail)
  | _, _ => none

/-- What the target gets in the `n`-th execution; `before` is what is there already. A file of
its own is opened empty, standard input is written over from its start. -/
def writeWithGap (call : TrimCall) (n : Nat) (before mem : List Byte) (len skipAt skipLen : Nat) :
    Option (List Byte) :=
  let tailLen := len - skipAt - skipLen
  match call.delivery with
  | .sharedMemory => some (mem.take skipAt ++ (mem.drop (skipAt + skipLen)).take tailLen)
  | .outFile => writeParts call n mem len skipAt skipLen
  | .stdin => (writeParts call n mem len skipAt skipLen).map fun written =>
      ftruncate (memcpy before 0 written) (len - skipLen)

/-! ## Leaving out chunks -/

/-- One execution: which chunk was left out, the two parts around it, what was there before them,
and what the target got. -/
structure TrimRun where
  number : Nat
  removeLen : Nat
  removePos : Nat
  head : List Byte
  tail : List Byte
  before : List Byte
  input : List Byte

/-- The entry's length, the locals, what the target's file or shared memory holds, and the
executions, the most recent first. -/
structure Trimming where
  inBuf : List Byte
  len : Nat
  lenP2 : Nat
  removeLen : Nat
  removePos : Nat
  needsWrite : Bool
  fault : FsrvRun
  delivered : List Byte
  runs : List TrimRun

namespace Trimming

/-- The execution without the chunk at the current position. -/
def nextRun (s : Trimming) (input : List Byte) : TrimRun :=
  let trimAvail := min s.removeLen (s.len - s.removePos)
  { number := s.runs.length
    removeLen := s.removeLen
    removePos := s.removePos
    head := s.inBuf.take s.removePos
    tail := (s.inBuf.drop (s.removePos + trimAvail)).take (s.len - s.removePos - trimAvail)
    before := s.delivered
    input }

/-- The body of the inner loop. -/
def removeChunk (call : TrimCall) (s : Trimming) : Option (Round Trimming Trimming) :=
  let trimAvail := min s.removeLen (s.len - s.removePos)
  let n := s.runs.length
  match writeWithGap call n s.delivered s.inBuf s.len s.removePos trimAvail with
  | none => none
  | some input =>
    let s := { s with
      fault := call.faults n
      delivered := input
      runs := s.nextRun input :: s.runs }
    if call.stopSoon n ∨ s.fault = .error then some (.stop s)
    else if call.cksum input = call.execCksum then
      let moveTail := s.len - s.removePos - trimAvail
      let len := s.len - trimAvail
      some (.next { s with
        len
        lenP2 := u32 (nextPow2 len)
        inBuf := memcpy s.inBuf s.removePos
          ((s.inBuf.drop (s.removePos + trimAvail)).take moveTail)
        needsWrite := true })
    else some (.next { s with removePos := u32 (s.removePos + s.removeLen) })

/-- The body of the outer loop; no inner loop takes more rounds than the entry has bytes. -/
def removeChunks (call : TrimCall) (origLen : Nat) (s : Trimming) :
    Option (Round Trimming Trimming) :=
  match roundLoop (fun s => s.removePos < s.len) (removeChunk call) (origLen + 1)
      { s with removePos := s.removeLen } with
  | none => none
  | some (.error s) => some (.stop s)
  | some (.ok s) => some (.next { s with removeLen := s.removeLen / 2 })

/-- The file that replaces the old one. -/
def writeBack (call : TrimCall) (s : Trimming) : Option (List Byte) :=
  if call.noUnlink then writeNoUnlink call.writes s.inBuf s.len
  else ckWrite call.writes s.inBuf s.len

/-- `.error` where the call is aborted by a stop or a run error, else the state and the contents
of the file; `none` if a loop has not ended. `delivered` is what the target's file or shared
memory holds from earlier executions. -/
def trimCase (call : TrimCall) (delivered q : List Byte) :
    Option (Except Trimming (Trimming × List Byte)) :=
  let lenP2 := u32 (nextPow2 q.length)
  let removeLen := max (lenP2 / trimStartSteps) trimMinBytes
  let s : Trimming := ⟨q, q.length, lenP2, removeLen, 0, false, .ok, delivered, []⟩
  if q.length < 5 then some (.ok (s, q))
  else
    match roundLoop (fun s => max (s.lenP2 / trimEndSteps) trimMinBytes ≤ s.removeLen)
      (removeChunks call q.length) (removeLen + 1) s with
    | none => none
    | some (.error s) => some (.error s)
    | some (.ok s) =>
      if s.needsWrite then (s.writeBack call).map fun file => .ok (s, file)
      else some (.ok (s, q))

end Trimming

end Swam.Afl
