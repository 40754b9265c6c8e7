import Swam.Afl.Testcases
import Swam.Lib.Loops

/-!
# The dictionary stages

The last deterministic stages of `fuzz_one_original` overwrite the seed with dictionary tokens
at every marked offset and insert the tokens there, first those of the user, then those that
were collected automatically.
-/
namespace Swam.Afl

open Lib

/-! ## The dictionary -/

abbrev Token := List Byte

def maxDictFile : Nat := 128

def useAutoExtras : Nat := 4096

def SortedByLength (tokens : List Token) : Prop :=
  tokens.Pairwise fun a b => a.length ≤ b.length

/-- Both lists of tokens; of the automatic ones the first `USE_AUTO_EXTRAS` are sorted. -/
structure Dictionary where
  extras : List Token
  aExtras : List Token
  sorted : SortedByLength extras
  aSorted : SortedByLength (aExtras.take useAutoExtras)

/-- `compare_extras_len`. -/
def compareExtrasLen (a b : Token) : Bool := a.length ≤ b.length

theorem sortedByLength_mergeSort (tokens : List Token) :
    SortedByLength (tokens.mergeSort compareExtrasLen) := by
  have sorted : (tokens.mergeSort compareExtrasLen).Pairwise fun a b => compareExtrasLen a b := by
    refine List.pairwise_mergeSort (fun a b c first second => ?_) (fun a b => ?_) tokens
    · simp only [compareExtrasLen, decide_eq_true_eq] at *
      omega
    · simp only [compareExtrasLen, Bool.or_eq_true, decide_eq_true_eq]
      omega
  exact sorted.imp fun le => by simpa only [compareExtrasLen, decide_eq_true_eq] using le

/-! ## The stages -/

/-- What the stages meet: the answers of the clock and of the target, in their order, the random
numbers below `extras_cnt`, and the byte behind `out_buf`. -/
structure Surroundings where
  timedOut : Nat → Bool
  failed : Nat → Bool
  rand : Nat → Nat
  behind : Byte

inductive TokenUse where
  | overwrite | insert
  deriving DecidableEq, Repr

/-- One execution: the offset, the token and the buffer the target got. -/
structure TokenRun where
  use : TokenUse
  pos : Nat
  token : Token
  input : List Byte
  deriving DecidableEq

/-- `goto custom_mutator_stage` or `goto abandon_entry`. -/
inductive StageExit where
  | timedOut | abandoned
  deriving DecidableEq, Repr

/-- The buffers and locals of the stages. `runs` records the executions, the most recent first,
`finished` the contents of `out_buf` after each stage. -/
structure Extras where
  outBuf : List Byte
  exTmp : List Byte
  lastLen : Nat
  checks : Nat
  rands : Nat
  runs : List TokenRun
  finished : List (List Byte)

/-- Old contents stay, new memory is zero. -/
def aflRealloc (buf : List Byte) (sizeNeeded : Nat) : List Byte :=
  buf ++ List.replicate (sizeNeeded - buf.length) 0

namespace Extras

def commonFuzzStuff (env : Surroundings) (run : TokenRun) (s : Extras) :
    Except (StageExit × Extras) Extras :=
  let s := { s with runs := run :: s.runs }
  if env.failed s.runs.length then .error (.abandoned, s) else .ok s

/-- `is_det_timeout`. -/
def isDetTimeout (env : Surroundings) (s : Extras) : Except (StageExit × Extras) Extras :=
  if env.timedOut s.checks then .error (.timedOut, s) else .ok { s with checks := s.checks + 1 }

/-- Whether a user token is left out because there are many. -/
def skipsAtRandom (env : Surroundings) (cnt : Nat) (maxDetExtras : Option Nat) (s : Extras) :
    Bool × Extras :=
  match maxDetExtras with
  | none => (false, s)
  | some most =>
    if cnt > most then (env.rand s.rands ≥ most, { s with rands := s.rands + 1 }) else (false, s)

def overwriteToken (env : Surroundings) (cnt : Nat) (maxDetExtras : Option Nat) (len i : Nat)
    (s : Extras) (token : Token) : Except (StageExit × Extras) Extras :=
  let (skipped, s) := s.skipsAtRandom env cnt maxDetExtras
  -- no room, or the token is already there
  if skipped ∨ token.length > len - i ∨ (s.outBuf.drop i).take token.length = token then .ok s
  else
    let s := { s with lastLen := token.length, outBuf := memcpy s.outBuf i token }
    s.commonFuzzStuff env ⟨.overwrite, i, token, s.outBuf⟩

/-- One offset of a stage that overwrites; the automatic tokens have no limit of the kind of
`max_det_extras`. -/
def overwriteAt (env : Surroundings) (tokens : List Token) (maxDetExtras : Option Nat)
    (skipEffMap inBuf : List Byte) (s : Extras) (i : Nat) : Except (StageExit × Extras) Extras := do
  let s := { s with lastLen := 0 }
  if bitmapRead skipEffMap i then
    let s ← s.isDetTimeout env
    let s ← tokens.foldlM (overwriteToken env tokens.length maxDetExtras inBuf.length i) s
    -- restore all the clobbered memory
    return { s with outBuf := memcpy s.outBuf i ((inBuf.drop i).take s.lastLen) }
  else return s

def overwriteStage (env : Surroundings) (tokens : List Token) (maxDetExtras : Option Nat)
    (skipEffMap inBuf : List Byte) (s : Extras) : Except (StageExit × Extras) Extras := do
  let s ← (List.range inBuf.length).foldlM
    (overwriteAt env tokens maxDetExtras skipEffMap inBuf) s
  return { s with finished := s.outBuf :: s.finished }

def insertToken (env : Surroundings) (len i : Nat) (s : Extras) (token : Token) :
    Except (StageExit × Extras) Extras :=
  if len + token.length > maxFile then .ok s
  else
    let exTmp := memcpy s.exTmp i token
    -- copy tail
    let exTmp := memcpy exTmp (i + token.length) ((s.outBuf.drop i).take (len - i))
    { s with exTmp }.commonFuzzStuff env ⟨.insert, i, token, exTmp.take (len + token.length)⟩

/-- One offset of a stage that inserts. -/
def insertAt (env : Surroundings) (tokens : List Token) (skipEffMap : List Byte) (len : Nat)
    (s : Extras) (i : Nat) : Except (StageExit × Extras) Extras := do
  if bitmapRead skipEffMap (i % len) then
    let s ← s.isDetTimeout env
    let s ← tokens.foldlM (insertToken env len i) s
    -- copy head; the last round reads the byte behind the buffer
    return { s with exTmp := memcpy s.exTmp i [s.outBuf[i]?.getD env.behind] }
  else return s

def insertStage (env : Surroundings) (tokens : List Token) (skipEffMap : List Byte) (len : Nat)
    (s : Extras) : Except (StageExit × Extras) Extras := do
  let s := { s with exTmp := aflRealloc s.exTmp (len + maxDictFile) }
  let s ← (List.range (len + 1)).foldlM (insertAt env tokens skipEffMap len) s
  return { s with finished := s.outBuf :: s.finished }

/-- Both stages for one list of tokens, of which those in `short` are written over the seed. -/
def tokenStages (env : Surroundings) (tokens short : List Token) (maxDetExtras : Option Nat)
    (skipEffMap inBuf : List Byte) (s : Extras) : Except (StageExit × Extras) Extras := do
  if tokens = [] then return s
  else
    let s ← s.overwriteStage env short maxDetExtras skipEffMap inBuf
    s.insertStage env tokens skipEffMap inBuf.length

def userExtras (env : Surroundings) (d : Dictionary) (maxDetExtras : Nat)
    (skipEffMap inBuf : List Byte) (s : Extras) : Except (StageExit × Extras) Extras :=
  s.tokenStages env d.extras d.extras (some maxDetExtras) skipEffMap inBuf

def autoExtras (env : Surroundings) (d : Dictionary) (skipEffMap inBuf : List Byte) (s : Extras) :
    Except (StageExit × Extras) Extras :=
  s.tokenStages env d.aExtras (d.aExtras.take useAutoExtras) none skipEffMap inBuf

end Extras

/-- The four stages on a copy of the seed; `ex` is what the buffer for insertions holds from
earlier uses. -/
def extrasStages (env : Surroundings) (d : Dictionary) (maxDetExtras : Nat)
    (skipEffMap inBuf ex : List Byte) : Except (StageExit × Extras) Extras := do
  let s : Extras := ⟨inBuf, ex, 0, 0, 0, [], []⟩
  let s ← s.userExtras env d maxDetExtras skipEffMap inBuf
  s.autoExtras env d skipEffMap inBuf

end Swam.Afl
