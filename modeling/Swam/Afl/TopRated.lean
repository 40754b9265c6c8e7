import Mathlib.Data.Fintype.Basic
import Mathlib.Data.List.FinRange
import Mathlib.Logic.Function.Basic
import Swam.Afl.SaveIfInteresting
import Swam.Afl.Skipdet

/-!
# Top-rated entries

For every index of the coverage map the queue entry that reaches it best, and the choice of
favored entries from these. An entry is named by its id, which is its index in `queue_buf`.
The map has `n` entries; what an execution leaves in `trace_bits` is part of the call.
-/
namespace Swam.Afl

variable {n : Nat}

/-- What `update_bitmap_score` compares entries by. -/
structure Merit where
  len : Nat
  execUs : Nat
  fuzzLevel : Nat
  nFuzzEntry : Nat
  deriving DecidableEq, Repr

/-- The fields of a queue entry that culling reads and writes. -/
structure RatedEntry where
  merit : Merit
  wasFuzzed : Bool
  favored : Bool
  disabled : Bool
  fsRedundant : Bool
  tcRef : BitVec 32
  traceMini : Option (List Byte)
  deriving DecidableEq, Repr

/-- The settings and counters that the comparison depends on; they may change between calls. -/
structure RatingConfig where
  schedule : Schedule
  fixedSeed : Bool
  nFuzz : Nat → Nat
  nonInstrumentedMode : Bool
  disableRedundant : Bool

structure Ratings (n : Nat) where
  queueBuf : List RatedEntry
  topRated : Fin n → Option Nat
  topRatedCandidates : Fin n → List Nat
  /-- `last_scored_idx + 1`. -/
  nextScored : Nat
  traceBits : Fin n → Byte
  scoreChanged : Bool
  queuedFavored : Nat
  pendingFavored : Nat
  smallestFavored : Int
  reinitTable : Bool
  /-- Whether a `tc_ref` was ever decremented at zero. The program keeps no such record. -/
  underflowed : Bool

namespace Ratings

def initial (n : Nat) : Ratings n where
  queueBuf := []
  topRated := fun _ => none
  topRatedCandidates := fun _ => []
  nextScored := 0
  traceBits := fun _ => 0
  scoreChanged := false
  queuedFavored := 0
  pendingFavored := 0
  smallestFavored := -1
  reinitTable := false
  underflowed := false

def blank : RatedEntry := ⟨⟨0, 0, 0, 0⟩, false, false, false, false, 0, none⟩

def entry (s : Ratings n) (q : Nat) : RatedEntry := s.queueBuf[q]?.getD blank

def modify (s : Ratings n) (q : Nat) (f : RatedEntry → RatedEntry) : Ratings n :=
  { s with queueBuf := s.queueBuf.modify q f }

/-! ## Scores -/

/-- `next_pow2` on a 64-bit `size_t`. -/
def nextPow2 (value : Nat) : Nat :=
  let out := BitVec.ofNat 64 value - 1
  let out := out ||| out >>> 1
  let out := out ||| out >>> 2
  let out := out ||| out >>> 4
  let out := out ||| out >>> 8
  let out := out ||| out >>> 16
  (out + 1).toNat

def fuzzP2 (cfg : RatingConfig) (m : Merit) : Nat :=
  match cfg.schedule with
  | .fast | .coe | .lin | .quad => 0
  | .rare => nextPow2 (cfg.nFuzz m.nFuzzEntry)
  | _ => m.fuzzLevel

/-- The shift is one of a `u32`, the product one of `u64`. -/
def favFactor (cfg : RatingConfig) (m : Merit) : Nat :=
  if cfg.schedule = .rare ∨ cfg.schedule = .seek ∨ cfg.fixedSeed then (m.len <<< 2) % 2 ^ 32
  else m.execUs * m.len % 2 ^ 64

/-- An entry wins a slot that is free or whose holder is not more favorable. -/
def wins (cfg : RatingConfig) (s : Ratings n) (q : Nat) (i : Fin n) : Bool :=
  match s.topRated i with
  | none => true
  | some top =>
    fuzzP2 cfg (s.entry q).merit ≤ fuzzP2 cfg (s.entry top).merit ∧
      favFactor cfg (s.entry q).merit ≤ favFactor cfg (s.entry top).merit

/-- The trace with one bit for each byte, in a buffer of `len` cleared bytes. -/
def minimizeBits (len : Nat) (trace : Fin n → Byte) : List Byte :=
  (List.finRange n).foldl (fun dst i => if trace i ≠ 0 then bitmapSet dst i else dst)
    (List.replicate len 0)

/-- Decrease the reference count of the previous winner; the last reference frees its
minimised trace. -/
def release (s : Ratings n) (i : Fin n) : Ratings n :=
  match s.topRated i with
  | none => s
  | some top =>
    let tcRef := (s.entry top).tcRef - 1
    { s.modify top fun e => { e with
        tcRef, traceMini := if tcRef = 0 then none else e.traceMini } with
      underflowed := s.underflowed || (s.entry top).tcRef = 0 }

/-- Insert the new winner, which gets the trace in `trace_bits` if it has none. -/
def insert (s : Ratings n) (q : Nat) (i : Fin n) (len : Nat) : Ratings n :=
  { s.modify q fun e => { e with
      tcRef := e.tcRef + 1
      traceMini := some (e.traceMini.getD (minimizeBits len s.traceBits)) } with
    topRated := Function.update s.topRated i (some q)
    scoreChanged := true }

def takeSlot (s : Ratings n) (q : Nat) (i : Fin n) (len : Nat) : Ratings n :=
  (s.release i).insert q i len

def updateBitmapScore (cfg : RatingConfig) (s : Ratings n) (q : Nat) (haveTrace : Bool) :
    Ratings n :=
  if (s.entry q).disabled then s
  else if haveTrace then
    (List.finRange n).foldl (fun s i =>
      if s.traceBits i ≠ 0 ∧ wins cfg s q i then s.takeSlot q i ((n + 7) / 8) else s) s
  else s

def updateBitmapRescore (cfg : RatingConfig) (s : Ratings n) (q : Nat) (i : Fin n) : Ratings n :=
  if (s.entry q).disabled then s
  else if wins cfg s q i then s.takeSlot q i (n / 8) else s

/-! ## Scoring everything again -/

/-- Execute the entries that have not been scored yet, and enrol them for the indices they
reach. -/
def enrol (run : Nat → Fin n → Byte) (s : Ratings n) (i : Nat) : Ratings n :=
  let s := if (s.entry i).disabled then s
    else { s with
      traceBits := run i
      topRatedCandidates := fun j =>
        s.topRatedCandidates j ++ if run i j ≠ 0 then [i] else [] }
  { s with nextScored := i + 1 }

def enrolAll (run : Nat → Fin n → Byte) (s : Ratings n) : Ratings n :=
  (List.range' s.nextScored (s.queueBuf.length - s.nextScored)).foldl (enrol run) s

/-- The candidates of all indices in turn. -/
def candidates (s : Ratings n) : List (Fin n × Nat) :=
  (List.finRange n).flatMap fun i => (s.topRatedCandidates i).map (i, ·)

/-- `run` gives the trace each entry leaves when it is executed. -/
def recalculateAllScores (cfg : RatingConfig) (run : Nat → Fin n → Byte) (s : Ratings n) :
    Ratings n :=
  let s := enrolAll run s
  s.candidates.foldl (fun s c => updateBitmapRescore cfg s c.2 c.1) s

/-! ## Culling -/

/-- The minimised trace is freed here, whether or not the entry holds slots. -/
def markAsRedundant (cfg : RatingConfig) (state : Bool) (e : RatedEntry) : RatedEntry :=
  if state = e.fsRedundant then e
  else
    { e with
      fsRedundant := state
      traceMini := if state then none else e.traceMini
      disabled := e.disabled || (state && cfg.disableRedundant) }

/-- Remove the bits of a minimised trace. -/
def strikeBits (tempV mini : List Byte) : List Byte :=
  tempV.zipIdx.map fun (v, j) => v &&& ~~~cell mini j

/-- The winner that `cull_queue` takes at an index: one whose bit is still set and that has a
minimised trace. -/
def taken (s : Ratings n) (tempV : List Byte) (i : Fin n) : Option (Nat × List Byte) :=
  (s.topRated i).bind fun top =>
    if bitmapRead tempV i then (s.entry top).traceMini.map (top, ·) else none

/-- An entry becomes favored unless it is already or is disabled. -/
def favor (s : Ratings n) (q : Nat) : Ratings n :=
  if (s.entry q).favored ∨ (s.entry q).disabled then s
  else
    let pending : Bool := ¬ (s.entry q).wasFuzzed
    { s.modify q ({ · with favored := true }) with
      queuedFavored := s.queuedFavored + 1
      pendingFavored := s.pendingFavored + if pending then 1 else 0
      smallestFavored := if pending ∧ (s.smallestFavored < 0 ∨ q < s.smallestFavored) then q
        else s.smallestFavored }

/-- One index of the greedy cover. -/
def cullIndex (c : Ratings n × List Byte) (i : Fin n) : Ratings n × List Byte :=
  match c.1.taken c.2 i with
  | none => c
  | some (top, mini) => (c.1.favor top, strikeBits c.2 mini)

/-- Nothing is favored and all bits are left. -/
def startCull (s : Ratings n) : Ratings n × List Byte :=
  ({ s with
      scoreChanged := false
      queuedFavored := 0
      pendingFavored := 0
      queueBuf := s.queueBuf.map ({ · with favored := false })
      smallestFavored := -1 },
    List.replicate (n / 8) 255)

def cullQueue (cfg : RatingConfig) (s : Ratings n) : Ratings n :=
  if s.scoreChanged = false ∨ cfg.nonInstrumentedMode then s
  else
    let s := ((List.finRange n).foldl cullIndex s.startCull).1
    { s with
      queueBuf := s.queueBuf.map fun e =>
        if e.disabled then e else markAsRedundant cfg (¬ e.favored) e
      reinitTable := true }

/-! ## Runs -/

/-- The new entry of `add_to_queue`. -/
def addToQueue (s : Ratings n) (merit : Merit) (wasFuzzed : Bool) : Ratings n :=
  { s with queueBuf := s.queueBuf ++ [⟨merit, wasFuzzed, false, false, false, 0, none⟩] }

/-! ## Access -/

variable {s s' : Ratings n}

theorem entry_of_lt {q : Nat} (inside : q < s.queueBuf.length) :
    s.queueBuf[q]? = some (s.entry q) := by
  rw [entry, List.getElem?_eq_getElem inside, Option.getD_some]

@[simp] theorem length_modify (q : Nat) (f : RatedEntry → RatedEntry) :
    (s.modify q f).queueBuf.length = s.queueBuf.length := List.length_modify ..

theorem entry_of_length_le {q : Nat} (outside : s.queueBuf.length ≤ q) : s.entry q = blank := by
  rw [entry, List.getElem?_eq_none outside, Option.getD_none]

theorem entry_congr (same : s'.queueBuf = s.queueBuf) (q : Nat) : s'.entry q = s.entry q := by
  rw [entry, same, entry]

theorem entry_modify (p q : Nat) (f : RatedEntry → RatedEntry) :
    (s.modify q f).entry p = if p = q ∧ q < s.queueBuf.length then f (s.entry q) else s.entry p := by
  rw [entry, modify, List.getElem?_modify]
  by_cases changed : p = q ∧ q < s.queueBuf.length
  · obtain ⟨rfl, inside⟩ := changed
    rw [entry_of_lt inside, if_pos ⟨rfl, inside⟩]
    simp
  · rw [if_neg changed]
    by_cases equal : q = p
    · have outside : s.queueBuf.length ≤ p := by omega
      rw [entry_of_length_le outside, List.getElem?_eq_none outside]
      rfl
    · simp [equal, entry]

theorem entry_modify_self {q : Nat} (inside : q < s.queueBuf.length)
    (f : RatedEntry → RatedEntry) : (s.modify q f).entry q = f (s.entry q) := by
  rw [entry_modify, if_pos ⟨rfl, inside⟩]

theorem entry_modify_of_ne {p q : Nat} (ne : p ≠ q) (f : RatedEntry → RatedEntry) :
    (s.modify q f).entry p = s.entry p := by
  rw [entry_modify, if_neg fun both => ne both.1]

/-- What a change of one entry leaves alone is the same for all entries. -/
theorem entry_modify_field {α : Type} {q : Nat} {f : RatedEntry → RatedEntry}
    (field : RatedEntry → α) (same : field (f (s.entry q)) = field (s.entry q)) (p : Nat) :
    field ((s.modify q f).entry p) = field (s.entry p) := by
  rw [entry_modify]
  split
  next changed => rw [changed.1, same]
  next => rfl

theorem entry_map {f : RatedEntry → RatedEntry} {q : Nat} (inside : q < s.queueBuf.length) :
    { s with queueBuf := s.queueBuf.map f }.entry q = f (s.entry q) := by
  rw [entry, List.getElem?_map, entry_of_lt inside]
  rfl

theorem length_addToQueue (merit : Merit) (wasFuzzed : Bool) :
    (s.addToQueue merit wasFuzzed).queueBuf.length = s.queueBuf.length + 1 :=
  List.length_append

theorem entry_addToQueue {q : Nat} (inside : q < s.queueBuf.length) {merit : Merit}
    {wasFuzzed : Bool} : (s.addToQueue merit wasFuzzed).entry q = s.entry q := by
  simp only [entry, addToQueue, List.getElem?_append_left inside]

theorem entry_addToQueue_length {merit : Merit} {wasFuzzed : Bool} :
    (s.addToQueue merit wasFuzzed).entry s.queueBuf.length =
      ⟨merit, wasFuzzed, false, false, false, 0, none⟩ := by
  simp only [entry, addToQueue, List.getElem?_concat_length, Option.getD_some]

theorem release_entry (i : Fin n) (q : Nat) :
    (s.release i).entry q =
      if s.topRated i = some q ∧ q < s.queueBuf.length then
        { s.entry q with
          tcRef := (s.entry q).tcRef - 1
          traceMini := if (s.entry q).tcRef - 1 = 0 then none else (s.entry q).traceMini }
      else s.entry q := by
  cases holder : s.topRated i with
  | none => simp [release, holder]
  | some top =>
    have left : (s.release i).queueBuf = (s.modify top fun e => { e with
        tcRef := (s.entry top).tcRef - 1
        traceMini := if (s.entry top).tcRef - 1 = 0 then none else e.traceMini }).queueBuf := by
      simp only [release, holder]
    rw [entry_congr left, entry_modify]
    by_cases held : q = top
    · simp only [held]
    · have other : ¬ some top = some q := fun equal => held (Option.some.inj equal).symm
      rw [if_neg fun both => held both.1, if_neg fun both => other both.1]

theorem insert_entry (q : Nat) (i : Fin n) (len p : Nat) :
    (s.insert q i len).entry p =
      if p = q ∧ q < s.queueBuf.length then
        { s.entry q with
          tcRef := (s.entry q).tcRef + 1
          traceMini := some ((s.entry q).traceMini.getD (minimizeBits len s.traceBits)) }
      else s.entry p :=
  entry_modify p q _

theorem release_topRated (i : Fin n) : (s.release i).topRated = s.topRated := by
  unfold release
  split <;> rfl

theorem release_traceBits (i : Fin n) : (s.release i).traceBits = s.traceBits := by
  unfold release
  split <;> rfl

theorem release_topRatedCandidates (i : Fin n) :
    (s.release i).topRatedCandidates = s.topRatedCandidates := by
  unfold release
  split <;> rfl

theorem length_release (i : Fin n) : (s.release i).queueBuf.length = s.queueBuf.length := by
  unfold release
  split
  · rfl
  · exact length_modify ..

@[simp] theorem length_takeSlot (q : Nat) (i : Fin n) (len : Nat) :
    (s.takeSlot q i len).queueBuf.length = s.queueBuf.length :=
  (length_modify ..).trans (length_release i)

theorem takeSlot_topRated (q : Nat) (i : Fin n) (len : Nat) :
    (s.takeSlot q i len).topRated = Function.update s.topRated i (some q) := by
  rw [takeSlot, insert, release_topRated]

theorem takeSlot_traceBits (q : Nat) (i : Fin n) (len : Nat) :
    (s.takeSlot q i len).traceBits = s.traceBits := release_traceBits i

theorem takeSlot_topRatedCandidates (q : Nat) (i : Fin n) (len : Nat) :
    (s.takeSlot q i len).topRatedCandidates = s.topRatedCandidates :=
  release_topRatedCandidates i

end Ratings

/-- A call, with what is in `trace_bits` or what the executions leave there. Between calls
the merits of entries change and entries are disabled. -/
inductive RatingCall (n : Nat) where
  | add (merit : Merit) (wasFuzzed : Bool)
  | change (q : Nat) (merit : Merit)
  | disable (q : Nat)
  | score (cfg : RatingConfig) (trace : Fin n → Byte) (q : Nat) (haveTrace : Bool)
  | rescore (cfg : RatingConfig) (trace : Fin n → Byte) (q : Nat) (i : Fin n)
  | recalculate (cfg : RatingConfig) (run : Nat → Fin n → Byte)
  | redundant (cfg : RatingConfig) (q : Nat) (state : Bool)
  | cull (cfg : RatingConfig)

namespace RatingCall

open Ratings

def apply (s : Ratings n) : RatingCall n → Ratings n
  | add merit wasFuzzed => s.addToQueue merit wasFuzzed
  | change q merit => s.modify q ({ · with merit })
  | disable q => s.modify q ({ · with disabled := true })
  | score cfg trace q haveTrace =>
    updateBitmapScore cfg { s with traceBits := trace } q haveTrace
  | rescore cfg trace q i => updateBitmapRescore cfg { s with traceBits := trace } q i
  | recalculate cfg run => recalculateAllScores cfg run s
  | redundant cfg q state => s.modify q (markAsRedundant cfg state)
  | cull cfg => cullQueue cfg s

/-- A call about an entry is about one of the queue. -/
def Valid (s : Ratings n) : RatingCall n → Prop
  | change q _ | disable q | score _ _ q _ | rescore _ _ q _ | redundant _ q _ =>
    q < s.queueBuf.length
  | add .. | recalculate .. | cull _ => True

instance (s : Ratings n) : (c : RatingCall n) → Decidable (c.Valid s)
  | change q _ | disable q | score _ _ q _ | rescore _ _ q _ | redundant _ q _ =>
    inferInstanceAs (Decidable (q < s.queueBuf.length))
  | add .. | recalculate .. | cull _ => inferInstanceAs (Decidable True)

end RatingCall

/-- The states reached by calls that are allowed in the state they are made in. -/
inductive RatingRun (Allowed : Ratings n → RatingCall n → Prop) : Ratings n → Prop where
  | start : RatingRun Allowed (.initial n)
  | call {s : Ratings n} (run : RatingRun Allowed s) (c : RatingCall n) (valid : c.Valid s)
      (allowed : Allowed s c) : RatingRun Allowed (c.apply s)

theorem RatingRun.mono {Allowed Allowed' : Ratings n → RatingCall n → Prop}
    (weaker : ∀ s c, Allowed s c → Allowed' s c) {s : Ratings n} (run : RatingRun Allowed s) :
    RatingRun Allowed' s := by
  induction run with
  | start => exact .start
  | call _ c valid allowed ih => exact .call ih c valid (weaker _ c allowed)

end Swam.Afl
