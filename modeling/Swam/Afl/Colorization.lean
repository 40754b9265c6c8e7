import Mathlib.Algebra.Order.Ring.Int
import Mathlib.Logic.Function.Basic

/-!
# Colorization

The stage before the comparisons are solved replaces as much of an input as it can without
changing the checksum of its execution. Ranges of bytes wait in a linked list; the biggest is
replaced, and split in two when the execution changes. From the ranges that were kept the runs of
free bytes are put together.
-/
namespace Swam.Afl.Colorization

/-- `struct range`. -/
structure Range where
  start : Nat
  end_ : Nat
  next : Option Nat
  prev : Option Nat
  ok : Nat

/-- The ranges in memory: the cells, the first address that was never used, and what a fresh cell
has in a member that nobody wrote. -/
structure Heap where
  cell : Nat → Option Range
  used : Nat
  garbage : Nat → Option Nat

inductive Fault where
  | badAccess
  | outOfFuel
deriving DecidableEq

def Heap.load (h : Heap) (p : Option Nat) : Except Fault Range :=
  match p.bind h.cell with
  | some r => .ok r
  | none => .error .badAccess

def Heap.modify (h : Heap) (p : Option Nat) (f : Range → Range) : Except Fault Heap :=
  match p with
  | none => .error .badAccess
  | some a =>
    match h.cell a with
    | none => .error .badAccess
    | some r => .ok { h with cell := Function.update h.cell a (some (f r)) }

def Heap.free (h : Heap) (a : Nat) : Heap := { h with cell := Function.update h.cell a none }

/-- A new cell with everything but `prev`. -/
def Heap.alloc (h : Heap) (start end_ : Nat) (next : Option Nat) : Heap :=
  { h with
    cell := Function.update h.cell h.used (some ⟨start, end_, next, h.garbage h.used, 0⟩)
    used := h.used + 1 }

/-! ## The list of ranges -/

/-- `add_range`. -/
def addRange (h : Heap) (ranges : Option Nat) (start end_ : Nat) : Except Fault (Nat × Heap) := do
  let r := h.used
  let h := h.alloc start end_ ranges
  let h ← if ranges.isSome then h.modify ranges fun first => { first with prev := some r } else .ok h
  return (r, h)

/-- `1 + r->end - r->start`. -/
def Range.size (r : Range) : Nat := (1 + r.end_ + 2 ^ 32 - r.start) % 2 ^ 32

/-- The loop of `pop_biggest_range`: the last of the biggest ranges that are still to be tried. -/
def popBiggestRange (h : Heap) : Nat → Option Nat → Option Nat → Nat → Except Fault (Option Nat)
  | 0, _, _, _ => .error .outOfFuel
  | _ + 1, none, rmax, _ => return rmax
  | fuel + 1, some a, rmax, maxSize => do
    let r ← h.load (some a)
    if r.ok = 0 ∧ maxSize ≤ r.size then popBiggestRange h fuel r.next (some a) r.size
    else popBiggestRange h fuel r.next rmax maxSize

/-- Takes a range out of the list. -/
def unlinkRange (h : Heap) (ranges : Option Nat) (rng : Nat) : Except Fault (Option Nat × Heap) := do
  let e ← h.load (some rng)
  if ranges = some rng then
    let h ← if e.next.isSome then h.modify e.next fun r => { r with prev := none } else .ok h
    return (e.next, h)
  else if e.next.isSome then
    let h ← h.modify e.prev fun r => { r with next := e.next }
    let e ← h.load (some rng)
    let h ← h.modify e.next fun r => { r with prev := e.prev }
    return (ranges, h)
  else
    let h ← if e.prev.isSome then h.modify e.prev fun r => { r with next := none } else .ok h
    return (ranges, h)

/-! ## The main loop -/

/-- What stays the same during the stage: the input, its replacement, what an execution gives, and
whether one took too long. -/
structure Setting where
  backup : List UInt8
  changed : List UInt8
  getExecChecksum : List UInt8 → Option Nat
  tooSlow : Nat → Bool
  execCksum : Nat

structure State where
  heap : Heap
  ranges : Option Nat
  buf : List UInt8
  stageCur : Nat

/-- `memcpy` of bytes at an offset of two buffers. -/
def memcpy (dst src : List UInt8) (off n : Nat) : Except Fault (List UInt8) :=
  if off + n ≤ dst.length ∧ off + n ≤ src.length then
    .ok (dst.take off ++ (src.drop off).take n ++ dst.drop (off + n))
  else .error .badAccess

def stageMax (len : Nat) : Nat := len <<< 1 % 2 ^ 32

/-- A range whose replacement is not kept. -/
def discard (p : Setting) (st : State) (rng : Nat) (e : Range) : Except Fault State := do
  let s := e.size
  let buf ← memcpy st.buf p.backup e.start s
  let (ranges, h) ←
    -- A single byte is not split.
    if 1 < s then do
      let (first, h) ← addRange st.heap st.ranges e.start ((e.start + 2 ^ 32 - 1 + s / 2) % 2 ^ 32)
      let (second, h) ← addRange h (some first) ((e.start + s / 2) % 2 ^ 32) e.end_
      pure (some second, h)
    else .ok (st.ranges, st.heap)
  let (ranges, h) ← unlinkRange h ranges rng
  return { st with buf, ranges, heap := h.free rng }

/-- How far the loop has come. -/
inductive Outcome where
  | running (st : State)
  | ended (st : State)
  | budget (st : State)
  | checksumFail

/-- One round of the loop, its test included. -/
def round (p : Setting) (st : State) : Except Fault Outcome := do
  match ← popBiggestRange st.heap (st.heap.used + 1) st.ranges none 0 with
  | none => return .ended st
  | some rng =>
    if stageMax p.backup.length ≤ st.stageCur then return .budget st
    else
      let e ← st.heap.load (some rng)
      let buf ← memcpy st.buf p.changed e.start e.size
      match p.getExecChecksum buf with
      | none => return .checksumFail
      | some cksum =>
        let st := { st with buf }
        let st ←
          if cksum ≠ p.execCksum ∨ p.tooSlow st.stageCur = true then discard p st rng e
          else do
            let heap ← st.heap.modify (some rng) fun r => { r with ok := 1 }
            pure { st with heap }
        return .running { st with stageCur := (st.stageCur + 1) % 2 ^ 32 }

/-- At most so many rounds. -/
def rounds (p : Setting) : Nat → State → Except Fault Outcome
  | 0, st => return .running st
  | n + 1, st => do
    match ← round p st with
    | .running st => rounds p n st
    | outcome => return outcome

/-- Before the first round. -/
def start (p : Setting) (garbage : Nat → Option Nat) : Except Fault State := do
  let (first, heap) ← addRange ⟨fun _ => none, 0, garbage⟩ none 0 (p.backup.length - 1)
  return ⟨heap, some first, p.backup, 0⟩

/-! ## The runs of free bytes -/

/-- `struct tainted`, a list of which is built at its front. -/
structure Tainted where
  pos : Nat
  len : Nat
deriving DecidableEq, Repr

end Swam.Afl.Colorization
