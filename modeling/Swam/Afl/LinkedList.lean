import Mathlib.Algebra.Order.Ring.Int
import Mathlib.Data.Int.Basic
import Mathlib.Logic.Function.Basic

/-!
# `list_t`

The doubly linked list of the fuzzer: a ring through a head, whose elements come from a buffer
inside the list or from `malloc`. A loop over the list holds pointers into it while its block
appends and removes, so the macros are modelled by the steps between which the block runs:
entering the loop, what the block may do, and going on with the saved pointer.
-/
namespace Swam.Afl.LinkedList

/-- `LIST_PREALLOC_SIZE`. -/
def listPreallocSize : Nat := 64

/-- `pre_status_t`. -/
inductive PreStatus where
  | unused
  | used
  | malloc
deriving DecidableEq, Repr

/-- Where an element lies: in the buffer, or where one of the calls of `malloc` put it. -/
inductive Box where
  | slot (i : Nat)
  | heap (n : Nat)
deriving DecidableEq, Repr

/-- `element_t`; the data is a pointer, zero for `NULL`. -/
structure Element where
  preStatus : PreStatus
  prev : Option Box
  next : Option Box
  data : Nat
deriving DecidableEq, Repr

/-- `list_t` with the elements that it has on the heap. -/
structure ListT where
  element : Box → Option Element
  elementPreallocCount : Int
  elementTotalCount : Int
  mallocs : Nat

inductive Fault where
  | fatal (message : String)
  | badAccess
  | outOfFuel
deriving DecidableEq, Repr

/-- Arithmetic of the counters. -/
def s32 (x : Int) : Int := x.bmod (2 ^ 32)

/-- `get_head`. -/
def getHead : Box := .slot 0

def ListT.load (l : ListT) (p : Option Box) : Except Fault Element :=
  match p.bind l.element with
  | some el => .ok el
  | none => .error .badAccess

def ListT.modify (l : ListT) (p : Option Box) (f : Element → Element) : Except Fault ListT :=
  match p with
  | none => .error .badAccess
  | some b =>
    match l.element b with
    | none => .error .badAccess
    | some el => .ok { l with element := Function.update l.element b (some (f el)) }

/-! ## Boxes -/

/-- The loop of `PRE_ALLOC`; without a free slot it ends at the last one. -/
def scanSlots (l : ListT) : Nat → Nat → Option Box → Except Fault (Option Box × ListT)
  | 0, _, elPtr => .ok (elPtr, l)
  | left + 1, i, _ => do
    let el ← l.load (some (.slot i))
    if el.preStatus = .unused then
      let l := { l with elementPreallocCount := s32 (l.elementPreallocCount + 1) }
      let l ← l.modify (some (.slot i)) fun el => { el with preStatus := .used }
      return (some (.slot i), l)
    else scanSlots l left (i + 1) (some (.slot i))

/-- A new element on the heap. The memory of the host does not run out, and the fields but the
status are written before they are read. -/
def ListT.mallocElement (l : ListT) : ListT :=
  { l with
    element := Function.update l.element (.heap l.mallocs) (some ⟨.malloc, none, none, 0⟩)
    mallocs := l.mallocs + 1 }

/-- `PRE_ALLOC`. -/
def preAlloc (l : ListT) : Except Fault (Option Box × ListT) := do
  let (elPtr, l) ←
    if listPreallocSize ≤ l.elementPreallocCount then
      .ok (some (.heap l.mallocs), l.mallocElement)
    else scanSlots l listPreallocSize 0 none
  if elPtr = none then .error (.fatal "BUG in list.h -> no element found or allocated!")
  else return (elPtr, l)

/-- `PRE_ALLOC_FORCE` of the head. -/
def preAllocForce (l : ListT) : Except Fault ListT := do
  let el ← l.load (some getHead)
  if el.preStatus ≠ .unused then .error (.fatal "PRE_ALLOC_FORCE element already allocated")
  else
    let l ← l.modify (some getHead) fun el => { el with preStatus := .used }
    return { l with elementPreallocCount := s32 (l.elementPreallocCount + 1) }

/-- `PRE_FREE`. -/
def preFree (l : ListT) (b : Box) : Except Fault ListT := do
  let el ← l.load (some b)
  match el.preStatus with
  | .used =>
    let l ← l.modify (some b) fun el => { el with preStatus := .unused }
    let l := { l with elementPreallocCount := s32 (l.elementPreallocCount - 1) }
    if l.elementPreallocCount < 0 then .error (.fatal "Inconsistent data in PRE_FREE")
    else return l
  | .malloc => return { l with element := Function.update l.element b none }
  | .unused => .error (.fatal "Double Free Detected")

/-- `list_free_el`. -/
def listFreeEl (l : ListT) (b : Box) : Except Fault ListT := do
  let l ← preFree l b
  return { l with elementTotalCount := s32 (l.elementTotalCount - 1) }

/-! ## Operations -/

/-- `memset` of a list. -/
def zeroed (l : ListT) : ListT :=
  { l with
    element := fun b =>
      match b with
      | .slot i => if i < listPreallocSize then some ⟨.unused, none, none, 0⟩ else none
      | .heap n => l.element (.heap n)
    elementPreallocCount := 0
    elementTotalCount := 0 }

/-- The first part of `list_append`, on a list without a head. -/
def initHead (l : ListT) : Except Fault ListT := do
  let l ← preAllocForce (zeroed l)
  let l ← l.modify (some getHead) fun el => { el with prev := some getHead }
  l.modify (some getHead) fun el => { el with next := some getHead }

/-- The writes of `list_append` into a box and its neighbours. -/
def linkLast (l : ListT) (elBox : Option Box) (el : Nat) : Except Fault ListT := do
  let l ← l.modify elBox fun e => { e with data := el }
  let l ← l.modify elBox fun e => { e with next := some getHead }
  let head ← l.load (some getHead)
  let l ← l.modify elBox fun e => { e with prev := head.prev }
  let head ← l.load (some getHead)
  let l ← l.modify head.prev fun e => { e with next := elBox }
  l.modify (some getHead) fun e => { e with prev := elBox }

/-- The second part of `list_append`, on a list with a head. -/
def appendBox (l : ListT) (el : Nat) : Except Fault ListT := do
  let (elBox, l) ← preAlloc l
  if elBox = none then .error (.fatal "failed to allocate list element")
  else
    let l ← linkLast l elBox el
    return { l with elementTotalCount := s32 (l.elementTotalCount + 1) }

/-- `list_append`. -/
def listAppend (l : ListT) (el : Nat) : Except Fault ListT := do
  let head ← l.load (some getHead)
  if head.next = none then
    let l ← initHead l
    appendBox l el
  else appendBox l el

/-- The variables of a loop: the element, the pointer to it and the saved pointer. -/
structure Loop where
  elBox : Box
  next : Option Box
  el : Nat
deriving DecidableEq, Repr

/-- The test of the loop and the beginning of a round. -/
def enterRound (l : ListT) (elBox : Option Box) : Except Fault (Option Loop) :=
  match elBox with
  | none => .error .badAccess
  | some b =>
    if b = getHead then .ok none
    else do
      let e ← l.load (some b)
      return some ⟨b, e.next, e.data⟩

/-- `LIST_FOREACH` up to the first block. -/
def listForeach (l : ListT) : Except Fault (Option Loop) := do
  let head ← l.load (some getHead)
  match head.next with
  | none => .error (.fatal "foreach over uninitialized list")
  | some b => enterRound l (some b)

/-- Takes an element out of the ring. -/
def unlinkBox (l : ListT) (elBox : Box) (next : Option Box) : Except Fault ListT := do
  let e ← l.load (some elBox)
  let l ← l.modify e.prev fun e => { e with next := next }
  let e ← l.load (some elBox)
  l.modify e.next fun n => { n with prev := e.prev }

/-- `LIST_REMOVE_CURRENT_EL_IN_FOREACH`. -/
def listRemoveCurrentEl (l : ListT) (loop : Loop) : Except Fault ListT := do
  let l ← unlinkBox l loop.elBox loop.next
  listFreeEl l loop.elBox

/-- `if (el_box->next != next) next = el_box->next;` -/
def rereadNext (l : ListT) (loop : Loop) : Except Fault Loop := do
  let e ← l.load (some loop.elBox)
  return if e.next ≠ loop.next then { loop with next := e.next } else loop

/-- The loop of `list_remove` and `list_contains`. -/
def findFrom (l : ListT) (el : Nat) : Nat → Option Box → Except Fault (Option Box)
  | 0, _ => .error .outOfFuel
  | fuel + 1, elBox => do
    match ← enterRound l elBox with
    | none => return none
    | some loop => if loop.el = el then return some loop.elBox else findFrom l el fuel loop.next

def listFind (l : ListT) (el : Nat) : Except Fault (Option Box) := do
  let head ← l.load (some getHead)
  match head.next with
  | none => .error (.fatal "foreach over uninitialized list")
  | some b => findFrom l el (listPreallocSize + l.mallocs + 1) (some b)

/-- `list_remove`. -/
def listRemove (l : ListT) (removeMe : Nat) : Except Fault ListT := do
  match ← listFind l removeMe with
  | none => .error (.fatal "List item to be removed not in list")
  | some b =>
    let e ← l.load (some b)
    let l ← unlinkBox l b e.next
    let l ← l.modify (some b) fun e => { e with data := 0 }
    listFreeEl l b

/-! ## Runs -/

/-- What a program does with a list, one step after the other. -/
inductive Op where
  | append (el : Nat)
  | remove (el : Nat)
  | foreach
  | rereadNext
  | removeCurrent
  | advance
  | leave
deriving DecidableEq, Repr

/-- The list and the loops that are running, the innermost first. -/
structure State where
  list : ListT
  loops : List Loop

/-- A step; the macros for blocks are only used in a loop. -/
def step (s : State) : Op → Except Fault State
  | .append el => do return { s with list := ← listAppend s.list el }
  | .remove el => do return { s with list := ← listRemove s.list el }
  | .foreach => do return { s with loops := (← listForeach s.list).toList ++ s.loops }
  | .rereadNext =>
    match s.loops with
    | [] => .ok s
    | loop :: outer => do return { s with loops := (← rereadNext s.list loop) :: outer }
  | .removeCurrent =>
    match s.loops with
    | [] => .ok s
    | loop :: _ => do return { s with list := ← listRemoveCurrentEl s.list loop }
  | .advance =>
    match s.loops with
    | [] => .ok s
    | loop :: outer => do return { s with loops := (← enterRound s.list loop.next).toList ++ outer }
  | .leave => .ok { s with loops := s.loops.tail }

def run (s : State) (ops : List Op) : Except Fault State := ops.foldlM step s

end Swam.Afl.LinkedList
