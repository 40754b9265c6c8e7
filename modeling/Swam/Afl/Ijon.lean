import Mathlib.Data.Fintype.Card
import Mathlib.Data.List.FinRange
import Swam.Afl.Skipdet

/-!
# Maxima of the target

With IJON the target reports values in 512 slots. `ijon_update_max_dynamic` keeps the largest value
of each slot and stores the input that reached it, `ijon_get_input` picks a slot with a value.
-/
namespace Swam.Afl.Ijon

/-! ## The state -/

def mapSizeIjonEntries : Nat := 512

abbrev Slot := Fin mapSizeIjonEntries

structure InputInfo where
  slotId : Slot
  len : Nat
  deriving DecidableEq

/-- `ijon_min_state`, and the variables that `ijon_store_history_unconditional` keeps between its
calls to see how many slots the history has to hold. -/
structure State where
  maxMap : Slot → BitVec 64
  infos : Slot → InputInfo
  numEntries : Nat
  numUpdates : Nat
  discovered : Slot → Bool
  numDiscoveredVars : Nat

/-- `new_ijon_min_state`. -/
def newState : State where
  maxMap _ := 0
  infos i := ⟨i, 0⟩
  numEntries := 0
  numUpdates := 0
  discovered _ := false
  numDiscoveredVars := 0

/-- How the operations on the file of a slot end; the history's own files change nothing. -/
structure FileResults where
  opened : Bool
  written : Bool
  renamed : Bool
  deriving DecidableEq

/-- What the target reports in one slot, with the length of the input and the fate of its file. -/
structure Report where
  slot : Slot
  value : BitVec 64
  len : Nat
  files : FileResults

/-- One call of `ijon_update_max_dynamic`. -/
structure Call where
  maxArea : Slot → BitVec 64
  len : Nat
  files : Slot → FileResults

def Call.report (call : Call) (i : Slot) : Report := ⟨i, call.maxArea i, call.len, call.files i⟩

/-! ## The functions -/

/-- With a history that is too small for the slots in use the fuzzer ends with `FATAL`. -/
def storeHistory (limit : Int) (s : State) (i : Slot) : Option State :=
  if limit > 0 ∧ s.discovered i = false then
    if s.numDiscoveredVars + 1 > limit then none
    else some { s with
      discovered := Function.update s.discovered i true
      numDiscoveredVars := s.numDiscoveredVars + 1 }
  else some s

def storeMaxInput (limit : Int) (s : State) (i : Slot) (len : Nat) (files : FileResults) :
    Option State :=
  let s := { s with infos := Function.update s.infos i { s.infos i with len } }
  if !files.opened then some s
  else if !files.written then some s
  else
    -- a failed rename is only reported
    (storeHistory limit s i).map fun s => { s with numUpdates := s.numUpdates + 1 }

/-- The loop body of `ijon_update_max_dynamic`. -/
def updateSlot (limit : Int) (s : State) (r : Report) : Option State :=
  if r.value > s.maxMap r.slot then
    storeMaxInput limit
      { s with
        numEntries := if s.maxMap r.slot = 0 then s.numEntries + 1 else s.numEntries
        maxMap := Function.update s.maxMap r.slot r.value
        numUpdates := s.numUpdates + 1 }
      r.slot r.len r.files
  else some s

def updateMaxDynamic (limit : Int) (s : State) (call : Call) : Option State :=
  ((List.finRange mapSizeIjonEntries).map call.report).foldlM (updateSlot limit) s

/-- Calls one after the other; `none` once the fuzzer has ended. -/
def updates (limit : Int) (calls : List Call) (s : State) : Option State :=
  calls.foldlM (updateMaxDynamic limit) s

/-- The walk of `ijon_get_input` over the slots. -/
def walk (s : State) : Nat → List Slot → Option InputInfo
  | _, [] => none
  | rnd, i :: slots =>
    if s.maxMap i > 0 then if rnd = 0 then some (s.infos i) else walk s (rnd - 1) slots
    else walk s rnd slots

/-- With the result of `random()`. -/
def getInput (s : State) (random : Nat) : Option InputInfo :=
  if s.numEntries = 0 then none
  else walk s (random % s.numEntries) (List.finRange mapSizeIjonEntries)

/-! ## What is to be counted -/

/-- All reports of the calls, in their order. -/
def reports (calls : List Call) : List Report :=
  calls.flatMap fun call => (List.finRange mapSizeIjonEntries).map call.report

/-- The values seen in a slot. -/
def seen (i : Slot) (before : List Report) : List Nat :=
  (before.filter fun r => r.slot = i).map fun r => r.value.toNat

/-- The largest of these, or 0. -/
def runningMax (i : Slot) (before : List Report) : Nat := (seen i before).foldl max 0

/-- Larger than everything seen in the slot before. -/
def Improves (before : List Report) (r : Report) : Prop :=
  runningMax r.slot before < r.value.toNat

instance (before : List Report) (r : Report) : Decidable (Improves before r) :=
  inferInstanceAs (Decidable (_ < _))

/-- Those of the later reports that improve their slot. -/
def improvements (before : List Report) : List Report → List Report
  | [] => []
  | r :: later =>
    if Improves before r then r :: improvements (before ++ [r]) later
    else improvements (before ++ [r]) later

/-- The input has been written to a file, whether or not that got its name. -/
def Stored (r : Report) : Prop := r.files.opened = true ∧ r.files.written = true

instance (r : Report) : Decidable (Stored r) := inferInstanceAs (Decidable (_ ∧ _))

def activeSlots (s : State) : Finset Slot := Finset.univ.filter fun i => 0 < s.maxMap i

end Swam.Afl.Ijon
