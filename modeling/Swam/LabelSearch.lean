import Mathlib.Algebra.Order.BigOperators.Group.List
import Mathlib.Algebra.Order.Group.Nat
import Mathlib.Data.List.Lex
import Swam.BranchTarget

/-!
# The search for labels

`wasm_find_available_labels` appends the label of a block or loop before it descends and removes
it again when the target is not below. The removal goes by pointer, from the head of the list;
for that it matters that the allocator hands out no pointer that is still in the list. What the
search leaves is said by the first path to the target.
-/
namespace Swam

open Binaryen

/-! ## The search on pointers -/

/-- The allocator of the C library. It hands out no pointer that is in use. -/
structure Allocator where
  State : Type
  calloc : State → List Nat → Nat × State
  free : State → Nat → State
  fresh : ∀ state inUse, (calloc state inUse).1 ∉ inUse

/-- A list of pointers to labels, each with what it points to. -/
abbrev LabelList := CList (Nat × LabelCxt)

namespace LabelList

def pointers (list : LabelList) : List Nat := list.elements.map (·.1)

/-- `list_remove`. It ends the process, here `none`, on a list that never had an element and on
one without the pointer. -/
def listRemove (list : LabelList) (removeMe : Nat) : Option LabelList :=
  if list.initialized = true ∧ removeMe ∈ list.pointers then
    some { list with elements := list.elements.eraseP (·.1 = removeMe) }
  else none

/-- The labels, without the pointers to them. -/
def labels (list : LabelList) : CList LabelCxt := ⟨list.elements.map (·.2), list.initialized⟩

/-- What was appended last is removed by its pointer, when that was not in the list before. -/
theorem listRemove_append {list : LabelList} {pointer : Nat} (fresh : pointer ∉ list.pointers)
    (label : LabelCxt) :
    listRemove (list.append (pointer, label)) pointer = some { list with initialized := true } := by
  have first : ∀ el ∈ list.elements, ¬ (decide (el.1 = pointer)) = true := by
    intro el member equal
    exact fresh (List.mem_map.mpr ⟨el, member, of_decide_eq_true equal⟩)
  have erased : (list.elements ++ [(pointer, label)]).eraseP (·.1 = pointer) = list.elements := by
    rw [List.eraseP_append_right _ first]
    simp
  unfold listRemove
  rw [if_pos ⟨rfl, by simp [pointers, CList.append]⟩]
  simp only [CList.append, erased]

end LabelList

namespace Allocator

variable (A : Allocator) (target : Nat)

mutual
/-- `wasm_find_available_labels`: whether the target was found, the list and the state of the
allocator, or `none` where the process ends. -/
def wasmFindAvailableLabels : ExprRef → LabelList → A.State → Option (Bool × LabelList × A.State)
  | .null, labelCxt, s => some (false, labelCxt, s)
  | .node addr kind children, labelCxt, s =>
    if addr = target then some (true, labelCxt, s)
    else
      match labelOf kind with
      | none =>
        if kind.isEnumerated then findAmong children labelCxt s else some (false, labelCxt, s)
      | some label =>
        let (curCxt, s) := A.calloc s labelCxt.pointers
        (findAmong children (labelCxt.append (curCxt, label)) s).bind fun (found, labelCxt, s) =>
          if found then some (true, labelCxt, s)
          else (LabelList.listRemove labelCxt curCxt).map fun labelCxt => (false, labelCxt, A.free s curCxt)

def findAmong : List ExprRef → LabelList → A.State → Option (Bool × LabelList × A.State)
  | [], labelCxt, s => some (false, labelCxt, s)
  | child :: rest, labelCxt, s =>
    (wasmFindAvailableLabels child labelCxt s).bind fun (found, labelCxt, s) =>
      if found then some (true, labelCxt, s) else findAmong rest labelCxt s
end

end Allocator

/-! ## Paths to the target -/

/-- A path of child positions through enumerated children, with the kinds of the nodes it
leaves on the way and the expression it leads to. -/
inductive Reaches : ExprRef → List Nat → List Kind → ExprRef → Prop where
  | here (e : ExprRef) : Reaches e [] [] e
  | child {addr : Nat} {k : Kind} {cs : List ExprRef} {i : Nat} {c : ExprRef} {path : List Nat}
      {above : List Kind} {e : ExprRef} (enumerated : k.isEnumerated = true)
      (member : cs[i]? = some c) (below : Reaches c path above e) :
      Reaches (.node addr k cs) (i :: path) (k :: above) e

/-- The path leads to the target, past the given kinds. -/
def LeadsTo (target : Nat) (container : ExprRef) (path : List Nat) (above : List Kind) : Prop :=
  ∃ e, Reaches container path above e ∧ e.addr? = some target

/-- The target occurs in the container through enumerated children. -/
def OccursIn (target : Nat) (container : ExprRef) : Prop :=
  ∃ path above, LeadsTo target container path above

/-- The path to the first occurrence, in the order in which nodes come before their children
and children before later ones. -/
structure FirstPath (target : Nat) (container : ExprRef) (path : List Nat) (above : List Kind) :
    Prop where
  leads : LeadsTo target container path above
  first : ∀ path' above', LeadsTo target container path' above' → path ≤ path'

section
variable {target : Nat}

theorem not_occursIn_null : ¬ OccursIn target .null := by
  rintro ⟨_, _, e, reached, named⟩
  cases reached
  cases named

theorem firstPath_here (k : Kind) (cs : List ExprRef) :
    FirstPath target (.node target k cs) [] [] where
  leads := ⟨_, .here _, rfl⟩
  first := fun path' _ _ => le_of_not_gt (List.not_lt_nil path')

/-- Below a node that is not the target the path goes on to a child. -/
theorem leadsTo_node {addr : Nat} {k : Kind} {cs : List ExprRef} {path : List Nat}
    {above : List Kind} (apart : addr ≠ target)
    (leads : LeadsTo target (.node addr k cs) path above) :
    ∃ i c rest above', k.isEnumerated = true ∧ cs[i]? = some c ∧ LeadsTo target c rest above' ∧
      path = i :: rest ∧ above = k :: above' := by
  obtain ⟨e, reached, named⟩ := leads
  cases reached with
  | here => exact absurd (Option.some.inj named) apart
  | child enumerated member below =>
    exact ⟨_, _, _, _, enumerated, member, ⟨e, below, named⟩, rfl, rfl⟩

/-- The first path among a list of children: through a child before which the target does not
occur. -/
structure FirstAmong (target : Nat) (cs : List ExprRef) (i : Nat) (path : List Nat)
    (above : List Kind) : Prop where
  child : ∃ c, cs[i]? = some c ∧ FirstPath target c path above
  earlier : ∀ j c, j < i → cs[j]? = some c → ¬ OccursIn target c

theorem FirstAmong.firstPath {addr : Nat} {k : Kind} {cs : List ExprRef} {i : Nat}
    {path : List Nat} {above : List Kind} (apart : addr ≠ target)
    (enumerated : k.isEnumerated = true) (among : FirstAmong target cs i path above) :
    FirstPath target (.node addr k cs) (i :: path) (k :: above) := by
  obtain ⟨c, member, ⟨e, reached, named⟩, first⟩ := among.child
  refine ⟨⟨e, .child enumerated member reached, named⟩, fun path' above' leads => ?_⟩
  obtain ⟨j, d, rest, above', _, member', below, rfl, rfl⟩ := leadsTo_node apart leads
  rcases Nat.lt_trichotomy i j with before | rfl | after
  · exact le_of_lt (List.Lex.rel before)
  · rw [member] at member'
    cases member'
    exact List.cons_le_cons i (first _ _ below)
  · exact absurd ⟨rest, above', below⟩ (among.earlier j d after member')

end

/-! ## What the search leaves -/

/-- The labels of the nodes on a path, from the outermost. -/
def labelsOf (above : List Kind) : List LabelCxt := above.filterMap labelOf

/-- The elements the search has appended are labels of the given nodes. -/
def Appended (above : List Kind) (before after : LabelList) : Prop :=
  ∃ added, after.elements = before.elements ++ added ∧ added.map (·.2) = labelsOf above

/-- The list holds what it did. It may have become one that had an element. -/
def Restored (before after : LabelList) : Prop :=
  after.elements = before.elements ∧ (before.initialized = true → after = before)

theorem Restored.refl (list : LabelList) : Restored list list := ⟨rfl, fun _ => rfl⟩

theorem Restored.trans {a b c : LabelList} (first : Restored a b) (second : Restored b c) :
    Restored a c := by
  refine ⟨second.1.trans first.1, fun initialized => ?_⟩
  have same := first.2 initialized
  rw [same] at second
  exact second.2 initialized

theorem Appended.of_restored {above : List Kind} {a b c : LabelList} (restored : Restored a b)
    (appended : Appended above b c) : Appended above a c := by
  obtain ⟨added, elements, labels⟩ := appended
  exact ⟨added, by rw [elements, restored.1], labels⟩

namespace Allocator

variable (A : Allocator) {target : Nat}

/-- What a search answers, for a first path and for there being no path. -/
def Answers (found : List Kind → Prop) (missed : Prop) (before : LabelList)
    (result : Option (Bool × LabelList × A.State)) : Prop :=
  (∃ above after s, result = some (true, after, s) ∧ found above ∧ Appended above before after) ∨
  ∃ after s, result = some (false, after, s) ∧ missed ∧ Restored before after

/-- Among the children the search stops at the first one the target occurs in. -/
theorem findAmong_answers {cs : List ExprRef}
    (each : ∀ c ∈ cs, ∀ before s, A.Answers (fun above => ∃ path, FirstPath target c path above)
      (¬ OccursIn target c) before (A.wasmFindAvailableLabels target c before s))
    (before : LabelList) (s : A.State) :
    A.Answers (fun above => ∃ i path, FirstAmong target cs i path above)
      (∀ c ∈ cs, ¬ OccursIn target c) before (A.findAmong target cs before s) := by
  induction cs generalizing before s with
  | nil => exact .inr ⟨before, s, rfl, by simp, .refl _⟩
  | cons c cs ih =>
    rw [findAmong]
    rcases each c List.mem_cons_self before s with
      ⟨above, after, s', result, ⟨path, first⟩, appended⟩ | ⟨after, s', result, missed, restored⟩
    · simp only [result, Option.bind_some, ↓reduceIte]
      refine .inl ⟨above, after, s', rfl, ⟨0, path, ⟨⟨c, rfl, first⟩, ?_⟩⟩, appended⟩
      exact fun j _ before => absurd before (Nat.not_lt_zero j)
    · simp only [result, Option.bind_some, Bool.false_eq_true, ↓reduceIte]
      rcases ih (fun c member => each c (List.mem_cons_of_mem _ member)) after s' with
        ⟨above, last, s'', result, ⟨i, path, child, earlier⟩, appended⟩ |
        ⟨last, s'', result, rest, restored'⟩
      · refine .inl ⟨above, last, s'', result, ⟨i + 1, path, child, ?_⟩, .of_restored restored appended⟩
        rintro (_ | j) d before member
        · cases member
          exact missed
        · exact earlier j d (Nat.lt_of_succ_lt_succ before) member
      · exact .inr ⟨last, s'', result, List.forall_mem_cons.mpr ⟨missed, rest⟩, restored.trans restored'⟩

/-- The search answers for the first path to its target. -/
theorem wasmFindAvailableLabels_answers (e : ExprRef) (before : LabelList) (s : A.State) :
    A.Answers (fun above => ∃ path, FirstPath target e path above) (¬ OccursIn target e) before
      (A.wasmFindAvailableLabels target e before s) := by
  induction e generalizing before s with
  | null => exact .inr ⟨before, s, rfl, not_occursIn_null, .refl _⟩
  | node addr kind cs ih =>
    rw [wasmFindAvailableLabels]
    by_cases here : addr = target
    · subst here
      rw [if_pos rfl]
      exact .inl ⟨[], before, s, rfl, ⟨[], firstPath_here kind cs⟩, [], by simp, rfl⟩
    rw [if_neg here]
    have missed (below : ∀ c ∈ cs, ¬ OccursIn target c) : ¬ OccursIn target (.node addr kind cs) := by
      rintro ⟨path, above, leads⟩
      obtain ⟨i, c, rest, above', _, member, below', _, _⟩ := leadsTo_node here leads
      exact below c (List.mem_of_getElem? member) ⟨rest, above', below'⟩
    cases labelled : labelOf kind with
    | none =>
      dsimp only
      split
      next enumerated =>
        rcases A.findAmong_answers ih before s with
          ⟨above, after, s', result, ⟨i, path, among⟩, added, elements, labels⟩ |
          ⟨after, s', result, rest, restored⟩
        · refine .inl ⟨kind :: above, after, s', result, ⟨_, among.firstPath here enumerated⟩, added,
            elements, ?_⟩
          rw [labels, labelsOf, labelsOf, List.filterMap_cons_none labelled]
        · exact .inr ⟨after, s', result, missed rest, restored⟩
      next leaf =>
        refine .inr ⟨before, s, rfl, ?_, .refl _⟩
        rintro ⟨path, above, leads⟩
        obtain ⟨_, _, _, _, enumerated, _⟩ := leadsTo_node here leads
        exact leaf enumerated
    | some label =>
      have fresh := A.fresh s before.pointers
      generalize A.calloc s before.pointers = allocated at fresh ⊢
      obtain ⟨curCxt, s₁⟩ := allocated
      dsimp only at fresh ⊢
      rcases A.findAmong_answers ih (before.append (curCxt, label)) s₁ with
        ⟨above, after, s', result, ⟨i, path, among⟩, added, elements, labels⟩ |
        ⟨after, s', result, rest, restored⟩
      · simp only [result, Option.bind_some, ↓reduceIte]
        have enumerated : kind.isEnumerated = true := by
          cases kind with
          | block _ _ => rfl
          | loop _ => rfl
          | _ => cases labelled
        refine .inl ⟨kind :: above, after, s', rfl, ⟨_, among.firstPath here enumerated⟩,
          (curCxt, label) :: added, ?_, ?_⟩
        · rw [elements, CList.append, List.append_assoc]
          rfl
        · rw [List.map_cons, labels, labelsOf, labelsOf, List.filterMap_cons_some labelled]
      · -- the children left the list as it was after the append, so the pointer is its last
        have same : after = before.append (curCxt, label) := restored.2 rfl
        simp only [result, Option.bind_some, Bool.false_eq_true, ↓reduceIte]
        rw [same, LabelList.listRemove_append fresh]
        refine .inr ⟨_, _, rfl, missed rest, rfl, fun initialized => ?_⟩
        rw [← initialized]

/-- The search tells whether the target occurs, and appends the labels of its first occurrence or
nothing. Only a list that never had an element may be left changed after a failure. -/
theorem labelSearch_exact (A : Allocator) (target : Nat) (container : ExprRef)
    (labelCxt : LabelList) (s : A.State) :
    ∃ found after s', A.wasmFindAvailableLabels target container labelCxt s = some (found, after, s') ∧
      (found = true ↔ OccursIn target container) ∧
      (found = true → ∃ path above added, FirstPath target container path above ∧
        after.elements = labelCxt.elements ++ added ∧ added.map (·.2) = labelsOf above) ∧
      (found = false → after.elements = labelCxt.elements ∧
        (labelCxt.initialized = true → after = labelCxt)) := by
  rcases A.wasmFindAvailableLabels_answers container labelCxt s with
    ⟨above, after, s', result, ⟨path, first⟩, added, elements, labels⟩ |
    ⟨after, s', result, missed, restored⟩
  · refine ⟨true, after, s', result, iff_of_true rfl ⟨path, above, first.leads⟩, ?_, nofun⟩
    exact fun _ => ⟨path, above, added, first, elements, labels⟩
  · refine ⟨false, after, s', result, iff_of_false Bool.false_ne_true missed, nofun, ?_⟩
    exact fun _ => restored

end Allocator

/-- An allocator that never frees. -/
def bumpAllocator : Allocator where
  State := Unit
  calloc := fun _ inUse => (inUse.sum + 1, ())
  free := fun _ _ => ()
  fresh := by
    intro _ inUse member
    have := List.single_le_sum (fun _ _ => Nat.zero_le _) _ member
    dsimp only at this
    omega

/-- A search that fails below a label leaves a list that can be looped over, where there was
none. -/
theorem labelSearch_initializes :
    ¬ ∀ (A : Allocator) (target : Nat) (container : ExprRef) (labelCxt : LabelList) (s : A.State)
        (after : LabelList) (s' : A.State),
      A.wasmFindAvailableLabels target container labelCxt s = some (false, after, s') →
        after = labelCxt := by
  intro unchanged
  have same := unchanged bumpAllocator 1 (.node 0 (.block (some "l") Ty.none) []) CList.empty ()
    ⟨[], true⟩ () rfl
  cases same

/-! ## The search by positions -/

namespace Allocator

variable (A : Allocator) {target : Nat}

/-- The pointers decide nothing: without them the answer is the given one. -/
def Forgets (result : Option (Bool × LabelList × A.State)) (answer : Bool × CList LabelCxt) : Prop :=
  ∃ found after s, result = some (found, after, s) ∧ (found, after.labels) = answer

theorem findAmong_forgets {cs : List ExprRef}
    (each : ∀ c ∈ cs, ∀ before s, A.Forgets (A.wasmFindAvailableLabels target c before s)
      (Swam.wasmFindAvailableLabels target c before.labels)) (before : LabelList) (s : A.State) :
    A.Forgets (A.findAmong target cs before s) (Swam.findAmong target cs before.labels) := by
  induction cs generalizing before s with
  | nil => exact ⟨false, before, s, rfl, rfl⟩
  | cons c cs ih =>
    obtain ⟨found, after, s', result, answer⟩ := each c List.mem_cons_self before s
    rw [findAmong, Swam.findAmong, ← answer]
    simp only [result, Option.bind_some]
    cases found with
    | true => exact ⟨true, after, s', rfl, rfl⟩
    | false => exact ih (fun c member => each c (List.mem_cons_of_mem _ member)) after s'

/-- The search with pointers does what the search by positions does. -/
theorem wasmFindAvailableLabels_forgets (e : ExprRef) (before : LabelList) (s : A.State) :
    A.Forgets (A.wasmFindAvailableLabels target e before s)
      (Swam.wasmFindAvailableLabels target e before.labels) := by
  induction e generalizing before s with
  | null => exact ⟨false, before, s, rfl, rfl⟩
  | node addr kind cs ih =>
    rw [wasmFindAvailableLabels, Swam.wasmFindAvailableLabels]
    split
    · exact ⟨true, before, s, rfl, rfl⟩
    cases labelOf kind with
    | none =>
      dsimp only
      split
      · exact A.findAmong_forgets ih before s
      · exact ⟨false, before, s, rfl, rfl⟩
    | some label =>
      have fresh := A.fresh s before.pointers
      generalize A.calloc s before.pointers = allocated at fresh ⊢
      obtain ⟨curCxt, s₁⟩ := allocated
      dsimp only at fresh ⊢
      have answers := @findAmong_answers A target cs
        (fun c _ => @wasmFindAvailableLabels_answers A target c)
        (before.append (curCxt, label)) s₁
      obtain ⟨found, after, s', result, answer⟩ := A.findAmong_forgets ih (before.append (curCxt, label)) s₁
      have appended : LabelList.labels (before.append (curCxt, label)) = before.labels.append label := by
        simp [LabelList.labels, CList.append]
      rw [appended] at answer
      rw [← answer]
      simp only [result, Option.bind_some]
      cases found with
      | true => exact ⟨true, after, s', rfl, rfl⟩
      | false =>
        rcases answers with ⟨_, _, _, other, _, _⟩ | ⟨_, _, other, _, restored⟩
        · rw [result] at other
          cases other
        · rw [result] at other
          cases other
          have same : after = before.append (curCxt, label) := restored.2 rfl
          rw [same]
          simp only [Bool.false_eq_true, ↓reduceIte]
          rw [LabelList.listRemove_append fresh, appended]
          refine ⟨false, _, _, rfl, ?_⟩
          simp [LabelList.labels, CList.append, CList.remove, List.eraseIdx_append_of_length_le]

end Allocator

end Swam
