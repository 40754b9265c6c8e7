import Swam.BranchMoves
import Swam.Runs

/-!
# The bodies stay trees

The four mutators that move nodes leave trees behind and lose no node that they do not replace
on purpose, in every run in which no step meets one of two situations. In the first, the root of
a body is a `call_indirect` whose target is another one: the mutator moves the target into an
assignment, and then writes what it makes of the target into the slot where the target was. In
the second, a `br_if` has an operand, and the labels in scope do not say that its label takes
one: the operand is not saved when it is replaced.
-/
namespace Swam

open Binaryen Mut Lib
open ExprRef (findAll? EverywhereAll)

/-! ## Steps of the loops over the children -/

/-- A child of the node is in its slot when it is listed. -/
theorem placedAt_childAddrs {bodies : List ExprRef} {el : Nat} {node : ExprRef}
    (found : findAll? el bodies = some node) (j d : Nat)
    (listed : (childAddrs node)[j]? = some (some d)) : PlacedAt bodies el j d := by
  obtain ⟨k, cs, rfl⟩ := (ExprRef.findAll?_found_in found).node
  rw [childAddrs] at listed
  split at listed
  next enumerated =>
    rw [List.getElem?_map, Option.map_eq_some_iff] at listed
    obtain ⟨old, here, at_⟩ := listed
    exact ⟨old, ⟨k, cs, found, enumerated, here⟩, at_⟩
  next => cases listed

section
variable {s : MutState} (tree : Tree s.bodies s.nextAddr) {func body parent ind child : Nat}
include tree

theorem callChild_move (placed : RewritesIndirect child s → PlacedAt s.bodies parent ind child) :
    Ends (callChild func parent ind child) s (fun _ t => Move (.child parent ind) child s t)
      fun _ _ => True := by
  rw [callChild, ends_bind]
  have moved := @redirect_move func child (fun block => setChild parent block ind)
    (.child parent ind) s (fun _ => rfl) tree placed
  apply moved.mono _ fun _ _ _ => trivial
  intro _ t move
  rw [enqueue, ends_modify]
  exact move.before ⟨rfl, rfl, rfl⟩

variable (placed : PlacedAt s.bodies parent ind child)
include placed

theorem nestChild_move :
    Ends (InPlace.nestChild parent ind child) s (fun _ t => Move (.child parent ind) child s t)
      fun _ _ => True := by
  rw [InPlace.nestChild, ends_bind]
  have moved := @nest_move child (fun new => setChild parent new ind) (.child parent ind) s
    (fun _ => rfl) tree placed
  apply moved.mono _ fun _ _ _ => trivial
  rintro _ t ⟨move, _⟩
  rw [enqueue, ends_modify]
  exact move.before ⟨rfl, rfl, rfl⟩

/-- A branch that is going to be changed loses its operand. -/
def DropsOperand (body child : Nat) (s : MutState) : Prop :=
  ∃ root kind value cond, findAll? body s.bodies = some root ∧
    findAll? child s.bodies = some (.node child kind [value, cond]) ∧
    (randBelow 5 s.rand).1 = 0 ∧
    LosesOperand (wasmFindAvailableLabels child root CList.empty).2 kind value cond

theorem branchChild_move (saved : ¬ DropsOperand body child s) :
    Ends (branchChild func body parent ind child) s
      (fun _ t => Move (.child parent ind) child s t) fun _ _ => True := by
  have queued : Ends (enqueue child) s (fun _ t => Move (.child parent ind) child s t)
      fun _ _ => True := .stay (SameMemory.extends ⟨rfl, rfl, rfl⟩)
  obtain ⟨old, held, at_⟩ := placed
  rw [branchChild, ends_bind]
  apply ends_deref _ _ trivial
  intro node found
  split
  next addr kind value cond =>
    cases addr_eq found
    have same := Placed.found held (tree.unique _) at_
    rw [found] at same
    cases same
    rw [ends_bind, ends_ite]
    constructor
    · intro branch
      rw [ends_oneIn, ends_ite]
      constructor
      · intro chosen
        rw [ends_bind]
        let t : MutState := { s with rand := (randBelow 5 s.rand).2 }
        have site : AtSite ⟨func, parent, ind, child, (ExprRef.node child kind [value, cond]).expr.ty⟩
            kind value cond t := ⟨found, held⟩
        have moved := @retarget_move _ kind value cond t site tree body (by
          intro root here loses
          exact saved ⟨root, kind, value, cond, here, found, by simpa using chosen, loses⟩)
        apply moved.mono _ fun _ _ _ => trivial
        intro changed u move
        have whole : Move (.child parent ind) child s u := move.after ⟨rfl, rfl, rfl⟩
        rw [ends_ite]
        exact ⟨fun _ => whole, fun _ => whole.before ⟨rfl, rfl, rfl⟩⟩
      · exact fun _ => .stay (SameMemory.extends ⟨rfl, rfl, rfl⟩)
    · intro _
      rw [ends_pure, ends_ite]
      exact ⟨fun impossible => by simp at impossible, fun _ => queued⟩
  next => exact queued

end

/-! ## Visits -/

/-- What the visits of a mutator keep: there are trees, and nothing is lost without being noted. The
operands of an instruction are all there, as long as only operators are exchanged. -/
structure Invariant (J : MutState → Prop) (s t : MutState) : Prop where
  step : TreeStep s t
  also : J t

section
variable {J : MutState → Prop} {s t : MutState} {el : Nat} {node : ExprRef}
  {visit : Nat → Nat → Mut Unit} {cond : Nat → Nat → MutState → Prop}

/-- The children of a node are in their slots until it is their turn. -/
theorem children_invariant (start : Invariant J s t)
    (known : ∀ j d, (childAddrs node)[j]? = some (some d) → PlacedAt t.bodies el j d)
    (move : ∀ ind child u, Tree u.bodies u.nextAddr → J u → PlacedAt u.bodies el ind child →
      cond ind child u →
      Ends (visit ind child) u (fun _ v => Move (.child el ind) child u v ∧ J v) fun _ _ => True)
    (meets : ChildrenMeet cond visit (childAddrs node) 0 t) :
    Ends (eachChild visit (childAddrs node) 0) t (fun _ u => Invariant J s u) fun _ _ => True := by
  apply eachChild_ends (P := fun ind child u => PlacedAt u.bodies el ind child) _ start _ meets
  · intro ind child u here placed holds
    apply (move ind child u here.step.tree here.also placed holds).mono _ fun _ _ _ => trivial
    rintro _ v ⟨moved, also⟩
    exact ⟨⟨here.step.trans (moved.step here.step.tree), also⟩, moved.others here.step.tree placed⟩
  · intro j child listed
    rw [Nat.zero_add]
    exact known j child listed

theorem children_invariant_of_all (start : Invariant J s t)
    (known : ∀ j d, (childAddrs node)[j]? = some (some d) → PlacedAt t.bodies el j d)
    (move : ∀ ind child u, Tree u.bodies u.nextAddr → J u → PlacedAt u.bodies el ind child →
      Ends (visit ind child) u (fun _ v => Move (.child el ind) child u v ∧ J v) fun _ _ => True) :
    Ends (eachChild visit (childAddrs node) 0) t (fun _ u => Invariant J s u) fun _ _ => True :=
  @children_invariant J s t el node visit (fun _ _ _ => True) start known
    (fun ind child u tree also placed _ => move ind child u tree also placed)
    (.of_all (fun _ _ _ => trivial) _ _ _)

end

/-- The visits of the mutators. -/
def callVisit (func _ : Nat) (whetherRootNode : Bool) (el : Nat) : Mut Unit := do
  let node ← deref el
  callRoot func whetherRootNode el
  eachChild (callChild func el) (childAddrs node) 0

def operatorVisit (func _ : Nat) (whetherRootNode : Bool) (el : Nat) : Mut Unit := do
  let node ← deref el
  let el ← operatorRoot func whetherRootNode el
  eachChild (operatorChild el) (childAddrs node) 0

def branchVisit (func body : Nat) (_ : Bool) (el : Nat) : Mut Unit := do
  let node ← deref el
  eachChild (branchChild func body el) (childAddrs node) 0

def nestVisit (func _ : Nat) (whetherRootNode : Bool) (el : Nat) : Mut Unit := do
  let node ← deref el
  InPlace.nestRoot func whetherRootNode el
  eachChild (InPlace.nestChild el) (childAddrs node) 0

/-- After the root of a body was visited, a `call_indirect` among its children is rewritten only
where it still is. -/
def CallsInSlots (func _ : Nat) (whetherRootNode : Bool) (el : Nat) (s : MutState) : Prop :=
  whetherRootNode = true → ∀ node, findAll? el s.bodies = some node →
    ∀ t, callRoot func true el s = .ok () t →
      ChildrenMeet (fun ind child u => RewritesIndirect child u → PlacedAt u.bodies el ind child)
        (callChild func el) (childAddrs node) 0 t

/-- No branch among the children loses its operand. -/
def OperandsSaved (func body : Nat) (_ : Bool) (el : Nat) (s : MutState) : Prop :=
  ∀ node, findAll? el s.bodies = some node →
    ChildrenMeet (fun _ child u => ¬ DropsOperand body child u) (branchChild func body el)
      (childAddrs node) 0 s

section
variable {s t : MutState} {func body el : Nat}

/-- The place of a root. -/
theorem holds_root (root : t.bodies[func]?.bind ExprRef.addr? = some body) :
    ∃ old, (Spot.root func).Holds t.bodies old ∧ old.addr? = some body :=
  Option.bind_eq_some_iff.mp root

theorem callVisit_later (start : Invariant (fun _ => True) s t) :
    Ends (callVisit func body false el) t (fun _ u => Invariant (fun _ => True) s u)
      fun _ _ => True := by
  rw [callVisit, ends_bind]
  apply ends_deref _ _ trivial
  intro node found
  apply children_invariant_of_all start (placedAt_childAddrs found)
  · intro ind child u tree _ placed
    exact (callChild_move tree fun _ => placed).mono (fun _ _ move => ⟨move, trivial⟩)
      fun _ _ _ => trivial

theorem callVisit_first (start : Invariant (fun _ => True) s t)
    (root : t.bodies[func]?.bind ExprRef.addr? = some body)
    (meets : CallsInSlots func body true body t) :
    Ends (callVisit func body true body) t (fun _ u => Invariant (fun _ => True) s u)
      fun _ _ => True := by
  rw [callVisit, ends_bind]
  apply ends_deref _ _ trivial
  intro node found
  have moved := @redirect_move func body (setFunctionBody func) (.root func) t (fun _ => rfl)
    start.step.tree fun _ => holds_root root
  rw [ends_bind]
  apply (moved.and (ends_self _ t)).mono _ fun _ _ _ => trivial
  rintro _ u ⟨move, run⟩
  have there : Invariant (fun _ => True) s u :=
    ⟨start.step.trans (move.step start.step.tree), trivial⟩
  -- what is known of the children here is what is asked of the run
  apply eachChild_ends (P := fun _ _ _ => True) _ there (fun _ _ _ => trivial)
    (meets rfl node found u run)
  intro ind child v here _ placed
  apply (callChild_move here.step.tree placed).mono _ fun _ _ _ => trivial
  intro _ w moved
  exact ⟨⟨here.step.trans (moved.step here.step.tree), trivial⟩, fun _ _ _ _ => trivial⟩

theorem nestVisit_later (start : Invariant (fun _ => True) s t) :
    Ends (nestVisit func body false el) t (fun _ u => Invariant (fun _ => True) s u)
      fun _ _ => True := by
  rw [nestVisit, ends_bind]
  apply ends_deref _ _ trivial
  intro node found
  apply children_invariant_of_all start (placedAt_childAddrs found)
  · intro ind child u tree _ placed
    exact (nestChild_move tree placed).mono (fun _ _ move => ⟨move, trivial⟩) fun _ _ _ => trivial

theorem branchVisit_ends {whetherRootNode : Bool} (start : Invariant (fun _ => True) s t)
    (meets : OperandsSaved func body whetherRootNode el t) :
    Ends (branchVisit func body whetherRootNode el) t (fun _ u => Invariant (fun _ => True) s u)
      fun _ _ => True := by
  rw [branchVisit, ends_bind]
  apply ends_deref _ _ trivial
  intro node found
  apply children_invariant start (placedAt_childAddrs found) _ (meets node found)
  intro ind child u tree _ placed saved
  exact (branchChild_move tree placed saved).mono (fun _ _ move => ⟨move, trivial⟩)
    fun _ _ _ => trivial

theorem nestVisit_first (start : Invariant (fun _ => True) s t)
    (root : t.bodies[func]?.bind ExprRef.addr? = some body) :
    Ends (nestVisit func body true body) t (fun _ u => Invariant (fun _ => True) s u)
      fun _ _ => True := by
  rw [nestVisit, ends_bind]
  apply ends_deref _ _ trivial
  intro node found
  have moved := @nest_move body (setFunctionBody func) (.root func) t (fun _ => rfl)
    start.step.tree (holds_root root)
  rw [ends_bind]
  apply moved.mono _ fun _ _ _ => trivial
  rintro _ u ⟨move, placed⟩
  have there : Invariant (fun _ => True) s u :=
    ⟨start.step.trans (move.step start.step.tree), trivial⟩
  apply children_invariant_of_all there
  · exact fun j d listed => placed j d (placedAt_childAddrs found j d listed)
  · intro ind child v tree _ placed
    exact (nestChild_move tree placed).mono (fun _ _ move => ⟨move, trivial⟩) fun _ _ _ => trivial

end

/-! ## Visits of operators -/

/-- The exchanges that a visit makes meet a condition on the address and the state. -/
def OperatorsMeet (C : Nat → MutState → Prop) (func _ : Nat) (whetherRootNode : Bool) (el : Nat)
    (s : MutState) : Prop :=
  (whetherRootNode = true → C el s) ∧
    ∀ node, findAll? el s.bodies = some node →
      ∀ el' t, operatorRoot func whetherRootNode el s = .ok el' t →
        ChildrenMeet (fun _ child u => C child u) (operatorChild el') (childAddrs node) 0 t

/-- What holds across the exchange of a node and says that no operand is missing. -/
structure OperatorsKeep (C : Nat → MutState → Prop) (J : MutState → Prop) : Prop where
  complete : ∀ t, J t → EverywhereAll Complete t.bodies
  step : ∀ {spot addr el t u}, OperatorStep spot addr t el u → Tree t.bodies t.nextAddr → J t →
    C addr t → (∃ old, spot.Holds t.bodies old ∧ old.addr? = some addr) → J u
  quiet : ∀ t list cnt rand, J t → J { t with childNodeList := list, curCnt := cnt, rand }

namespace OperatorsKeep

variable {C : Nat → MutState → Prop} {J : MutState → Prop} (keeps : OperatorsKeep C J)
  {s t : MutState} {func body el : Nat}
include keeps

theorem child {ind child : Nat} (tree : Tree t.bodies t.nextAddr) (here : J t)
    (placed : PlacedAt t.bodies el ind child) (meets : C child t) :
    Ends (operatorChild el ind child) t (fun _ u => Move (.child el ind) child t u ∧ J u)
      fun _ _ => True := by
  rw [operatorChild, ends_bind]
  have stepped := @operatorNode_step child (fun new => setChild el new ind) (.child el ind) t
    fun _ => rfl
  apply stepped.mono _ fun _ _ _ => trivial
  intro new u step
  rw [enqueue, ends_modify]
  have moved := (step.replaced tree (keeps.complete t here) placed).move
  have after := keeps.step step tree here meets placed
  exact ⟨moved.before ⟨rfl, rfl, rfl⟩, keeps.quiet u (u.childNodeList ++ [new]) u.curCnt u.rand after⟩

theorem later (start : Invariant J s t) (meets : OperatorsMeet C func body false el t) :
    Ends (operatorVisit func body false el) t (fun _ u => Invariant J s u) fun _ _ => True := by
  rw [operatorVisit, ends_bind]
  apply ends_deref _ _ trivial
  intro node found
  refine children_invariant start (placedAt_childAddrs found) ?_ (meets.2 node found el t rfl)
  exact fun ind child u tree here placed holds => keeps.child tree here placed holds

/-- The root of a body is exchanged before its children, which are those of the new root then. -/
theorem root (start : Invariant J s t) (root : t.bodies[func]?.bind ExprRef.addr? = some body)
    (meets : C body t) :
    Ends (operatorRoot func true body) t
      (fun el u => Invariant J s u ∧ ∀ j d, PlacedAt t.bodies body j d → PlacedAt u.bodies el j d)
      fun _ _ => True := by
  have stepped := @operatorNode_step body
    (fun new => modify fun s => { s with bodies := s.bodies.set func new }) (.root func) t
    fun _ => rfl
  apply stepped.mono _ fun _ _ _ => trivial
  intro el u step
  have replaced := step.replaced start.step.tree (keeps.complete t start.also) (holds_root root)
  have after := keeps.step step start.step.tree start.also meets (holds_root root)
  exact ⟨⟨start.step.trans (replaced.move.step start.step.tree), after⟩, replaced.placed⟩

theorem first (start : Invariant J s t) (root : t.bodies[func]?.bind ExprRef.addr? = some body)
    (meets : OperatorsMeet C func body true body t) :
    Ends (operatorVisit func body true body) t (fun _ u => Invariant J s u) fun _ _ => True := by
  rw [operatorVisit, ends_bind]
  apply ends_deref _ _ trivial
  intro node found
  rw [ends_bind]
  have stepped := keeps.root start root (meets.1 rfl)
  apply (stepped.and (ends_self _ t)).mono _ fun _ _ _ => trivial
  rintro el u ⟨⟨there, placed⟩, run⟩
  refine @children_invariant _ s u el node _ (fun _ child u => C child u) there ?_ ?_
    (meets.2 node found el u run)
  · exact fun j d listed => placed j d (placedAt_childAddrs found j d listed)
  · exact fun ind child v tree here placed holds => keeps.child tree here placed holds

/-- In a run all of whose exchanges meet the condition, what they keep holds to the end. -/
theorem run (tree : Tree s.bodies s.nextAddr) (here : J s)
    (meets : RunMeets (OperatorsMeet C) operatorMutationMax operatorVisit s) :
    Ends wasmOperatorsMutate s (fun _ t => Invariant J s t) fun _ _ => True :=
  mutate_ends (I := Invariant J s)
    (fun t list cnt rand inside =>
      ⟨⟨inside.step.tree, inside.step.kept⟩, keeps.quiet t list cnt rand inside.also⟩)
    (fun _ _ _ _ inside holds => keeps.later inside holds)
    (fun _ _ _ inside root holds => keeps.first inside root holds)
    ⟨⟨tree, [], (List.append_nil _).symm, .refl _ _⟩, here⟩ meets

/-- Where what is kept implies the condition, every run meets it. -/
theorem meets (implies : ∀ addr t, J t → C addr t) (tree : Tree s.bodies s.nextAddr) (here : J s) :
    RunMeets (OperatorsMeet C) operatorMutationMax operatorVisit s := by
  have children : ∀ {el : Nat} {node : ExprRef} {t : MutState}, Invariant J s t →
      (∀ j d, (childAddrs node)[j]? = some (some d) → PlacedAt t.bodies el j d) →
      ChildrenMeet (fun _ child u => C child u) (operatorChild el) (childAddrs node) 0 t := by
    intro el node t inside known
    apply ChildrenMeet.of_invariant (P := fun ind child u => PlacedAt u.bodies el ind child) _ inside
    · intro j child listed
      rw [Nat.zero_add]
      exact known j child listed
    · intro ind child u inside placed
      have holds := implies child u inside.also
      refine ⟨holds, ?_⟩
      apply (keeps.child inside.step.tree inside.also placed holds).mono _ fun _ _ _ => trivial
      rintro _ v ⟨moved, after⟩
      exact ⟨⟨inside.step.trans (moved.step inside.step.tree), after⟩,
        moved.others inside.step.tree placed⟩
  have start : Invariant J s s := ⟨⟨tree, [], (List.append_nil _).symm, .refl _ _⟩, here⟩
  refine RunMeets.of_invariant (I := Invariant J s) ?_ ?_ ?_ start
  · exact fun t list cnt rand inside =>
      ⟨⟨inside.step.tree, inside.step.kept⟩, keeps.quiet t list cnt rand inside.also⟩
  · intro func body el t inside
    have meets : OperatorsMeet C func body false el t := by
      refine ⟨nofun, ?_⟩
      intro node found el' u run
      cases run
      exact children inside (placedAt_childAddrs found)
    exact ⟨meets, keeps.later inside meets⟩
  · intro func body t inside root
    have meets : OperatorsMeet C func body true body t := by
      refine ⟨fun _ => implies body t inside.also, ?_⟩
      intro node found el' u run
      obtain ⟨there, placed⟩ := (keeps.root inside root (implies body t inside.also)).ok run
      exact children there fun j d listed => placed j d (placedAt_childAddrs found j d listed)
    exact ⟨meets, keeps.first inside root meets⟩

end OperatorsKeep

/-- No exchange loses an operand. -/
theorem operators_keep_complete :
    OperatorsKeep (fun _ _ => True) fun t => EverywhereAll Complete t.bodies where
  complete := fun _ here => here
  step := fun step tree here _ holds => (step.replaced tree here holds).complete
  quiet := fun _ _ _ _ here => here

/-! ## Runs -/

inductive TreeMutator where
  | callTargetFunction
  | operators
  | branchTarget
  | recursive

namespace TreeMutator

def run : TreeMutator → Mut Nat
  | callTargetFunction => wasmCallTargetFunctionMutate
  | operators => wasmOperatorsMutate
  | branchTarget => wasmBranchTargetMutate
  | recursive => InPlace.wasmRecursiveMutate

/-- No step of the run meets one of the situations in which a tree breaks or loses a node. -/
def StepsMeet : TreeMutator → MutState → Prop
  | callTargetFunction => RunMeets CallsInSlots callMutationMax callVisit
  | branchTarget => RunMeets OperandsSaved branchMutationMax branchVisit
  | operators | recursive => fun _ => True

end TreeMutator

private theorem Invariant.quiet {s t : MutState} {J : MutState → Prop} (list : List Nat) (cnt : Nat)
    (rand : Rand) (same : ∀ t, J t → J { t with childNodeList := list, curCnt := cnt, rand })
    (here : Invariant J s t) : Invariant J s { t with childNodeList := list, curCnt := cnt, rand } :=
  ⟨⟨here.step.tree, here.step.kept⟩, same t here.also⟩

/-- After a run every body is a tree, and every node of a body is there or was given up. -/
theorem bodies_stay_trees (mutator : TreeMutator) (s : MutState)
    (tree : Tree s.bodies s.nextAddr) (complete : EverywhereAll Complete s.bodies)
    (meets : mutator.StepsMeet s) :
    Ends mutator.run s
      (fun _ t => Tree t.bodies t.nextAddr ∧
        ∃ given, t.replaced = s.replaced ++ given ∧ Kept s.bodies t.bodies given)
      fun _ _ => True := by
  have start : TreeStep s s :=
    ⟨tree, [], (List.append_nil _).symm, .refl _ _⟩
  have plain : Invariant (fun _ => True) s s := ⟨start, trivial⟩
  have quiet : ∀ t list cnt rand, Invariant (fun _ => True) s t →
      Invariant (fun _ => True) s { t with childNodeList := list, curCnt := cnt, rand } :=
    fun t list cnt rand => Invariant.quiet list cnt rand fun _ _ => trivial
  cases mutator with
  | callTargetFunction =>
    have ends := mutate_ends (I := Invariant (fun _ => True) s) quiet
      (fun _ _ _ _ here _ => callVisit_later here)
      (fun _ _ _ here root holds => callVisit_first here root holds) plain meets
    exact ends.mono (fun _ _ here => ⟨here.step.tree, here.step.kept⟩) fun _ _ _ => trivial
  | branchTarget =>
    have ends := mutate_ends (I := Invariant (fun _ => True) s) quiet
      (fun _ _ _ _ here holds => branchVisit_ends here holds)
      (fun _ _ _ here _ holds => branchVisit_ends here holds) plain meets
    exact ends.mono (fun _ _ here => ⟨here.step.tree, here.step.kept⟩) fun _ _ _ => trivial
  | recursive =>
    have ends := @mutate_ends (Invariant (fun _ => True) s) (fun _ _ _ _ _ => True) nestVisit quiet
      (fun _ _ _ _ here _ => nestVisit_later here)
      (fun _ _ _ here root _ => nestVisit_first here root) recurseMutationMax s plain
      (.of_all (fun _ _ _ _ _ => trivial) s)
    exact ends.mono (fun _ _ here => ⟨here.step.tree, here.step.kept⟩) fun _ _ _ => trivial
  | operators =>
    have ends := operators_keep_complete.run tree complete
      (.of_all (fun _ _ _ _ _ => ⟨fun _ => trivial, fun _ _ _ _ _ => .of_all (fun _ _ _ => trivial) _ _ _⟩) s)
    exact ends.mono (fun _ _ here => ⟨here.step.tree, here.step.kept⟩) fun _ _ _ => trivial

/-- The root of the first body calls indirectly what another indirect call returns. There are two
functions of each signature, so that no code is generated. -/
def nestedIndirect : MutState where
  mod :=
    { functions := [⟨"0", Ty.none, Ty.none, [], .null⟩, ⟨"1", Ty.none, Ty.none, [], .null⟩,
        ⟨"2", Ty.none, Ty.i32, [], .null⟩, ⟨"3", Ty.none, Ty.i32, [], .null⟩]
      globals := [], exports := [], memories := [], segments := []
      tables := [⟨"0", 0x10, none, .funcref⟩], features := [] }
  bodies := [.node 0 (.callIndirect "0" Ty.none Ty.none)
      [.node 1 (.callIndirect "0" Ty.none Ty.i32) [.node 2 (.const (.i32 0)) []]],
    .null, .null, .null]
  nextAddr := 3
  names := wasmInitNameGrp
  rand := ⟨fun _ => 0, 0⟩
  patience := 10
  childNodeList := []
  curCnt := 0
  addedVars := []
  replaced := []

/-- The same calls below a block. -/
def nestedBelow : MutState :=
  { nestedIndirect with
    bodies := [.node 3 (.block none Ty.none) [.node 0 (.callIndirect "0" Ty.none Ty.none)
      [.node 1 (.callIndirect "0" Ty.none Ty.i32) [.node 2 (.const (.i32 0)) []]]],
      .null, .null, .null]
    nextAddr := 4 }

private theorem tree_of_occurs {bodies : List ExprRef} {next : Nat}
    (occurs : ∀ x, ExprRef.occAll x bodies = if x < next then 1 else 0) : Tree bodies next := by
  constructor
  · intro x
    rw [occurs]
    split <;> omega
  · intro x above
    rw [occurs, if_neg (by exact Nat.not_lt.mpr above)]

private theorem nestedIndirect_tree : Tree nestedIndirect.bodies nestedIndirect.nextAddr := by
  change Tree nestedIndirect.bodies 3
  apply tree_of_occurs
  intro x
  simp only [nestedIndirect, ExprRef.occAll_cons, ExprRef.occAll_nil, ExprRef.occ_node,
    ExprRef.occ_null]
  split_ifs <;> omega

private theorem nestedBelow_tree : Tree nestedBelow.bodies nestedBelow.nextAddr := by
  change Tree nestedBelow.bodies 4
  apply tree_of_occurs
  intro x
  simp only [nestedBelow, ExprRef.occAll_cons, ExprRef.occAll_nil, ExprRef.occ_node,
    ExprRef.occ_null]
  split_ifs <;> omega

private theorem complete_of_uncounted (k : Kind) (cs : List ExprRef) (none : k.operandCount? = none) :
    Complete k cs := by
  intro n some
  rw [none] at some
  cases some

private theorem complete_const : Complete (.const (.i32 0)) [] := by
  intro n some
  cases some
  exact ⟨rfl, fun c member => absurd member List.not_mem_nil⟩

private theorem nestedIndirect_complete : EverywhereAll Complete nestedIndirect.bodies :=
  ⟨⟨complete_of_uncounted _ _ rfl, ⟨complete_of_uncounted _ _ rfl, ⟨complete_const, trivial⟩, trivial⟩,
    trivial⟩, trivial, trivial, trivial, trivial⟩

private theorem nestedBelow_complete : EverywhereAll Complete nestedBelow.bodies :=
  ⟨⟨complete_of_uncounted _ _ rfl, nestedIndirect_complete.1, trivial⟩, trivial, trivial, trivial,
    trivial⟩

/-- The only visit of a run is that of the block. The outer call is in its slot there, and with its
change the run ends. -/
private theorem nestedBelow_meets : TreeMutator.StepsMeet .callTargetFunction nestedBelow := by
  intro extra t drawn funcShuffle u shuffled
  cases drawn
  cases shuffled
  change FunctionsMeet CallsInSlots callVisit 1 [1, 2, 3, 0]
    { nestedBelow with rand := ⟨fun _ => 0, 4⟩ }
  have bodiless {idx : Nat} {rest : List Nat} {s : MutState}
      (none : s.bodies[idx]?.bind ExprRef.addr? = none)
      (later : FunctionsMeet CallsInSlots callVisit 1 rest s) :
      FunctionsMeet CallsInSlots callVisit 1 (idx :: rest) s :=
    ⟨fun _ => later, fun body here => by rw [none] at here; cases here⟩
  refine bodiless rfl (bodiless rfl (bodiless rfl ⟨fun none => (by cases none), fun body here => ?_⟩))
  cases here
  refine ⟨?_, fun _ _ => trivial⟩
  change WalkMeets _ _ 1 (9 + 1) true _
  intro el rest listed
  cases listed
  refine ⟨fun _ node found t looked => ?_, fun t visited more => ?_⟩
  · cases found
    cases looked
    exact ⟨fun _ => ⟨_, ⟨_, _, rfl, rfl, rfl⟩, rfl⟩, fun _ _ => trivial⟩
  · have counted : (match callVisit 0 3 true 3 { nestedBelow with rand := ⟨fun _ => 0, 4⟩ } with
        | .ok _ t => t.curCnt
        | .error _ _ => 1) = 1 := by decide +kernel
    change callVisit 0 3 true 3 { nestedBelow with rand := ⟨fun _ => 0, 4⟩ } = .ok () t at visited
    rw [visited] at counted
    dsimp only at counted
    omega

section
-- without this the statement is checked by running the mutator
attribute [local irreducible] TreeMutator.run

/-- Below the block the outer call is changed, and the nodes are a tree again. -/
theorem bodies_stay_trees_nestedBelow :
    Tree nestedBelow.bodies nestedBelow.nextAddr ∧ EverywhereAll Complete nestedBelow.bodies ∧
      TreeMutator.StepsMeet .callTargetFunction nestedBelow ∧
      ∃ n t, TreeMutator.callTargetFunction.run nestedBelow = .ok n t ∧ 0 < n ∧
        Tree t.bodies t.nextAddr := by
  refine ⟨nestedBelow_tree, nestedBelow_complete, nestedBelow_meets, ?_⟩
  have ends := bodies_stay_trees .callTargetFunction nestedBelow nestedBelow_tree nestedBelow_complete
    nestedBelow_meets
  have changed : (match TreeMutator.callTargetFunction.run nestedBelow with
      | .ok n _ => n
      | .error _ _ => 0) = 1 := by
    decide +kernel
  cases run : TreeMutator.callTargetFunction.run nestedBelow with
  | error e t =>
    rw [run] at changed
    cases changed
  | ok n t =>
    rw [run] at changed
    dsimp only at changed
    exact ⟨n, t, rfl, by omega, (ends.ok run).1⟩

end

/-- The inner call is below two nodes afterwards. -/
theorem bodies_stay_trees_nestedIndirect :
    Tree nestedIndirect.bodies nestedIndirect.nextAddr ∧
    EverywhereAll Complete nestedIndirect.bodies ∧
    ∃ n t, TreeMutator.callTargetFunction.run nestedIndirect = .ok n t ∧
      ¬ Tree t.bodies t.nextAddr := by
  refine ⟨nestedIndirect_tree, nestedIndirect_complete, ?_⟩
  have twice : (match TreeMutator.callTargetFunction.run nestedIndirect with
      | .ok _ t => ExprRef.occAll 1 t.bodies
      | .error _ _ => 0) = 2 := by
    decide +kernel
  cases run : TreeMutator.callTargetFunction.run nestedIndirect with
  | error e t =>
    rw [run] at twice
    cases twice
  | ok n t =>
    refine ⟨n, t, rfl, ?_⟩
    intro tree
    have once := tree.unique 1
    rw [run] at twice
    dsimp only at twice
    omega

end Swam
