import Swam.OperatorRebuilding
import Swam.TreeInvariant

/-!
# Operators keep their types

Where `wasmOperatorsMutate` exchanges no atomic access in place, and builds no instruction that the
memories of the module do not suit, every body stays well typed. Each node is exchanged for one of
the same type over the same operands, and its immediates are in range.
-/
namespace Swam

open Binaryen Mut Lib
open ExprRef (findAll? EverywhereAll Everywhere)

/-! ## Exchanging a node -/

/-- What an exchange needs of a node. -/
structure Exchangeable (m : Module) (k : Kind) (inst new : InstrTy) (rand : Rand) : Prop where
  -- the alignment is drawn for an atomic access as well
  inPlace : (wasmSubstituteExprFields k new rand).isSome = true → k.isAtomic = false
  rebuilt : wasmSubstituteExprFields k new rand = none → Rebuildable m k inst new

/-- The exchange that is going to be made at an address, if any, has what it needs. -/
def Suits (addr : Nat) (s : MutState) : Prop :=
  ∀ k cs inst new rand, findAll? addr s.bodies = some (.node addr k cs) →
    Exchange s (ExprRef.node addr k cs).expr inst new rand → Exchangeable s.mod k inst new rand

/-- A module in memory that is well typed. -/
structure WellTyped (s : MutState) : Prop where
  paired : s.bodies.length = s.mod.functions.length
  complete : EverywhereAll Complete s.bodies
  ranges : EverywhereAll (fun k _ => k.InRange) s.bodies
  valid : s.module.Valid

/-! ## The module -/

private theorem find?_withBodies {fs : List Func} {bodies : List ExprRef} (name : String)
    (paired : bodies.length = fs.length) :
    ((List.zipWith (fun f body => { f with body := body.expr }) fs bodies).find?
      (·.name = name)).map (fun f => (f.params, f.results)) =
      (fs.find? (·.name = name)).map fun f => (f.params, f.results) := by
  induction fs generalizing bodies with
  | nil => rfl
  | cons f fs ih =>
    match bodies with
    | body :: bodies =>
      rw [List.zipWith_cons_cons, List.find?_cons, List.find?_cons]
      dsimp only
      cases decide (f.name = name) with
      | true => rfl
      | false => exact ih (Nat.succ.inj paired)

/-- The bodies do not show in the signature. -/
theorem module_signature {s : MutState} (paired : s.bodies.length = s.mod.functions.length) :
    s.module.signature = s.mod.signature := by
  have functions : s.module.signature.functions = s.mod.signature.functions :=
    funext fun name => find?_withBodies name paired
  exact congrArg (fun functions => ({ s.mod.signature with functions } : Signature)) functions

/-- A module stays well typed when its bodies are exchanged. -/
theorem module_valid {s t : MutState} (valid : s.module.Valid)
    (functions : t.mod.functions = s.mod.functions)
    (related : List.Forall₂ (Retypes s.module.signature t.module.signature)
      (s.bodies.map ExprRef.expr) (t.bodies.map ExprRef.expr)) : t.module.Valid := by
  intro f member
  obtain ⟨i, here⟩ := List.mem_iff_getElem?.mp member
  obtain ⟨g, body', atG, atBody', rfl⟩ := List.getElem?_zipWith_eq_some.mp here
  rw [functions] at atG
  have other : (t.bodies.map ExprRef.expr)[i]? = some body'.expr := by
    rw [List.getElem?_map, atBody']
    rfl
  obtain ⟨bound, equal⟩ := List.getElem?_eq_some_iff.mp other
  have before : i < (s.bodies.map ExprRef.expr).length := related.length_eq ▸ bound
  have one := related.get before bound
  rw [List.length_map] at before
  have old : { g with body := s.bodies[i].expr } ∈ s.module.functions := by
    apply List.mem_of_getElem? (i := i)
    exact List.getElem?_zipWith_eq_some.mpr ⟨g, _, atG, List.getElem?_eq_getElem before, rfl⟩
  have same : Retypes s.module.signature t.module.signature s.bodies[i].expr body'.expr := by
    simpa [equal] using one
  exact (valid _ old).retypes same

/-- The bodies before and after something was put in a place. -/
theorem related_put {R : Expr → Expr → Prop} (congruent : Congruent R) {bodies : List ExprRef}
    {spot : Spot} {old new : ExprRef} (unique : ∀ x, ExprRef.occAll x bodies ≤ 1)
    (holds : spot.Holds bodies old) (related : R old.expr new.expr) :
    List.Forall₂ R (bodies.map ExprRef.expr) ((spot.put new bodies).map ExprRef.expr) := by
  cases spot with
  | root func => exact congruent.set holds related
  | child el ind =>
    obtain ⟨k, cs, found, enumerated, here⟩ := holds
    refine congruent.writeAll ?_ (unique el) found
    rw [ExprRef.slot_eq enumerated, ExprRef.expr_node, ExprRef.expr_node]
    exact congruent.node k (congruent.set here related)

/-! ## A step -/

/-- The two instructions are of one group. -/
theorem Exchange.alike {s : MutState} {node : Expr} {inst new : InstrTy} {rand : Rand}
    (exchange : Exchange s node inst new rand) : inst.isShared = true ∧ new.isShared = true ∧
      inst.required = new.required ∧ inst.produced = new.produced := by
  obtain ⟨grp, listed, several, among, drawn⟩ := exchange.grouped
  obtain ⟨takes, leaves, _⟩ := groups_typed grp listed inst among
  obtain ⟨takes', leaves', _⟩ := groups_typed grp listed new drawn
  have shared := groups_shared grp listed several
  exact ⟨shared inst among, shared new drawn, takes.trans takes'.symm, leaves.trans leaves'.symm⟩

section
variable {s : MutState} (typed : WellTyped s)
include typed

/-- A node of a body is well typed in some scope. -/
theorem WellTyped.node {addr : Nat} {n : ExprRef} (found : findAll? addr s.bodies = some n) :
    ∃ S : Scope, S.sig = s.mod.signature ∧ Valid S n.expr := by
  obtain ⟨body, member, inside⟩ := ExprRef.exists_find? found
  obtain ⟨i, atBody⟩ := List.mem_iff_getElem?.mp member
  obtain ⟨bound, _⟩ := List.getElem?_eq_some_iff.mp atBody
  rw [typed.paired] at bound
  have listed : { s.mod.functions[i] with body := body.expr } ∈ s.module.functions := by
    apply List.mem_of_getElem? (i := i)
    exact List.getElem?_zipWith_eq_some.mpr ⟨_, body, List.getElem?_eq_getElem bound, atBody, rfl⟩
  obtain ⟨S, same, valid⟩ := (typed.valid _ listed).typed.find? inside
  exact ⟨S, same.trans (module_signature typed.paired), valid⟩

variable {addr : Nat} {k k' : Kind} {cs : List ExprRef} {inst new : InstrTy} {rand rand' : Rand}
  (found : findAll? addr s.bodies = some (.node addr k cs))
  (exchange : Exchange s (ExprRef.node addr k cs).expr inst new rand)
include found exchange

omit typed found in
/-- A new operator in place of the old one. -/
theorem inPlace_related (substituted : wasmSubstituteExprFields k new rand = some (k', rand')) :
    Exchanged (ExprRef.node addr k cs).expr (ExprRef.node addr k' cs).expr ∧
      Retypes s.mod.signature s.mod.signature (ExprRef.node addr k cs).expr
        (ExprRef.node addr k' cs).expr := by
  have typing := exchange.typed
  obtain ⟨_, _, takes, leaves⟩ := exchange.alike
  rw [ExprRef.expr_node] at typing
  obtain ⟨operands, type⟩ := substitute_typed typing substituted takes.symm leaves.symm
  have counted := wasmGetInstrType_operands typing
  have counted' := (wasmSubstituteExprFields_operands substituted).trans counted
  have tops : Expr.top? (.node k' (cs.map ExprRef.expr)) = Expr.top? (.node k (cs.map ExprRef.expr)) := by
    rw [Expr.top?_node, Expr.top?_node, type]
  rw [ExprRef.expr_node, ExprRef.expr_node]
  refine ⟨.takeOver tops, .takeOver (.refl _) tops ?_ ?_ ?_⟩
  · rw [labels_of_operands counted, labels_of_operands counted']
  · intro S
    rw [enter_of_operands counted, enter_of_operands counted']
  · intro S same here
    have after := operands S _ here
    rw [← same]
    exact after

/-- A new node in the place of the old one. -/
theorem put_related {b : Nat} {ops : List Expr} {mod : Module}
    (rebuildable : Rebuildable s.mod k inst new)
    (built : wasmGenerateOneSimpleExpr s.mod new (cs.map ExprRef.expr) rand =
      some (.node k' ops, mod, rand')) :
    s.mod.signature.Le mod.signature ∧ (k'.InRange ∧ k'.isAtomic = false) ∧
      Exchanged (ExprRef.node addr k cs).expr (ExprRef.node b k' cs).expr ∧
      Retypes s.mod.signature mod.signature (ExprRef.node addr k cs).expr
        (ExprRef.node b k' cs).expr := by
  obtain ⟨S, same, valid⟩ := typed.node found
  have typing := exchange.typed
  obtain ⟨shared, shared', takes, leaves⟩ := exchange.alike
  obtain ⟨counted, count⟩ := exchange.operands
  rw [ExprRef.expr_node] at typing valid
  rw [ExprRef.expr_node, ExprRef.expr_node]
  have length : (cs.map ExprRef.expr).length = new.operandCount := by
    rw [List.length_map, count, ((typed.complete.findAll? found).1 _ counted).1]
  have here := (valid_node_iff.mp valid).1
  obtain ⟨le, _, ⟨⟩, operands⟩ :=
    rebuilt_typed rebuildable same here typing shared shared' takes length built
  obtain ⟨_, _, ⟨⟩, counted', _⟩ := wasmGenerateOneSimpleExpr_operands built
  have tops : Expr.top? (.node k' (cs.map ExprRef.expr)) = Expr.top? (.node k (cs.map ExprRef.expr)) := by
    rw [top?_eq_produced here typing shared, Expr.top?_node, operands.type, leaves]
  refine ⟨le, ⟨operands.range, operands.plain⟩, .takeOver tops, .takeOver le tops ?_ ?_ ?_⟩
  · rw [labels_of_operands counted, labels_of_operands counted']
  · intro S
    rw [enter_of_operands counted, enter_of_operands counted']
  · exact fun S _ _ => operands.typed _ rfl

end

/-- The operators of one module exchanged for those of another. -/
structure Preserved (s t : MutState) : Prop where
  typed : WellTyped t
  exchanged : List.Forall₂ Exchanged (s.bodies.map ExprRef.expr) (t.bodies.map ExprRef.expr)

namespace Preserved

theorem refl {s : MutState} (typed : WellTyped s) : Preserved s s := ⟨typed, Exchanged.congruent.all _⟩

theorem trans {s t u : MutState} (first : Preserved s t) (second : Preserved t u) : Preserved s u :=
  ⟨second.typed, Exchanged.transAll first.exchanged second.exchanged⟩

/-- Lists and draws do not matter. -/
theorem quiet {s t : MutState} (here : Preserved s t) (list : List Nat) (cnt : Nat) (rand : Rand) :
    Preserved s { t with childNodeList := list, curCnt := cnt, rand } :=
  ⟨⟨here.typed.paired, here.typed.complete, here.typed.ranges, here.typed.valid⟩, here.exchanged⟩

end Preserved

theorem OperatorStep.preserved {spot : Spot} {addr el : Nat} {s t : MutState}
    (step : OperatorStep spot addr s el t) (tree : Tree s.bodies s.nextAddr) (typed : WellTyped s)
    (suits : Suits addr s) (holds : ∃ old, spot.Holds s.bodies old ∧ old.addr? = some addr) :
    Preserved s t := by
  have complete := (step.replaced tree typed.complete holds).complete
  have signature := module_signature typed.paired
  cases step with
  | stay rand => exact (Preserved.refl typed).quiet s.childNodeList s.curCnt rand
  | @inPlace kind kind' cs inst new rand rand' found exchange substituted =>
    obtain ⟨exchanged, retypes⟩ := inPlace_related exchange substituted
    have typing := exchange.typed
    rw [ExprRef.expr_node] at typing
    obtain ⟨_, shared, takes, leaves⟩ := exchange.alike
    have plain := (suits _ _ _ _ _ found exchange).inPlace (by rw [substituted]; rfl)
    have range := (typed.ranges.findAll? found).1
    have range' := substitute_inRange typing substituted takes.symm leaves.symm shared range plain
    have paired := (ExprRef.length_writeAll addr (fun _ cs => (kind', cs)) s.bodies).trans typed.paired
    refine ⟨⟨paired, complete, ?_, ?_⟩, ?_⟩
    · exact typed.ranges.writeAll (fun _ _ here => here) fun _ _ _ inside => ⟨range', inside⟩
    · refine module_valid typed.valid rfl ?_
      rw [signature, module_signature paired]
      exact (Retypes.congruent (.refl _)).writeAll retypes (tree.unique addr) found
    · exact Exchanged.congruent.writeAll exchanged (tree.unique addr) found
  | @put kind kind' cs ops inst new rand rand' mod found exchange apart built =>
    obtain ⟨old, held, at_⟩ := holds
    have same := held.found (tree.unique _) at_
    rw [found] at same
    cases same
    obtain ⟨listed, refs⟩ := exchange.refs (typed.complete.findAll? found).1 built
    rw [refs] at complete ⊢
    rw [listed, ExprRef.exprs_eq_map] at built
    have rebuildable := (suits _ _ _ _ _ found exchange).rebuilt apart
    obtain ⟨le, ⟨range', _⟩, exchanged, retypes⟩ :=
      put_related (b := s.nextAddr) typed found exchange rebuildable built
    have unchanged := (wasmGenerateOneSimpleExpr_adds built).functions
    have related := @related_put _ Exchanged.congruent _ _ _ (.node s.nextAddr kind' cs) tree.unique
      held exchanged
    have paired : (spot.put (.node s.nextAddr kind' cs) s.bodies).length = mod.functions.length := by
      rw [unchanged, ← typed.paired]
      simpa using related.length_eq.symm
    refine ⟨⟨paired, complete, ?_, ?_⟩, ?_⟩
    · refine Spot.everywhere_put typed.ranges ⟨range', ?_⟩ (fun _ _ _ _ here => here)
        fun _ _ _ here => here
      exact (typed.ranges.findAll? found).2
    · refine module_valid typed.valid unchanged ?_
      rw [signature, module_signature paired]
      exact related_put (Retypes.congruent le) tree.unique held retypes
    · exact related

/-! ## Runs -/

theorem operators_keep_typing (s : MutState) : OperatorsKeep Suits (Preserved s) where
  complete := fun _ here => here.typed.complete
  step := fun step tree here suits holds => here.trans (step.preserved tree here.typed suits holds)
  quiet := fun _ list cnt rand here => here.quiet list cnt rand

/-- In every run all of whose exchanges have what they need, the module stays well typed, and each
node stands for one of the same type over the same operands. -/
theorem operators_keep_types {s : MutState} (tree : Tree s.bodies s.nextAddr) (typed : WellTyped s)
    (meets : RunMeets (OperatorsMeet Suits) operatorMutationMax operatorVisit s) :
    Ends wasmOperatorsMutate s (fun _ t => Preserved s t) fun _ _ => True := by
  have ends := (operators_keep_typing s).run tree (.refl typed) meets
  exact ends.mono (fun _ _ here => here.also) fun _ _ _ => trivial

/-! ## Plain modules -/

/-- No access is atomic, and there is at most one memory, a 32-bit one with the name that a memory
is set up under. -/
structure Plain (s : MutState) : Prop where
  sole : s.mod.memories.length ≤ 1
  zero : ∀ mem ∈ s.mod.memories, mem.name = "0" ∧ mem.is64 = false
  accesses : EverywhereAll (fun k _ => k.isAtomic = false) s.bodies

namespace Plain

variable {s : MutState} (plain : Plain s)
include plain

theorem rebuildable (k : Kind) (inst new : InstrTy) : Rebuildable s.mod k inst new where
  sole := fun _ => plain.sole
  narrow := by
    intro _ mem member wide
    rw [(plain.zero mem member).2] at wide
    cases wide
  named := fun _ _ mem member => (plain.zero mem member).1

theorem suits (addr : Nat) : Suits addr s := by
  intro k cs inst new rand found _
  exact ⟨fun _ => (plain.accesses.findAll? found).1, fun _ => plain.rebuildable k inst new⟩

end Plain

theorem OperatorStep.plain {spot : Spot} {addr el : Nat} {s t : MutState}
    (step : OperatorStep spot addr s el t) (typed : WellTyped s) (plain : Plain s) : Plain t := by
  cases step with
  | stay rand => exact ⟨plain.sole, plain.zero, plain.accesses⟩
  | inPlace found exchange substituted =>
    have here := (plain.accesses.findAll? found).1
    refine ⟨plain.sole, plain.zero, ?_⟩
    exact plain.accesses.writeAll (fun _ _ here => here)
      fun _ _ _ inside => ⟨substitute_plain substituted here, inside⟩
  | @put kind kind' cs ops inst new rand rand' mod found exchange apart built =>
    obtain ⟨listed, refs⟩ := exchange.refs (typed.complete.findAll? found).1 built
    rw [refs]
    rw [listed, ExprRef.exprs_eq_map] at built
    have rebuildable := plain.rebuildable kind inst new
    obtain ⟨_, ⟨_, single⟩, _⟩ := put_related (b := addr) typed found exchange rebuildable built
    have below := (plain.accesses.findAll? found).2
    have accesses : EverywhereAll (fun k _ => k.isAtomic = false)
        (spot.put (.node s.nextAddr kind' cs) s.bodies) :=
      Spot.everywhere_put plain.accesses ⟨single, below⟩ (fun _ _ _ _ here => here) fun _ _ _ here => here
    rcases simpleExpr_memory built exchange.alike.2.1 rebuildable with ⟨_, same⟩ | ⟨mem, given⟩
    · refine ⟨?_, ?_, accesses⟩
      · rw [same]
        exact plain.sole
      · rw [same]
        exact plain.zero
    · have zero : mem.name = "0" ∧ mem.is64 = false := by
        cases memories : s.mod.memories with
        | nil => exact given.fresh memories
        | cons old rest =>
          have member : old ∈ s.mod.memories := by simp [memories]
          obtain ⟨name, width⟩ := given.same old member
          rw [← name, ← width]
          exact plain.zero old member
      refine ⟨?_, ?_, accesses⟩
      · rw [given.sole]
        exact Nat.le_refl 1
      · rw [given.sole]
        intro other member
        rw [List.mem_singleton.mp member]
        exact zero

theorem operators_keep_plain (s : MutState) :
    OperatorsKeep Suits fun t => Preserved s t ∧ Plain t where
  complete := fun _ here => here.1.typed.complete
  step := fun step tree here suits holds =>
    ⟨here.1.trans (step.preserved tree here.1.typed suits holds), step.plain here.1.typed here.2⟩
  quiet := fun _ list cnt rand here =>
    ⟨here.1.quiet list cnt rand, here.2.sole, here.2.zero, here.2.accesses⟩

/-- Every run of a plain module is one of these. -/
theorem plain_meets {s : MutState} (tree : Tree s.bodies s.nextAddr) (typed : WellTyped s)
    (plain : Plain s) : RunMeets (OperatorsMeet Suits) operatorMutationMax operatorVisit s :=
  (operators_keep_plain s).meets (fun addr _ here => here.2.suits addr) tree ⟨.refl typed, plain⟩

/-! ## A load -/

/-- A function that drops what it loads, and a stream that exchanges the load for a narrower one. -/
def dropLoad (atomic : Bool) : MutState where
  mod :=
    { functions := [⟨"0", Ty.none, Ty.none, [], .null⟩]
      globals := [], exports := [], memories := [⟨"0", 1, none, false, false⟩], segments := []
      tables := [], features := [] }
  bodies := [.node 0 .drop
      [.node 1 (.load 4 false 0 4 .i32 atomic "0") [.node 2 (.const (.i32 0)) []]]]
  nextAddr := 3
  names := wasmInitNameGrp
  rand := ⟨fun n => if n = 2 then 9 else 0, 0⟩
  patience := 10
  childNodeList := []
  curCnt := 0
  addedVars := []
  replaced := []

private theorem dropLoad_tree (atomic : Bool) :
    Tree (dropLoad atomic).bodies (dropLoad atomic).nextAddr := by
  have occurs : ∀ x, ExprRef.occAll x (dropLoad atomic).bodies = if x < 3 then 1 else 0 := by
    intro x
    simp only [dropLoad, ExprRef.occAll_cons, ExprRef.occAll_nil, ExprRef.occ_node]
    split_ifs <;> omega
  constructor
  · intro x
    rw [occurs]
    split <;> omega
  · intro x above
    rw [occurs, if_neg (by exact Nat.not_lt.mpr above)]

private theorem dropLoad_complete (atomic : Bool) : EverywhereAll Complete (dropLoad atomic).bodies := by
  have one : ∀ (k : Kind) (c : ExprRef), k.operandCount? = some 1 → isPresent c = true →
      Complete k [c] := by
    intro k c operands present n count
    rw [operands] at count
    cases count
    refine ⟨rfl, fun d member => ?_⟩
    rw [List.mem_singleton.mp member]
    exact present
  have const : Complete (.const (.i32 0)) [] := by
    intro n count
    cases count
    exact ⟨rfl, nofun⟩
  exact ⟨⟨one _ _ rfl rfl, ⟨one _ _ rfl rfl, ⟨const, trivial⟩, trivial⟩, trivial⟩, trivial⟩

private theorem dropLoad_typed (atomic : Bool) : WellTyped (dropLoad atomic) where
  paired := rfl
  complete := dropLoad_complete atomic
  ranges := by
    have range : Kind.InRange (.load 4 false 0 4 .i32 atomic "0") :=
      ⟨by decide, ⟨⟨2, rfl⟩, Nat.le_refl 4, fun _ => rfl⟩, fun _ => rfl⟩
    exact ⟨⟨trivial, ⟨range, ⟨trivial, trivial⟩, trivial⟩, trivial⟩, trivial⟩
  valid := by
    intro f member
    cases List.mem_singleton.mp member
    have const : ∀ S : Scope, Valid S (.node (.const (.i32 0)) []) :=
      fun S => .node ⟨_, rfl, .nil⟩ (List.forall_mem_nil _)
    have load : ∀ S : Scope, S.sig = (dropLoad atomic).module.signature →
        Valid S (.node (.load 4 false 0 4 .i32 atomic "0") [.node (.const (.i32 0)) []]) := by
      intro S same
      refine .node ⟨[Ty.i32], ?_, .cons (.inr rfl) .nil⟩ ?_
      · simp only [Kind.operands?, same]
        rfl
      · intro c inside
        rw [List.mem_singleton.mp inside]
        exact const _
    refine ⟨.node ⟨_, rfl, by intro h; cases h⟩ ?_, .inr (.inr rfl), List.nodup_nil⟩
    intro c inside
    rw [List.mem_singleton.mp inside]
    exact load _ rfl

section
-- without this the statement is checked by running the mutator
attribute [local irreducible] wasmOperatorsMutate

theorem operators_keep_types_load :
    Tree (dropLoad false).bodies (dropLoad false).nextAddr ∧ WellTyped (dropLoad false) ∧
    RunMeets (OperatorsMeet Suits) operatorMutationMax operatorVisit (dropLoad false) ∧
    Ends wasmOperatorsMutate (dropLoad false) (fun _ t => Preserved (dropLoad false) t)
      fun _ _ => True := by
  have plain : Plain (dropLoad false) := by
    refine ⟨Nat.le_refl 1, ?_, ⟨⟨rfl, ⟨rfl, ⟨rfl, trivial⟩, trivial⟩, trivial⟩, trivial⟩⟩
    intro mem member
    cases List.mem_singleton.mp member
    exact ⟨rfl, rfl⟩
  have meets := plain_meets (dropLoad_tree false) (dropLoad_typed false) plain
  exact ⟨dropLoad_tree false, dropLoad_typed false, meets,
    operators_keep_types (dropLoad_tree false) (dropLoad_typed false) meets⟩

end

/-- An atomic load gets the width of another one and the alignment of a single byte. -/
theorem operators_keep_types_atomicLoad :
    Tree (dropLoad true).bodies (dropLoad true).nextAddr ∧ WellTyped (dropLoad true) ∧
    ∃ n t, wasmOperatorsMutate (dropLoad true) = .ok n t ∧ ¬ Preserved (dropLoad true) t := by
  refine ⟨dropLoad_tree true, dropLoad_typed true, ?_⟩
  have kept : (match wasmOperatorsMutate (dropLoad true) with
      | .ok _ t => (findAll? 1 t.bodies).any fun
        | .node _ k _ => k = .load 2 false 0 1 .i32 true "0"
        | .null => false
      | .error _ _ => false) = true := by
    decide +kernel
  cases run : wasmOperatorsMutate (dropLoad true) with
  | error e t =>
    rw [run] at kept
    cases kept
  | ok n t =>
    refine ⟨n, t, rfl, fun preserved => ?_⟩
    rw [run] at kept
    dsimp only at kept
    cases found : findAll? 1 t.bodies with
    | none =>
      rw [found] at kept
      cases kept
    | some node =>
      rw [found] at kept
      obtain ⟨k, cs, rfl⟩ := (ExprRef.findAll?_found_in found).node
      cases of_decide_eq_true kept
      obtain ⟨_, aligned, _⟩ := (preserved.typed.ranges.findAll? found).1
      exact absurd (aligned.whole rfl) (by decide)

end Swam
