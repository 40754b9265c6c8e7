import Swam.Nesting
import Swam.Operands
import Swam.TreeSteps

/-!
# What the mutators do to trees

Every change that the mutators of calls, of structured instructions and of operators make of a
node is a `Move`, as long as a `call_indirect` that is rewritten is still in its slot.
-/
namespace Swam

open Binaryen Mut Lib
open ExprRef (occ occAll occ_node occ_null occAll_nil occAll_cons occAll_append occ_le_occAll
  occ_place le_place occAll_set find? findAll? findAll?_found_in findAll?_write_same writeAll)

section
variable {α : Type} {s : MutState} {stopped : Stop → MutState → Prop}

@[simp] theorem ends_alloc (kind : Kind) (children : List ExprRef)
    {done : ExprRef → MutState → Prop} :
    Ends (alloc kind children) s done stopped ↔
      done (.node s.nextAddr kind children) { s with nextAddr := s.nextAddr + 1 } :=
  Iff.rfl

@[simp] theorem ends_allocExpr (e : Expr) {done : ExprRef → MutState → Prop} :
    Ends (allocExpr e) s done stopped ↔
      done (ExprRef.place e s.nextAddr).1 { s with nextAddr := (ExprRef.place e s.nextAddr).2 } :=
  Iff.rfl

@[simp] theorem ends_write (addr : Nat) (change : ExprRef.Write) {done : Unit → MutState → Prop} :
    Ends (write addr change) s done stopped ↔
      done () { s with bodies := writeAll addr change s.bodies } :=
  Iff.rfl

@[simp] theorem ends_oneIn (chances : Nat) {done : Bool → MutState → Prop} :
    Ends (draw (Gen.oneIn chances)) s done stopped ↔
      done (decide ((randBelow chances s.rand).1 = 0))
        { s with rand := (randBelow chances s.rand).2 } :=
  Iff.rfl

theorem ends_deref (addr : Nat) {done : ExprRef → MutState → Prop}
    (found : ∀ n, findAll? addr s.bodies = some n → done n s)
    (lost : stopped .fatal s) : Ends (deref addr) s done stopped := by
  rw [deref, ends_bind, ends_get]
  split
  next n here => exact found n here
  next => exact lost

end

/-- A node that was found was found at its address. -/
theorem addr_eq {addr a : Nat} {k : Kind} {cs bodies : List ExprRef}
    (found : findAll? addr bodies = some (.node a k cs)) : a = addr := by
  obtain ⟨_, _, equal⟩ := (findAll?_found_in found).node
  cases equal
  rfl

/-! ## New subtrees -/

/-- A subtree was built around what is left of an old node. It waits to be put in the place of
that node, and whatever was written into the node does not matter then. -/
structure Rebuilt (s : MutState) (old new : ExprRef) (given : List Nat) (t : MutState) : Prop where
  since : ∃ m, Extends s m ∧ m.nextAddr ≤ t.nextAddr ∧ t.replaced = m.replaced ∧
    Renews old new m.nextAddr t.nextAddr given ∧
    ∀ spot : Spot, spot.Holds s.bodies old → spot.put new t.bodies = spot.put new m.bodies

/-- The subtree is put in its place, and what it leaves out is noted. -/
theorem Rebuilt.move {s t u : MutState} {old new : ExprRef} {given : List Nat} {spot : Spot}
    {c : Nat} (rebuilt : Rebuilt s old new given t) (holds : spot.Holds s.bodies old)
    (bodies : u.bodies = spot.put new t.bodies) (nextAddr : u.nextAddr = t.nextAddr)
    (noted : u.replaced = t.replaced ++ given) : Move spot c s u := by
  obtain ⟨m, more, le, same, renews, written⟩ := rebuilt.since
  rw [← nextAddr] at renews le
  refine .put m old new given more holds renews le ?_ ?_
  · rw [bodies, written spot holds]
  · rw [noted, same]

/-- Afterwards it is found there. -/
theorem Rebuilt.found {s t : MutState} {old : ExprRef} {given : List Nat} {spot : Spot} {a : Nat}
    {k : Kind} {cs : List ExprRef} (rebuilt : Rebuilt s old (.node a k cs) given t)
    (holds : spot.Holds s.bodies old) (tree : Tree (spot.put (.node a k cs) t.bodies) t.nextAddr) :
    findAll? a (spot.put (.node a k cs) t.bodies) = some (.node a k cs) := by
  obtain ⟨m, more, _, _, _, written⟩ := rebuilt.since
  rw [written spot holds] at tree ⊢
  exact (more.holds holds).put.found (tree.unique a) rfl

/-! ## Calls -/

private theorem occAll_setLast (cs : List ExprRef) (new : ExprRef) (x : Nat) :
    occAll x (cs.set (cs.length - 1) new) + occ x (cs.getLastD .null) ≤ occAll x cs + occ x new ∧
      occAll x cs ≤ occAll x (cs.set (cs.length - 1) new) + occ x (cs.getLastD .null) := by
  cases last : cs.getLast? with
  | none =>
    rw [List.getLast?_eq_none_iff] at last
    simp [last]
  | some old =>
    have moved := occAll_set (List.getLast?_eq_getElem? ▸ last) new x
    rw [List.getLastD_eq_getLast?, last, Option.getD_some]
    omega

theorem redirectCall_move {spot : Spot} {addr : Nat} {target : String} {ty : Ty}
    {cs : List ExprRef} {s : MutState}
    (found : findAll? addr s.bodies = some (.node addr (.call target ty) cs)) :
    Ends (redirectCall addr target) s (fun _ t => Move spot addr s t) fun _ _ => True := by
  rw [redirectCall, ends_bind, ends_get]
  split
  · exact .stay (Extends.chains.refl s)
  · apply Ends.bind_keeps (Extends.otherFunc _ _ _)
    · intro name m more
      rw [ends_bind, ends_write]
      exact .write m _ _ (setCallTarget name) [] more found (.same _ _ _ _ _ _ _) (Nat.le_refl _)
        rfl (List.append_nil _).symm
    · exact fun _ _ _ => trivial

/-- The target moves to the assignment, and a `local.get` takes its place in the call. -/
theorem redirectIndirect_rebuilt {func addr : Nat} {table : String} {params results ty : Ty}
    {cs : List ExprRef} {s : MutState} (tree : Tree s.bodies s.nextAddr)
    (found : findAll? addr s.bodies = some (.node addr (.callIndirect table params results) cs)) :
    Ends (redirectIndirect func addr table params results ty) s
      (Rebuilt s (.node addr (.callIndirect table params results) cs) · [] ·)
      fun _ _ => True := by
  rw [redirectIndirect]
  apply Ends.bind_keeps (Extends.anyFunc _ _)
  · intro name m' more'
    rw [ends_bind]
    apply (Extends.generated (SameMemory.addVar func Ty.i32) m').mono
    · intro newLocal m here
      have more := more'.trans here
      have inM := more.found found
      have treeM := more.tree tree
      rw [ends_bind]
      apply ends_deref
      · intro call atCall
        rw [inM] at atCall
        cases atCall
        simp only [ends_bind, ends_alloc, ends_write]
        apply ends_deref
        · intro call atCall
          rw [findAll?_write_same inM] at atCall
          cases atCall
          refine ⟨m, more, ?_, rfl, ⟨?_, ?_⟩, ?_⟩
          · exact Nat.le_add_right _ 6
          · intro x
            have moved := (occAll_setLast cs (.node (m.nextAddr + 1 + 1) (.localGet newLocal Ty.i32) []) x).1
            simp only [setIndirectTarget, ExprRef.children, occ_node, occAll_cons, occAll_nil]
              at moved ⊢
            split_ifs at moved ⊢ <;> omega
          · intro x inside
            have moved := (occAll_setLast cs (.node (m.nextAddr + 1 + 1) (.localGet newLocal Ty.i32) []) x).2
            simp only [setIndirectTarget, ExprRef.children, occ_node, occAll_cons, occAll_nil]
              at moved inside ⊢
            left
            omega
          · intro spot holds
            exact Spot.put_write treeM (more.holds holds) rfl _
        · trivial
      · trivial
    · exact fun _ _ _ => trivial
  · exact fun _ _ _ => trivial

/-- A `call_indirect` that is going to be rewritten. -/
def RewritesIndirect (addr : Nat) (s : MutState) : Prop :=
  (∃ a table params results cs,
    findAll? addr s.bodies = some (.node a (.callIndirect table params results) cs)) ∧
    (randBelow 6 s.rand).1 = 0

theorem redirect_move {func addr : Nat} {place : ExprRef → Mut Unit} {spot : Spot} {s : MutState}
    (puts : ∀ new, place new = modify fun s => { s with bodies := spot.put new s.bodies })
    (tree : Tree s.bodies s.nextAddr)
    (holds : RewritesIndirect addr s → ∃ old, spot.Holds s.bodies old ∧ old.addr? = some addr) :
    Ends (redirect func addr place) s (fun _ t => Move spot addr s t) fun _ _ => True := by
  have stays : ∀ rand, Move spot addr s { s with rand := rand } :=
    fun rand => .stay (SameMemory.extends ⟨rfl, rfl, rfl⟩)
  rw [redirect, ends_bind]
  apply ends_deref _ _ trivial
  intro node found
  split
  next a target ty cs =>
    cases addr_eq found
    rw [ends_bind, ends_oneIn, ends_ite]
    constructor
    · intro _
      have moved := @redirectCall_move spot addr target ty cs
        { s with rand := (randBelow 6 s.rand).2 } found
      exact moved.mono (fun _ _ move => move.after ⟨rfl, rfl, rfl⟩) fun _ _ _ => trivial
    · exact fun _ => stays _
  next a table params results cs =>
    cases addr_eq found
    rw [ends_bind, ends_oneIn, ends_ite]
    constructor
    · intro drawn
      obtain ⟨old, held, at_⟩ :=
        holds ⟨⟨_, _, _, _, _, found⟩, by simpa using drawn⟩
      have same := held.found (tree.unique _) at_
      rw [found] at same
      cases same
      have rebuilt := @redirectIndirect_rebuilt func _ table params results
        (ExprRef.node addr (.callIndirect table params results) cs).expr.ty cs
        { s with rand := (randBelow 6 s.rand).2 } tree found
      rw [ends_bind]
      refine rebuilt.mono ?_ fun _ _ _ => trivial
      intro block t built
      rw [ends_bind, puts, ends_modify]
      have noted := (List.append_nil t.replaced).symm
      have move := @Rebuilt.move _ _ { t with bodies := spot.put block t.bodies, curCnt := t.curCnt + 1 }
        _ _ _ spot addr built held rfl rfl noted
      exact move.after ⟨rfl, rfl, rfl⟩
    · exact fun _ => stays _
  next => exact .stay (Extends.chains.refl s)

/-! ## Wrappers -/

theorem wrapNode_rebuilt {addr : Nat} {ty : Ty} {el : ExprRef} {s : MutState}
    (found : findAll? addr s.bodies = some el) :
    Ends (InPlace.wrapNode addr ty) s (fun new t => Rebuilt s el new [] t ∧ el ∈ new.children)
      fun _ _ => True := by
  rw [InPlace.wrapNode]
  apply Ends.bind_keeps (SameMemory.draw _) _ fun _ _ _ => trivial
  intro wrapper m same
  have more := same.extends
  rw [ends_ite]
  constructor
  · intro _
    apply Ends.bind_keeps (SameMemory.draw _) _ fun _ _ _ => trivial
    intro label u named
    rw [ends_bind]
    apply ends_deref _ _ trivial
    intro here atHere
    rw [named.bodies, more.found found] at atHere
    cases atHere
    refine ⟨⟨u, more.trans named.extends, Nat.le_add_right _ 1, rfl, ⟨?_, ?_⟩, fun _ _ => rfl⟩,
      List.mem_singleton_self _⟩
    · intro x
      simp only [occ_node, occAll_cons, occAll_nil]
      split_ifs <;> omega
    · intro x inside
      rw [occ_node, occAll_cons]
      left
      omega
  · intro _
    rw [ends_bind, ends_alloc]
    apply Ends.bind_keeps (SameMemory.draw _) _ fun _ _ _ => trivial
    intro arm u drawn
    have le := le_place (arm.getD .null) u.nextAddr
    have next : u.nextAddr = m.nextAddr + 1 := drawn.nextAddr
    rw [ends_bind, ends_allocExpr, ends_bind]
    apply ends_deref _ _ trivial
    intro here atHere
    change findAll? addr u.bodies = some here at atHere
    rw [drawn.bodies, more.found found] at atHere
    cases atHere
    refine ⟨⟨m, more, ?_, drawn.replaced, ⟨?_, ?_⟩, ?_⟩, by simp [ExprRef.children]⟩
    · change m.nextAddr ≤ (ExprRef.place (arm.getD .null) u.nextAddr).2 + 1
      omega
    · intro x
      change _ ≤ _ + if m.nextAddr ≤ x ∧ x < (ExprRef.place (arm.getD .null) u.nextAddr).2 + 1 then 1 else 0
      simp only [occ_node, occAll_cons, occAll_nil, occ_place]
      split_ifs <;> omega
    · intro x inside
      simp only [occ_node, occAll_cons, occAll_nil]
      left
      omega
    · intro spot _
      change spot.put _ u.bodies = _
      rw [drawn.bodies]

theorem nest_move {addr : Nat} {place : ExprRef → Mut Unit} {spot : Spot} {s : MutState}
    (puts : ∀ new, place new = modify fun s => { s with bodies := spot.put new s.bodies })
    (tree : Tree s.bodies s.nextAddr)
    (holds : ∃ old, spot.Holds s.bodies old ∧ old.addr? = some addr) :
    Ends (InPlace.nest addr place) s
      (fun _ t => Move spot addr s t ∧ ∀ j d, PlacedAt s.bodies addr j d → PlacedAt t.bodies addr j d)
      fun _ _ => True := by
  obtain ⟨old, held, at_⟩ := holds
  have stays : ∀ rand, Move spot addr s { s with rand := rand } ∧
      ∀ j d, PlacedAt s.bodies addr j d → PlacedAt s.bodies addr j d :=
    fun rand => ⟨.stay (SameMemory.extends ⟨rfl, rfl, rfl⟩), fun _ _ here => here⟩
  rw [InPlace.nest, ends_bind]
  apply ends_deref _ _ trivial
  intro el found
  have same := held.found (tree.unique _) at_
  rw [found] at same
  cases same
  rw [ends_ite]
  constructor
  · intro _
    rw [ends_bind, ends_oneIn, ends_ite]
    constructor
    · intro _
      rw [ends_bind]
      have rebuilt := @wrapNode_rebuilt addr old.expr.ty old { s with rand := (randBelow 8 s.rand).2 } found
      refine rebuilt.mono ?_ fun _ _ _ => trivial
      rintro new t ⟨built, inside⟩
      rw [ends_bind, puts, ends_modify]
      have noted := (List.append_nil t.replaced).symm
      have move := @Rebuilt.move _ _ { t with bodies := spot.put new t.bodies, curCnt := t.curCnt + 1 }
        _ _ _ spot addr built held rfl rfl noted
      have whole : Move spot addr s _ := move.after ⟨rfl, rfl, rfl⟩
      refine ⟨whole, ?_⟩
      rintro j d ⟨other, ⟨k, cs, here, enumerated, atJ⟩, atD⟩
      rw [found] at here
      cases here
      -- the node is below the wrapper, with the same children
      cases new with
      | null => cases inside
      | node a k' cs' =>
        have after := (whole.step tree).tree
        have there := built.found held after
        have below := ExprRef.findAll?_child (after.unique addr) there inside rfl
        exact ⟨other, ⟨k, cs, below, enumerated, atJ⟩, atD⟩
    · exact fun _ => stays _
  · exact fun _ => stays s.rand

/-! ## Instructions -/

/-- The instruction of a node, the one that is drawn in its place, and the random stream after the
draw. -/
structure Exchange (s : MutState) (node : Expr) (inst new : InstrTy) (rand : Rand) : Prop where
  typed : wasmGetInstrType node = some inst
  drawn : ∃ grp, wasmFindInstrGrps inst = some grp ∧ 1 < grp.groups.length ∧
    draw (drawInstr grp inst (2 * grp.groups.length - 1)) { s with rand := (randBelow 10 s.rand).2 } =
      .ok new { s with rand }
  chosen : (randBelow 10 s.rand).1 = 0
  differs : new ≠ inst

/-- What happens to the node at an address: nothing but a draw, a change of its operator, or a new
node in its place. -/
inductive OperatorStep (spot : Spot) (addr : Nat) (s : MutState) : Nat → MutState → Prop where
  | stay (rand : Rand) : OperatorStep spot addr s addr { s with rand }
  | inPlace {kind kind' : Kind} {cs : List ExprRef} {inst new : InstrTy} {rand rand' : Rand}
      (found : findAll? addr s.bodies = some (.node addr kind cs))
      (exchange : Exchange s (ExprRef.node addr kind cs).expr inst new rand)
      (substituted : wasmSubstituteExprFields kind new rand = some (kind', rand')) :
      OperatorStep spot addr s addr
        { s with
          bodies := writeAll addr (fun _ cs => (kind', cs)) s.bodies
          rand := rand'
          curCnt := s.curCnt + 1 }
  | put {kind kind' : Kind} {cs : List ExprRef} {ops : List Expr} {inst new : InstrTy}
      {rand rand' : Rand} {mod : Module}
      (found : findAll? addr s.bodies = some (.node addr kind cs))
      (exchange : Exchange s (ExprRef.node addr kind cs).expr inst new rand)
      (differs : wasmSubstituteExprFields kind new rand = none)
      (built : wasmGenerateOneSimpleExpr s.mod new (ExprRef.exprs (childRefs (.node addr kind cs))) rand =
        some (.node kind' ops, mod, rand')) :
      OperatorStep spot addr s s.nextAddr
        { s with
          mod
          bodies := spot.put
            (.node s.nextAddr kind' (pickRefs ops.length (childRefs (.node addr kind cs)))) s.bodies
          nextAddr := s.nextAddr + 1
          rand := rand'
          curCnt := s.curCnt + 1
          replaced := s.replaced ++ [addr] }

theorem ends_drawInstr {grp : InstrGrp} {inst : InstrTy} (member : inst ∈ grp.groups) (n : Nat)
    (s : MutState) :
    Ends (draw (drawInstr grp inst n)) s (fun new t => new ∈ grp.groups ∧ t = { s with rand := t.rand })
      fun _ _ => False := by
  rw [ends_draw]
  apply (drawInstr_ends member n _).mono _ fun _ _ never => never
  rintro new t ⟨among, same⟩
  refine ⟨among, ?_⟩
  rw [same]

/-- The instruction that is drawn is of the group of the old one. -/
theorem Exchange.grouped {s : MutState} {node : Expr} {inst new : InstrTy} {rand : Rand}
    (exchange : Exchange s node inst new rand) :
    ∃ grp ∈ wasmInitInstrGrps, 1 < grp.groups.length ∧ inst ∈ grp.groups ∧ new ∈ grp.groups := by
  obtain ⟨grp, known, several, run⟩ := exchange.drawn
  have among : inst ∈ grp.groups := by simpa using List.find?_some known
  refine ⟨grp, List.mem_of_find?_eq_some known, several, among, ?_⟩
  exact ((ends_drawInstr among _ _).ok run).1

/-- A node and the instruction that is drawn for it have as many operands. -/
theorem Exchange.operands {s : MutState} {a : Nat} {k : Kind} {cs : List ExprRef} {inst new : InstrTy}
    {rand : Rand} (exchange : Exchange s (ExprRef.node a k cs).expr inst new rand) :
    k.operandCount? = some inst.operandCount ∧ new.operandCount = inst.operandCount := by
  obtain ⟨grp, listed, _, among, drawn⟩ := exchange.grouped
  refine ⟨wasmGetInstrType_operands exchange.typed, ?_⟩
  rw [groups_operands grp listed new drawn, groups_operands grp listed inst among]

/-- The new node gets the operands of the old one. -/
theorem Exchange.refs {s : MutState} {a : Nat} {k k' : Kind} {cs : List ExprRef} {ops : List Expr}
    {inst new : InstrTy} {rand rand' : Rand} {mod : Module}
    (exchange : Exchange s (ExprRef.node a k cs).expr inst new rand) (complete : Complete k cs)
    (built : wasmGenerateOneSimpleExpr s.mod new (ExprRef.exprs (childRefs (.node a k cs))) rand =
      some (.node k' ops, mod, rand')) :
    childRefs (.node a k cs) = cs ∧ pickRefs ops.length (childRefs (.node a k cs)) = cs := by
  obtain ⟨operands, count⟩ := exchange.operands
  obtain ⟨_, _, ⟨⟩, _, length⟩ := wasmGenerateOneSimpleExpr_operands built
  rw [length, count]
  exact ⟨childRefs_eq operands (complete _ operands).1, complete.refs operands inst.operandCount_le⟩

theorem operatorNode_step {addr : Nat} {place : ExprRef → Mut Unit} {spot : Spot} {s : MutState}
    (puts : ∀ new, place new = modify fun s => { s with bodies := spot.put new s.bodies }) :
    Ends (operatorNode addr place) s (OperatorStep spot addr s) fun _ _ => True := by
  rw [operatorNode, ends_bind]
  apply ends_deref _ _ trivial
  intro node found
  split
  next => exact .stay s.rand
  next a kind cs =>
    cases addr_eq found
    dsimp only
    split
    next => exact .stay s.rand
    next inst grp grouped =>
      obtain ⟨inst', typed, grouped⟩ := Option.bind_eq_some_iff.mp grouped
      obtain ⟨grp', known, equal⟩ := Option.map_eq_some_iff.mp grouped
      cases equal
      have among : inst ∈ grp.groups := by simpa using List.find?_some known
      rw [ends_ite]
      refine ⟨fun several => ?_, fun _ => .stay s.rand⟩
      rw [ends_bind, ends_oneIn, ends_ite]
      refine ⟨fun chosen => ?_, fun _ => .stay _⟩
      rw [ends_bind]
      apply ((ends_drawInstr among _ _).and (ends_self _ _)).mono _ fun _ _ _ => trivial
      rintro new t ⟨⟨_, equal⟩, run⟩
      rw [equal]
      rw [equal] at run
      rw [ends_ite]
      refine ⟨fun _ => .stay _, fun differs => ?_⟩
      have exchange : Exchange s (ExprRef.node addr kind cs).expr inst new t.rand :=
        ⟨typed, ⟨grp, known, several, run⟩, by simpa using chosen, differs⟩
      rw [ends_bind, ends_get]
      split
      next kind' rand substituted =>
        rw [ends_bind, ends_set, ends_bind, ends_write, ends_bind]
        exact .inPlace found exchange substituted
      next apart =>
        rw [ends_bind, simpleNode, ends_bind, ends_draw, Gen.simpleExpr, ends_request]
        split
        next e mod rand built =>
          obtain ⟨kind', ops, rfl, _, _⟩ := wasmGenerateOneSimpleExpr_operands built
          rw [ends_alloc, puts, ends_bind, ends_modify]
          exact .put found exchange apart built
        next => trivial

/-- An instruction was replaced or not. The children of the node at the old address are now
those of the node at the new one. -/
structure Replaced (spot : Spot) (addr : Nat) (s : MutState) (el : Nat) (t : MutState) : Prop where
  move : Move spot addr s t
  complete : ExprRef.EverywhereAll Complete t.bodies
  placed : ∀ j d, PlacedAt s.bodies addr j d → PlacedAt t.bodies el j d

namespace Replaced

variable {spot : Spot} {addr el : Nat} {s t : MutState}

theorem after {r : MutState} (replaced : Replaced spot addr s el t) (same : SameMemory r s) :
    Replaced spot addr r el t := by
  refine ⟨replaced.move.after same, replaced.complete, ?_⟩
  rw [← same.bodies]
  exact replaced.placed

theorem stay (complete : ExprRef.EverywhereAll Complete s.bodies) (same : SameMemory s t) :
    Replaced spot addr s addr t := by
  refine ⟨.stay same.extends, ?_, ?_⟩
  · rw [same.bodies]
    exact complete
  · rw [same.bodies]
    exact fun _ _ here => here

variable {kind kind' : Kind} {cs : List ExprRef}
  (complete : ExprRef.EverywhereAll Complete s.bodies)
  (found : findAll? addr s.bodies = some (.node addr kind cs))
  {n : Nat} (operands : kind.operandCount? = some n) (operands' : kind'.operandCount? = some n)
include complete found operands operands'

/-- Of two nodes with the same children, a child of one is a child of the other. -/
private theorem placed_again {bodies : List ExprRef} {el : Nat}
    (there : findAll? el bodies = some (.node el kind' cs)) (j d : Nat)
    (placed : PlacedAt s.bodies addr j d) : PlacedAt bodies el j d := by
  obtain ⟨old, ⟨k, ds, here, _, atJ⟩, at_⟩ := placed
  rw [found] at here
  cases here
  obtain ⟨length, _⟩ := (complete.findAll? found).1 n operands
  obtain ⟨bound, _⟩ := List.getElem?_eq_some_iff.mp atJ
  obtain ⟨m, rfl⟩ : ∃ m, n = m + 1 := ⟨n - 1, by omega⟩
  exact ⟨old, ⟨kind', cs, there, enumerated_of_operands operands', atJ⟩, at_⟩

variable (tree : Tree s.bodies s.nextAddr)
include tree

/-- The kind of the node changes in place. -/
theorem inPlace (rand : Rand) (curCnt : Nat) :
    Replaced spot addr s addr
      { s with bodies := writeAll addr (fun _ cs => (kind', cs)) s.bodies, rand, curCnt } := by
  refine ⟨?_, ?_, ?_⟩
  · exact .write s kind cs (fun _ cs => (kind', cs)) [] (Extends.chains.refl s) found
      (.same _ _ _ _ _ _ _) (Nat.le_refl _) rfl (List.append_nil _).symm
  · -- only the node at the address has this kind there
    have same := @ExprRef.writeAll_congr addr kind cs (fun _ ds => (kind', ds))
      (fun k ds => if k = kind then (kind', ds) else (k, ds)) s.bodies (tree.unique addr) found
      (if_pos rfl).symm
    change ExprRef.EverywhereAll Complete (writeAll addr _ s.bodies)
    rw [same]
    apply complete.writeAll (fun _ _ here => here.writeAll)
    intro k ds here inside
    split
    next equal =>
      refine ⟨?_, inside⟩
      intro m there
      rw [operands'] at there
      exact here m (by rw [equal, operands, there])
    next => exact ⟨here, inside⟩
  · exact placed_again complete found operands operands'
      (@findAll?_write_same addr (fun _ cs => (kind', cs)) kind cs s.bodies found)

/-- A new node with the same operands takes the place of the old one. -/
theorem put (holds : spot.Holds s.bodies (.node addr kind cs)) (curCnt : Nat) :
    Replaced spot addr s s.nextAddr
      { s with
        bodies := spot.put (.node s.nextAddr kind' cs) s.bodies
        nextAddr := s.nextAddr + 1
        replaced := s.replaced ++ [addr]
        curCnt } := by
  have whole := complete.findAll? found
  obtain ⟨length, present⟩ := whole.1 n operands
  have renews : Renews (.node addr kind cs) (.node s.nextAddr kind' cs) s.nextAddr (s.nextAddr + 1)
      [addr] := by
    constructor
    · intro x
      rw [occ_node, occ_node]
      split_ifs <;> omega
    · intro x inside
      rw [occ_node] at inside ⊢
      by_cases old : addr = x
      · exact .inr (by simp [old])
      · rw [if_neg old] at inside
        exact .inl (by omega)
  have fresh : ∀ x, s.nextAddr ≤ x → x < s.nextAddr + 1 → occAll x s.bodies = 0 :=
    fun x low _ => tree.free x low
  have after := Spot.tree_put (tree.mono (Nat.le_add_right _ 1)) holds renews fresh (Nat.le_refl _)
  refine ⟨?_, ?_, ?_⟩
  · exact .put s _ _ [addr] (Extends.chains.refl s) holds renews (Nat.le_add_right _ 1) rfl rfl
  · have new : ExprRef.Everywhere Complete (.node s.nextAddr kind' cs) := by
      refine ⟨?_, whole.2⟩
      intro m here
      rw [operands'] at here
      cases here
      exact ⟨length, present⟩
    exact Spot.everywhere_put complete new (fun _ _ _ _ here => here.writeAll)
      fun _ _ i here => here.set rfl i
  · have there : spot.Holds (spot.put (.node s.nextAddr kind' cs) s.bodies) (.node s.nextAddr kind' cs) :=
      holds.put
    exact placed_again complete found operands operands' (there.found (after.unique _) rfl)

end Replaced

theorem OperatorStep.replaced {spot : Spot} {addr el : Nat} {s t : MutState}
    (step : OperatorStep spot addr s el t) (tree : Tree s.bodies s.nextAddr)
    (complete : ExprRef.EverywhereAll Complete s.bodies)
    (holds : ∃ old, spot.Holds s.bodies old ∧ old.addr? = some addr) : Replaced spot addr s el t := by
  cases step with
  | stay rand => exact .stay complete ⟨rfl, rfl, rfl⟩
  | inPlace found exchange substituted =>
    have operands := exchange.operands.1
    have operands' := (wasmSubstituteExprFields_operands substituted).trans operands
    exact .inPlace complete found operands operands' tree _ _
  | @put kind kind' cs ops inst new rand rand' mod found exchange apart built =>
    obtain ⟨old, held, at_⟩ := holds
    have same := held.found (tree.unique _) at_
    rw [found] at same
    cases same
    obtain ⟨operands, count⟩ := exchange.operands
    obtain ⟨_, _, ⟨⟩, operands', _⟩ := wasmGenerateOneSimpleExpr_operands built
    rw [count] at operands'
    rw [(exchange.refs (complete.findAll? found).1 built).2]
    let m : MutState := { s with mod, rand := rand' }
    have put := Replaced.put (s := m) complete found operands operands' tree held (s.curCnt + 1)
    exact put.after ⟨rfl, rfl, rfl⟩

end Swam
