import Swam.MutatorRules
import Swam.Nesting
import Swam.Splicing

/-!
# What all mutators can do to a module

The rules for the mutators that add variables and functions to the module, or bring in what a
fragment of another module needs.
-/
namespace Swam

open Binaryen Mut Lib

/-! ## Drawing -/

namespace Generates

theorem interesting (width : Nat) (table : List Int) : Generates (interesting width table) :=
  fun _ _ rule => .bind rule.toChains (rule.pick table) fun _ => .pure rule.toChains _

theorem interestingLanes (width : Nat) (table : List Int) (n : Nat) :
    Generates (interestingLanes width table n) := by
  intro R E rule
  induction n with
  | zero => exact .pure rule.toChains _
  | succ n ih =>
    apply Keeps.bind rule.toChains (interesting width table R E rule)
    intro low
    exact .bind rule.toChains ih fun _ => .pure rule.toChains _

theorem interestingVec : Generates interestingVec := by
  intro R E rule
  have chains := rule.toChains
  have lane : ∀ width table, Keeps R E (Swam.interesting width table) :=
    fun width table => interesting width table R E rule
  have lanes : ∀ width table n, Keeps R E (Swam.interestingLanes width table n) :=
    fun width table n => interestingLanes width table n R E rule
  apply Keeps.bind chains (rule.below 4)
  intro shape
  apply Keeps.ite <;> intro _
  · apply Keeps.bind chains (lane 64 _)
    intro low
    exact .bind chains (lane 64 _) fun _ => .pure chains _
  apply Keeps.ite <;> intro _
  · apply Keeps.bind chains (lane 32 _)
    intro a
    apply Keeps.bind chains (lane 32 _)
    intro b
    apply Keeps.bind chains (lane 32 _)
    intro c
    exact .bind chains (lane 32 _) fun _ => .pure chains _
  apply Keeps.ite <;> intro _
  · exact lanes _ _ _
  · exact lanes _ _ _

theorem interestingLiteral (value : Literal) : Generates (interestingLiteral value) := by
  intro R E rule
  have chains := rule.toChains
  cases value with
  | i32 bits => exact .bind chains (interesting 32 _ R E rule) fun _ => .pure chains _
  | i64 bits => exact .bind chains (interesting 64 _ R E rule) fun _ => .pure chains _
  | f32 bits => exact .bind chains (interesting 32 _ R E rule) fun _ => .pure chains _
  | f64 bits => exact .bind chains (interesting 64 _ R E rule) fun _ => .pure chains _
  | v128 bits => exact .bind chains (interestingVec R E rule) fun _ => .pure chains _

theorem drawInstr (grp : InstrGrp) (current : InstrTy) (n : Nat) :
    Generates (drawInstr grp current n) := by
  intro R E rule
  induction n with
  | zero => exact .bind rule.toChains (rule.pick _) fun _ => .pure rule.toChains _
  | succ n ih =>
    apply Keeps.bind rule.toChains (rule.pick _)
    intro drawn
    exact .ite (fun _ => ih) fun _ => .pure rule.toChains _

theorem drawOther (matched : List Func) (current : String) (n : Nat) :
    Generates (drawOther matched current n) := by
  intro R E rule
  induction n with
  | zero => exact .bind rule.toChains (rule.pick _) fun _ => .pure rule.toChains _
  | succ n ih =>
    apply Keeps.bind rule.toChains (rule.pick _)
    intro drawn
    exact .ite (fun _ => ih) fun _ => .pure rule.toChains _

theorem simpleExpr (inst : InstrTy) (child : List Expr) : Generates (Gen.simpleExpr inst child) :=
  fun _ _ rule => rule.simpleExpr inst child

end Generates

theorem Draws.drawTargets (labels : List LabelCxt) (kind : Kind) : Draws (drawTargets labels kind) := by
  intro R E rule
  have chains := rule.toChains
  unfold Swam.drawTargets
  split
  · exact .bind chains (rule.pick labels) fun _ => .pure chains _
  · apply Keeps.bind chains (drawLabels labels _ R E rule)
    intro drawn
    exact .bind chains (rule.pick labels) fun _ => .pure chains _
  · exact .pure chains _

/-! ## Dummies -/

section
variable {R : GenState → GenState → Prop} {E : GenState → Stop → GenState → Prop}
  (rule : ValueRule R E)
include rule

theorem dummyExpr_step {s : GenState} {ty : ValTy} {e : Expr} {m : Module} {r : Rand}
    (built : dummyExpr s.mod ty s.rand = some (e, m, r)) : R s { s with mod := m, rand := r } := by
  have ends := rule.initExpr ty s
  rw [ends_request] at ends
  simpa only [built] using ends

theorem dummyExprs_step {types : List ValTy} {s : GenState} {es : List Expr} {m : Module} {r : Rand}
    (built : dummyExprs s.mod types s.rand = some (es, m, r)) :
    R s { s with mod := m, rand := r } := by
  induction types generalizing s es m r with
  | nil =>
    cases built
    exact rule.refl s
  | cons ty rest ih =>
    simp only [dummyExprs, Option.bind_eq_some_iff, Option.map_eq_some_iff, Prod.exists,
      Prod.mk.injEq] at built
    obtain ⟨e, m₁, r₁, first, es', m₂, r₂, second, -, rfl, rfl⟩ := built
    exact rule.trans (dummyExpr_step rule first) (@ih { s with mod := m₁, rand := r₁ } _ _ _ second)

end

theorem dummyExprs_globals {m m' : Module} {types : List ValTy} {r r' : Rand} {es : List Expr}
    (built : dummyExprs m types r = some (es, m', r')) : m'.globals = m.globals :=
  @dummyExprs_step _ _ sameGlobals types ⟨m, wasmInitNameGrp, r, 0, [], []⟩ es m' r' built

theorem falseExpr_generates (ty : Ty) (room : Bool) :
    Generates (Gen.request (fun m r => falseExpr m ty room r) fun _ => .fatal) := by
  intro R E rule
  apply ValueRule.request
  · intro s arm m r built
    unfold falseExpr at built
    split at built
    · cases built
      exact rule.refl s
    · cases built
      exact rule.refl s
    · split at built
      · simp only [Option.map_eq_some_iff, Prod.exists, Prod.mk.injEq] at built
        obtain ⟨es, _, _, built, -, rfl, rfl⟩ := built
        exact dummyExprs_step rule.toValueRule built
      · cases built
        exact rule.refl s
  · intro s _
    exact rule.fatal s

/-- The initial values of a global bring no other global, so its name is still its number. -/
theorem addNumberedGlobal_draws (globalType : Ty) : Draws (addNumberedGlobal globalType) := by
  intro R E rule s
  rw [addNumberedGlobal, ends_bind, ends_get, ends_bind, ends_request]
  cases built : dummyExprs s.mod globalType.expand s.rand with
  | none => exact rule.fatal s
  | some answer =>
    obtain ⟨inits, m, r⟩ := answer
    have here := dummyExprs_step rule.toValueRule built
    have number : m.globals.length = s.mod.globals.length :=
      congrArg List.length (dummyExprs_globals built)
    dsimp only
    rw [ends_bind]
    dsimp only [Ends, Gen.addGlobal]
    split
    next added =>
      split at added
      · cases added
      next free =>
        cases added
        apply rule.trans here
        apply rule.newGlobal
        dsimp only
        rw [number]
    next refused =>
      split at refused
      next taken =>
        cases refused
        apply rule.stop here
        apply rule.globalTaken
        dsimp only
        rw [number]
        exact taken
      · cases refused

/-! ## Rules -/

/-- The steps of a mutator that loops over no list that may be without an element. -/
structure ModuleSteps (R : MutState → MutState → Prop) (E : MutState → Stop → MutState → Prop) : Prop
    extends MutSteps R E where
  adds : ∀ s m r, AddsTable s.mod m → R s { s with mod := m, rand := r }
  tableTaken : ∀ s, Gen.tableNameTaken s.mod = true → E s .nameInUse s
  newVar : ∀ s func ty, R s { s with
    mod := { s.mod with
      functions := s.mod.functions.modify func fun f => { f with vars := f.vars ++ [ty] } } }
  recorded : ∀ s addedVars, R s { s with addedVars }
  newFunction : ∀ s f, f.name = toString s.mod.functions.length →
    R s { s with mod := { s.mod with functions := s.mod.functions ++ [f] } }
  functionTaken : ∀ s, s.mod.functions.any (·.name = toString s.mod.functions.length) = true →
    E s .nameInUse s

/-- The steps of the fixup of a fragment, past the search for labels. -/
structure SpliceSteps (R : MutState → MutState → Prop) (E : MutState → Stop → MutState → Prop) : Prop
    extends Chains R E where
  memory : ∀ s bodies nextAddr, R s { s with bodies, nextAddr }
  draw : ∀ {α : Type} {x : Gen α}, Draws x → Keeps R E (draw x)
  fatal : ∀ s, E s .fatal s
  adds : ∀ s m r, AddsTable s.mod m → R s { s with mod := m, rand := r }
  tableTaken : ∀ s, Gen.tableNameTaken s.mod = true → E s .nameInUse s
  newVar : ∀ s func ty, R s { s with
    mod := { s.mod with
      functions := s.mod.functions.modify func fun f => { f with vars := f.vars ++ [ty] } } }
  newFunction : ∀ s f, f.name = toString s.mod.functions.length →
    R s { s with mod := { s.mod with functions := s.mod.functions ++ [f] } }
  functionTaken : ∀ s, s.mod.functions.any (·.name = toString s.mod.functions.length) = true →
    E s .nameInUse s

/-- The steps of any mutator. -/
structure ModuleRule (R : MutState → MutState → Prop) (E : MutState → Stop → MutState → Prop) : Prop
    extends ModuleSteps R E, MutRule R E

section
variable {R : MutState → MutState → Prop} {E : MutState → Stop → MutState → Prop}

namespace SpliceSteps

variable (rule : SpliceSteps R E)
include rule

theorem addVar (func : Nat) (ty : Ty) : Keeps R E (addVar func ty) := fun s => rule.newVar s func ty

theorem setFunctionBody (func : Nat) (body : ExprRef) : Keeps R E (setFunctionBody func body) :=
  fun s => rule.memory s _ _

/-- A request that adds at most a table. -/
theorem request {α : Type} {call : Module → Rand → Option (α × Module × Rand)} {why : Module → Stop}
    (answered : ∀ m r a m' r', call m r = some (a, m', r') → AddsTable m m')
    (refused : ∀ s, call s.mod s.rand = none → E s (why s.mod) s) :
    Keeps R E (Mut.draw (Gen.request call why)) := by
  intro s
  rw [Mut.draw, ends_bind]
  unfold Ends generate Gen.request
  dsimp only
  cases outcome : call s.mod s.rand with
  | none => exact refused s outcome
  | some answer => exact rule.adds s _ _ (answered _ _ _ _ _ outcome)

theorem newTable (ty : ValTy) : Keeps R E (Mut.draw (newTable ty)) := by
  apply rule.request
  · intro m r table m' r' added
    obtain ⟨new, here, equal⟩ := Option.map_eq_some_iff.mp added
    cases equal
    exact addNumberedTable_adds here
  · intro s refused
    apply rule.tableTaken
    rw [Option.map_eq_none_iff, addNumberedTable] at refused
    simpa [Gen.tableNameTaken] using refused

theorem memoryIf (needed : Module → Bool) (addSeg : Bool) :
    Keeps R E (Mut.draw (memoryIf needed addSeg)) := by
  apply rule.request
  · intro m r answer m' r' made
    obtain ⟨set, here, equal⟩ := Option.map_eq_some_iff.mp made
    cases equal
    split at here
    · exact wasmSetMemory_adds here
    · cases here
      exact .refl m
  · intro s _
    exact rule.fatal s

theorem funcRefGet (spl : SpliceModule) (func : FuncRef) : Keeps R E (func.get spl) := by
  have chains := rule.toChains
  cases func with
  | current index =>
    apply Keeps.bind chains (.get chains)
    intro s
    split
    · exact .pure chains _
    · exact fun s => rule.fatal s
  | splice index =>
    rw [FuncRef.get]
    split
    · exact .pure chains _
    · exact fun s => rule.fatal s

theorem renameLabels (branches : List Branch) (nodes : List Nat) (expr : ExprRef) :
    Keeps R E (renameLabels branches nodes expr) := by
  have chains := rule.toChains
  induction nodes generalizing expr with
  | nil => exact .pure chains _
  | cons el rest ih =>
    unfold Swam.renameLabels
    split
    · exact .bind chains (rule.draw .freshName) fun _ => ih _
    · exact .bind chains (rule.draw .freshName) fun _ => ih _
    · exact ih _

theorem retargetFragment (curResults splResults : Ty) (labelsCur : List LabelCxt)
    (branches : List Branch) (nodes : List Nat) (expr : ExprRef) :
    Keeps R E (retargetFragment curResults splResults labelsCur branches nodes expr) := by
  have chains := rule.toChains
  induction nodes generalizing expr with
  | nil => exact .pure chains _
  | cons el rest ih =>
    unfold Swam.retargetFragment
    dsimp only
    split
    · split
      · exact .pure chains _
      · apply Keeps.ite <;> intro _
        · exact .pure chains _
        · exact .bind chains (rule.draw (.drawTargets _ _)) fun _ => ih _
    · exact .ite (fun _ => .pure chains _) fun _ => ih _

theorem fixLocal (splFunc : Func) (curFunc index : Nat) (localsCur : List LocalCxt) :
    Keeps R E (fixLocal splFunc curFunc index localsCur) := by
  have chains := rule.toChains
  unfold Swam.fixLocal
  split
  · exact fun s => rule.fatal s
  · apply Keeps.bind chains (rule.draw (.choose _ _))
    rintro (_ | el)
    · exact .bind chains (rule.addVar _ _) fun _ => .pure chains _
    · exact .pure chains _

theorem fixGlobal (spl : SpliceModule) (globalName : String) (written : Bool) :
    Keeps R E (fixGlobal spl globalName written) := by
  have chains := rule.toChains
  unfold Swam.fixGlobal
  split
  · exact .pure chains _
  · apply Keeps.bind chains (.get chains)
    intro s
    apply Keeps.bind chains (rule.draw (.choose _ _))
    rintro (_ | cur)
    · exact .bind chains (rule.draw (addNumberedGlobal_draws _)) fun _ => .pure chains _
    · exact .pure chains _

theorem matchingTable (ty : ValTy) : Keeps R E (matchingTable ty) := by
  have chains := rule.toChains
  apply Keeps.bind chains (.get chains)
  intro s
  apply Keeps.bind chains (rule.draw (.choose _ _))
  rintro (_ | cur)
  · exact .bind chains (rule.newTable _) fun _ => .pure chains _
  · exact .pure chains _

theorem fixTable (spl : SpliceModule) (tableName : String) :
    Keeps R E (fixTable spl tableName) := by
  have chains := rule.toChains
  unfold Swam.fixTable
  split
  · exact .pure chains _
  · exact .bind chains (rule.matchingTable _) fun _ => .pure chains _

theorem sizedTable : Keeps R E sizedTable := by
  have chains := rule.toChains
  have last {name : Option Table → Mut String} (kept : ∀ drawn, Keeps R E (name drawn)) :
      Keeps R E (get >>= fun s : MutState => Mut.draw (Gen.pick s.mod.tables) >>= name) := by
    apply Keeps.bind chains (.get chains)
    intro s
    exact .bind chains (rule.draw (.pick _)) kept
  apply Keeps.bind chains (.get chains)
  intro s
  apply Keeps.ite <;> intro _
  · refine .bind chains (rule.newTable _) fun _ => last ?_
    rintro (_ | table)
    · exact fun s => rule.fatal s
    · exact .pure chains _
  · apply last
    rintro (_ | table)
    · exact fun s => rule.fatal s
    · exact .pure chains _

theorem fixSegment (needed : Module → Bool) : Keeps R E (fixSegment needed) := by
  have chains := rule.toChains
  apply Keeps.bind chains (rule.memoryIf _ _)
  intro _
  apply Keeps.bind chains (.get chains)
  intro s
  exact .bind chains (rule.draw (.below _)) fun _ => .pure chains _

theorem shareFunction (s : MutState) {f : Func} (body : ExprRef)
    (number : f.name = toString s.mod.functions.length) :
    Ends (shareFunction f body) s (fun _ t => R s t) (E s) := by
  unfold Ends Swam.shareFunction
  split
  next added =>
    split at added
    · cases added
    · cases added
      exact rule.trans (rule.newFunction s f number)
        (rule.memory { s with mod := { s.mod with functions := s.mod.functions ++ [f] } } _ _)
  next refused =>
    split at refused
    next taken =>
      cases refused
      apply rule.functionTaken
      rw [← number]
      exact taken
    · cases refused

section
variable {fixup : Nat → ExprRef → Frag → Mut (Bool × ExprRef)}
  (kept : ∀ curFunc curExpr target, Keeps R E (fixup curFunc curExpr target))
include kept

theorem fixCall (spl : SpliceModule) (tarFuncName : String) :
    Keeps R E (fixCall spl fixup tarFuncName) := by
  have chains := rule.toChains
  unfold Swam.fixCall
  dsimp only
  split
  next tarFunc newFuncBody _ _ =>
    intro s
    rw [ends_bind, ends_get, ends_ite]
    constructor <;> intro _
    · rw [ends_bind]
      apply (rule.shareFunction s _ rfl).mono
      · intro _ t shared
        have after := Keeps.bind chains
          (kept s.mod.functions.length newFuncBody ⟨.current s.mod.functions.length, newFuncBody⟩)
          fun fixed => Keeps.bind chains (rule.setFunctionBody s.mod.functions.length fixed.2)
            fun _ => Keeps.pure chains (some (toString s.mod.functions.length))
        exact (after t).mono (fun _ _ onward => chains.trans shared onward)
          fun _ _ onward => chains.stop shared onward
      · exact fun _ _ stopped => stopped
    · refine Keeps.bind chains (rule.draw (.pick _)) ?_ s
      rintro (_ | func)
      · exact fun s => rule.fatal s
      · exact .pure chains _
  · exact .pure chains _

end

/-- The fixup of a node, given what becomes of the calls. -/
theorem fixKind {spl : SpliceModule} {fixup : Nat → ExprRef → Frag → Mut (Bool × ExprRef)}
    (called : ∀ target, Keeps R E (Swam.fixCall spl fixup target)) (splFunc : Func) (curFunc : Nat)
    (skipped : Bool) (kind : Kind) (localsCur : List LocalCxt) :
    Keeps R E (fixKind spl fixup splFunc curFunc skipped kind localsCur) := by
  have chains := rule.toChains
  have indexed : ∀ (index : Nat) (fixed : Nat → Kind), Keeps R E (if skipped = true
      then (pure (some (kind, localsCur)) : Mut (Option (Kind × List LocalCxt)))
      else Swam.fixLocal splFunc curFunc index localsCur >>= fun found =>
        pure (some (fixed found.1, found.2))) := by
    intro index fixed
    apply Keeps.ite <;> intro _
    · exact .pure chains _
    · exact .bind chains (rule.fixLocal _ _ _ _) fun _ => .pure chains _
  unfold Swam.fixKind
  split
  · apply Keeps.bind chains (.get chains)
    intro s
    apply Keeps.bind chains (rule.draw (.pick _))
    rintro (_ | func)
    · exact fun s => rule.fatal s
    · exact .pure chains _
  · exact indexed _ fun index => .localGet index _
  · exact indexed _ fun index => .localSet index
  · exact indexed _ fun index => .localTee index _
  · exact .bind chains (rule.fixGlobal _ _ _) fun _ => .pure chains _
  · exact .bind chains (rule.fixGlobal _ _ _) fun _ => .pure chains _
  · exact .bind chains (rule.fixTable _ _) fun _ => .pure chains _
  · exact .bind chains (rule.fixTable _ _) fun _ => .pure chains _
  · exact .bind chains (rule.fixTable _ _) fun _ => .pure chains _
  · exact .bind chains rule.sizedTable fun _ => .pure chains _
  · exact .bind chains (rule.fixSegment _) fun _ => .pure chains _
  · exact .bind chains (rule.fixSegment _) fun _ => .pure chains _
  · exact .bind chains (rule.matchingTable _) fun _ => .pure chains _
  · exact .bind chains (called _) fun _ => .pure chains _
  · apply Keeps.ite <;> intro _
    · exact .bind chains (rule.memoryIf _ _) fun _ => .pure chains _
    · exact .pure chains _

theorem fixNodes {fix : Kind → List LocalCxt → Mut (Option (Kind × List LocalCxt))}
    (each : ∀ kind localsCur, Keeps R E (fix kind localsCur)) (nodes : List Nat) (expr : ExprRef)
    (localsCur : List LocalCxt) : Keeps R E (fixNodes fix nodes expr localsCur) := by
  have chains := rule.toChains
  induction nodes generalizing expr localsCur with
  | nil => exact .pure chains _
  | cons el rest ih =>
    apply Keeps.bind chains (each _ _)
    rintro (_ | ⟨kind, localsCur⟩)
    · exact .pure chains _
    · exact ih _ _


end SpliceSteps

/-- A mutator takes all steps of a fixup. -/
theorem ModuleSteps.splices (rule : ModuleSteps R E) : SpliceSteps R E where
  toChains := rule.toChains
  memory := rule.memory
  draw := fun draws => rule.draw draws.generates
  fatal := rule.fatal
  adds := rule.adds
  tableTaken := rule.tableTaken
  newVar := rule.newVar
  newFunction := rule.newFunction
  functionTaken := rule.functionTaken

namespace ModuleSteps

variable (rule : ModuleSteps R E)
include rule

theorem rand (s : MutState) (r : Rand) : R s { s with rand := r } := rule.adds s s.mod r (.refl s.mod)

theorem addVar (func : Nat) (ty : Ty) : Keeps R E (addVar func ty) := fun s => rule.newVar s func ty

theorem setFunctionBody (func : Nat) (body : ExprRef) : Keeps R E (setFunctionBody func body) :=
  fun s => rule.memory s _ _

/-! ## New functions -/

theorem addFunction (s : MutState) {f : Func} (number : f.name = toString s.mod.functions.length) :
    Ends (addFunction f) s (fun _ t => R s t) (E s) := by
  apply (addFunction_ends f s).mono
  · rintro _ t ⟨_, rfl⟩
    exact rule.trans (rule.newFunction s f number)
      (rule.memory { s with mod := { s.mod with functions := s.mod.functions ++ [f] } } _ _)
  · rintro e t ⟨rfl, rfl, g, member, equal⟩
    apply rule.functionTaken
    rw [List.any_eq_true]
    exact ⟨g, member, by simp [equal, number]⟩

theorem generateOneFunc (param result : Ty) : Keeps R E (wasmGenerateOneFunc param result) := by
  have chains := rule.toChains
  apply Keeps.bind chains (rule.generate _ _ (.topLevel 3 result))
  rintro ⟨body, localCxt⟩ s
  -- the name is chosen after the body was generated
  rw [ends_bind, ends_get]
  dsimp only
  split
  · exact rule.fatal s
  next vars _ =>
    rw [ends_bind]
    exact (rule.addFunction s rfl).mono (fun _ _ kept => kept) fun _ _ stopped => stopped

/-! ## Constants and operators -/

theorem interestNode (addr : Nat) (node : ExprRef) : Keeps R E (interestNode addr node) := by
  have chains := rule.toChains
  unfold Swam.interestNode
  split
  · apply Keeps.bind chains (rule.draw (.oneIn 6))
    intro chosen
    apply Keeps.ite <;> intro _
    · apply Keeps.bind chains (rule.draw (.interestingLiteral _))
      intro new
      apply Keeps.bind chains (rule.write _ _)
      intro _
      exact rule.count
    · exact .pure chains _
  · exact .pure chains _

theorem interestValues : Keeps R E wasmInterestValuesMutate := by
  have chains := rule.toChains
  apply rule.mutate
  intro func body whetherRootNode el
  apply Keeps.bind chains (rule.deref el)
  intro node
  apply Keeps.bind chains (rule.interestNode el node)
  intro _
  exact rule.eachChild (fun _ _ => rule.enqueue _) _ _

theorem simpleNode (inst : InstrTy) (child : List ExprRef) : Keeps R E (simpleNode inst child) := by
  apply Keeps.bind rule.toChains (rule.draw (.simpleExpr _ _))
  intro built
  cases built with
  | null => exact .pure rule.toChains _
  | node kind operands => exact rule.alloc _ _

theorem operatorNode (addr : Nat) {place : ExprRef → Mut Unit}
    (placed : ∀ new, Keeps R E (place new)) : Keeps R E (operatorNode addr place) := by
  have chains := rule.toChains
  apply Keeps.bind chains (rule.deref addr)
  rintro (_ | ⟨a, kind, cs⟩)
  · exact .pure chains _
  dsimp only
  split
  · exact .pure chains _
  apply Keeps.ite <;> intro _
  · apply Keeps.bind chains (rule.draw (.oneIn 10))
    intro chosen
    apply Keeps.ite <;> intro _
    · apply Keeps.bind chains (rule.draw (.drawInstr _ _ _))
      intro new
      apply Keeps.ite <;> intro _
      · exact .pure chains _
      -- the random numbers of the new immediates are taken from the state by hand
      · intro s
        rw [ends_bind, ends_get]
        split
        next kind' r _ =>
          rw [ends_bind, ends_set]
          have drawn := rule.rand s r
          have after : Keeps R E (Mut.write addr (fun _ cs => (kind', cs)) >>= fun _ =>
              Mut.count >>= fun _ => (pure addr : Mut Nat)) := by
            apply Keeps.bind chains (rule.write _ _)
            intro _
            exact .bind chains rule.count fun _ => .pure chains _
          exact (after _).mono (fun _ _ onward => chains.trans drawn onward)
            fun _ _ onward => chains.stop drawn onward
        next =>
          have after := Keeps.bind chains (rule.simpleNode new (childRefs (.node a kind cs)))
            fun expr => Keeps.bind chains (placed expr) fun _ =>
              Keeps.bind chains (rule.replace [addr]) fun _ =>
                Keeps.bind chains rule.count fun _ => Keeps.pure chains (expr.addr?.getD addr)
          exact after s
    · exact .pure chains _
  · exact .pure chains _

theorem operators : Keeps R E wasmOperatorsMutate := by
  have chains := rule.toChains
  apply rule.mutate
  intro func body whetherRootNode el
  apply Keeps.bind chains (rule.deref el)
  intro node
  apply Keeps.bind chains
  · exact .ite (fun _ => rule.operatorNode _ fun _ s => rule.memory s _ _) fun _ => .pure chains _
  intro el'
  apply rule.eachChild
  intro ind child
  apply Keeps.bind chains (rule.operatorNode _ fun _ => rule.setChild _ _ _)
  intro child
  exact rule.enqueue _

/-! ## Wrappers -/

theorem wrapNode (addr : Nat) (ty : Ty) : Keeps R E (InPlace.wrapNode addr ty) := by
  have chains := rule.toChains
  apply Keeps.bind chains (rule.draw (.below 3))
  intro wrapper
  apply Keeps.ite <;> intro _
  · apply Keeps.bind chains (rule.draw .freshName)
    intro label
    apply Keeps.bind chains (rule.deref _)
    intro el
    exact rule.alloc _ _
  · apply Keeps.bind chains (rule.alloc _ _)
    intro cond
    apply Keeps.bind chains (rule.draw (falseExpr_generates _ _))
    intro arm
    apply Keeps.bind chains (rule.allocExpr _)
    intro falseArm
    apply Keeps.bind chains (rule.deref _)
    intro el
    exact rule.alloc _ _

theorem nest (addr : Nat) {place : ExprRef → Mut Unit} (placed : ∀ new, Keeps R E (place new)) :
    Keeps R E (InPlace.nest addr place) := by
  have chains := rule.toChains
  apply Keeps.bind chains (rule.deref _)
  intro el
  apply Keeps.ite <;> intro _
  · apply Keeps.bind chains (rule.draw (.oneIn 8))
    intro chosen
    apply Keeps.ite <;> intro _
    · apply Keeps.bind chains (rule.wrapNode _ _)
      intro new
      apply Keeps.bind chains (placed new)
      intro _
      exact rule.count
    · exact .pure chains _
  · exact .pure chains _

theorem recursive : Keeps R E InPlace.wasmRecursiveMutate := by
  have chains := rule.toChains
  apply rule.mutate
  intro func body whetherRootNode el
  apply Keeps.bind chains (rule.deref el)
  intro node
  apply Keeps.bind chains
  · exact .ite (fun _ => rule.nest _ fun _ => rule.splices.setFunctionBody _ _) fun _ => .pure chains _
  intro _
  apply rule.eachChild
  intro ind child
  apply Keeps.bind chains (rule.nest _ fun _ => rule.setChild _ _ _)
  intro _
  exact rule.enqueue _

/-! ## Calls -/

theorem otherFunc (current : String) (param result : Ty) :
    Keeps R E (otherFunc current param result) := by
  have chains := rule.toChains
  apply Keeps.bind chains (.get chains)
  intro s
  apply Keeps.ite <;> intro _
  · apply Keeps.bind chains (rule.draw (.drawOther _ _ _))
    intro name
    exact .ite (fun _ => rule.generateOneFunc _ _) fun _ => .pure chains _
  · exact rule.generateOneFunc _ _

theorem anyFunc (param result : Ty) : Keeps R E (anyFunc param result) := by
  have chains := rule.toChains
  apply Keeps.bind chains (.get chains)
  intro s
  apply Keeps.ite <;> intro _
  · apply Keeps.bind chains (rule.draw (.pick _))
    rintro (_ | f)
    · exact fun s => rule.fatal s
    · exact .pure chains _
  · exact rule.generateOneFunc _ _

theorem redirectCall (addr : Nat) (target : String) : Keeps R E (redirectCall addr target) := by
  have chains := rule.toChains
  apply Keeps.bind chains (.get chains)
  intro s
  split
  · exact .pure chains _
  · apply Keeps.bind chains (rule.otherFunc _ _ _)
    intro name
    exact .bind chains (rule.write _ _) fun _ => rule.count

theorem redirectIndirect (func addr : Nat) (table : String) (params results ty : Ty) :
    Keeps R E (redirectIndirect func addr table params results ty) := by
  have chains := rule.toChains
  apply Keeps.bind chains (rule.anyFunc _ _)
  intro name
  apply Keeps.bind chains (rule.splices.addVar _ _)
  intro newLocal
  apply Keeps.bind chains (rule.deref _)
  intro call
  apply Keeps.bind chains (rule.alloc _ _)
  intro localSet
  apply Keeps.bind chains (rule.alloc _ _)
  intro localGet
  apply Keeps.bind chains (rule.alloc _ _)
  intro copy
  apply Keeps.bind chains (rule.write _ _)
  intro _
  apply Keeps.bind chains (rule.alloc _ _)
  intro funcRef
  apply Keeps.bind chains (rule.alloc _ _)
  intro tableSet
  apply Keeps.bind chains (rule.deref _)
  intro call
  exact rule.alloc _ _

theorem redirect (func addr : Nat) {place : ExprRef → Mut Unit}
    (placed : ∀ new, Keeps R E (place new)) : Keeps R E (redirect func addr place) := by
  have chains := rule.toChains
  apply Keeps.bind chains (rule.deref addr)
  intro node
  split
  · apply Keeps.bind chains (rule.draw (.oneIn 6))
    intro chosen
    exact .ite (fun _ => rule.redirectCall _ _) fun _ => .pure chains _
  · apply Keeps.bind chains (rule.draw (.oneIn 6))
    intro chosen
    apply Keeps.ite <;> intro _
    · apply Keeps.bind chains (rule.redirectIndirect _ _ _ _ _ _)
      intro block
      apply Keeps.bind chains (placed block)
      intro _
      exact rule.count
    · exact .pure chains _
  · exact .pure chains _

theorem callTarget : Keeps R E wasmCallTargetFunctionMutate := by
  have chains := rule.toChains
  apply rule.mutate
  intro func body whetherRootNode el
  apply Keeps.bind chains (rule.deref el)
  intro node
  apply Keeps.bind chains
  · exact .ite (fun _ => rule.redirect _ _ fun _ => rule.splices.setFunctionBody _ _) fun _ => .pure chains _
  intro _
  apply rule.eachChild
  intro ind child
  apply Keeps.bind chains (rule.redirect _ _ fun _ => rule.setChild _ _ _)
  intro _
  exact rule.enqueue _

/-! ## Branches -/

theorem addVars (func : Nat) (localCxt : List LocalCxt) : Keeps R E (addVars func localCxt) := by
  have chains := rule.toChains
  induction localCxt with
  | nil => exact .pure chains _
  | cons el rest ih =>
    apply Keeps.ite <;> intro _
    · exact ih
    · apply Keeps.bind chains (rule.splices.addVar _ _)
      intro created
      apply Keeps.bind chains
      · exact fun s => rule.recorded s _
      intro _
      exact ih

end ModuleSteps

namespace ModuleRule

variable (rule : ModuleRule R E)
include rule

theorem retarget (site : Site) (body : Nat) (kind : Kind) (value cond : ExprRef) :
    Keeps R E (retarget site body kind value cond) := by
  have chains := rule.toChains
  apply Keeps.bind chains (rule.deref body)
  intro root
  apply Keeps.bind chains (.get chains)
  intro s
  dsimp only
  split
  · exact fun s => rule.fatal s
  · apply Keeps.bind chains (rule.retargetKind (rule.foreach _) _ _ _ _ _)
    intro answer
    apply Keeps.bind chains (rule.addVars _ _)
    intro _
    exact .bind chains (rule.countIf _) fun _ => .pure chains _

theorem collectBranches (splBody expr : ExprRef) (nodes : List Nat) :
    Keeps R E (collectBranches splBody expr nodes) := by
  have chains := rule.toChains
  induction nodes with
  | nil => exact .pure chains _
  | cons el rest ih =>
    unfold Swam.collectBranches
    split
    · exact ih
    · apply Keeps.bind chains (rule.foreach _)
      intro labelsSpl
      exact .bind chains ih fun _ => .pure chains _

theorem splicingFixup (spl : SpliceModule) (depth curFunc : Nat) (curExpr : ExprRef) (target : Frag) :
    Keeps R E (wasmSplicingFixup spl depth curFunc curExpr target) := by
  have chains := rule.toChains
  induction depth generalizing curFunc curExpr target with
  | zero => exact fun s => rule.endless s
  | succ depth ih =>
    apply Keeps.bind chains (rule.splices.funcRefGet _ _)
    intro spliced
    apply Keeps.bind chains (rule.splices.funcRefGet _ _)
    intro current
    apply Keeps.bind chains (rule.allocExpr _)
    intro expr
    apply Keeps.ite <;> intro _
    · exact fun s => rule.fatal s
    apply Keeps.bind chains (rule.collectBranches _ _ _)
    intro branches
    apply Keeps.bind chains (rule.splices.renameLabels _ _ _)
    intro expr
    apply Keeps.bind chains
    · exact .ite (fun _ => .pure chains _) fun _ => rule.splices.retargetFragment _ _ _ _ _ _
    rintro (_ | expr)
    · exact .pure chains _
    · exact rule.splices.fixNodes (rule.splices.fixKind (rule.splices.fixCall ih spl) _ _ _) _ _ _

theorem spliceFragment (spl : SpliceModule) (fragmentPool : List FragGrp) (func : Nat)
    (expr : ExprRef) (ty : Ty) : Keeps R E (spliceFragment spl fragmentPool func expr ty) := by
  have chains := rule.toChains
  unfold Swam.spliceFragment
  split
  · exact .pure chains _
  · apply Keeps.bind chains (rule.draw (.pick _))
    rintro (_ | newFrag)
    · exact fun s => rule.fatal s
    · apply Keeps.bind chains (.get chains)
      intro s
      exact .bind chains (rule.splicingFixup _ _ _ _ _) fun _ => .pure chains _

theorem overwriteChildren (spl : SpliceModule) (fragmentPool : List FragGrp) (func el : Nat)
    (children : List (Option Nat)) (ind : Nat) :
    Keeps R E (overwriteChildren spl fragmentPool func el children ind) := by
  have chains := rule.toChains
  induction children generalizing ind with
  | nil => exact .pure chains _
  | cons child rest ih =>
    cases child with
    | none => exact ih _
    | some addr =>
      apply Keeps.bind chains
      · apply Keeps.bind chains (rule.draw (.oneIn 10))
        intro chosen
        apply Keeps.ite <;> intro _
        · apply Keeps.bind chains (rule.deref _)
          intro old
          apply Keeps.bind chains (rule.spliceFragment _ _ _ _ _)
          rintro (_ | fixed)
          · exact .pure chains _
          · exact .bind chains (rule.setChild _ _ _) fun _ => .pure chains _
        · exact .pure chains _
      intro substituted
      have rest' := Keeps.bind chains (ih (ind + 1))
        fun more => Keeps.pure chains ((if substituted then 1 else 0) + more)
      cases substituted
      · exact .bind chains (rule.enqueue _) fun _ => rest'
      · exact .bind chains (.pure chains _) fun _ => rest'

theorem insertFragment (spl : SpliceModule) (fragmentPool : List FragGrp) (func el : Nat) :
    Keeps R E (insertFragment spl fragmentPool func el) := by
  have chains := rule.toChains
  apply Keeps.bind chains (rule.deref _)
  intro node
  split
  · apply Keeps.ite <;> intro _
    · exact .pure chains _
    apply Keeps.bind chains (rule.draw (.oneIn 15))
    intro chosen
    apply Keeps.ite <;> intro _
    · split
      · exact .pure chains _
      · apply Keeps.bind chains (rule.draw (.pick _))
        rintro (_ | newFrag)
        · exact fun s => rule.fatal s
        · apply Keeps.bind chains (rule.draw (.below _))
          intro insIdx
          apply Keeps.bind chains (.get chains)
          intro s
          apply Keeps.bind chains (rule.splicingFixup _ _ _ _ _)
          intro fixed
          apply Keeps.ite <;> intro _
          · exact .bind chains (rule.write _ _) fun _ => .pure chains _
          · exact .pure chains _
    · exact .pure chains _
  · exact .pure chains _

theorem spliceWalk {visit : Nat → SpliceCnt → Mut SpliceCnt}
    (kept : ∀ el cnt, Keeps R E (visit el cnt)) (max : SpliceCnt) (n : Nat) (cnt : SpliceCnt) :
    Keeps R E (spliceWalk visit max n cnt) := by
  have chains := rule.toChains
  induction n generalizing cnt with
  | zero => exact fun s => rule.endless s
  | succ n ih =>
    apply Keeps.bind chains (.get chains)
    intro s
    split
    · exact .pure chains _
    · apply Keeps.bind chains
      · exact fun s => rule.list s _
      intro _
      apply Keeps.bind chains (kept _ _)
      intro cnt
      exact .ite (fun _ => .pure chains _) fun _ => ih _

theorem spliceFunctions {visit : Nat → Nat → SpliceCnt → Mut SpliceCnt}
    (kept : ∀ func el cnt, Keeps R E (visit func el cnt)) (max : SpliceCnt) (indices : List Nat)
    (cnt : SpliceCnt) : Keeps R E (spliceFunctions visit max indices cnt) := by
  have chains := rule.toChains
  induction indices generalizing cnt with
  | nil => exact .pure chains _
  | cons idx rest ih =>
    apply Keeps.bind chains (.get chains)
    intro s
    split
    · exact ih _
    · apply Keeps.bind chains (rule.enqueue _)
      intro _
      apply Keeps.bind chains (rule.spliceWalk (kept _) _ _ _)
      intro answer
      exact .ite (fun _ => .pure chains _) fun _ => ih _

theorem splicing (spl : SpliceModule) (fragmentPool : List FragGrp) :
    Keeps R E (wasmSplicingMutate spl fragmentPool) := by
  have chains := rule.toChains
  apply Keeps.bind chains
  · exact fun s => rule.list s _
  intro _
  apply Keeps.bind chains (rule.draw (.below _))
  intro maxIns
  apply Keeps.bind chains (rule.draw (.below _))
  intro maxOvw
  apply Keeps.bind chains (.get chains)
  intro s
  apply Keeps.bind chains (rule.draw (.shuffle _))
  intro funcShuffle
  apply Keeps.bind chains
  · apply rule.spliceFunctions
    intro func el cnt
    apply Keeps.bind chains (rule.deref _)
    intro node
    apply Keeps.bind chains (rule.overwriteChildren _ _ _ _ _ _)
    intro overwritten
    exact .bind chains (rule.insertFragment _ _ _ _) fun _ => .pure chains _
  intro cnt
  exact .pure chains _

end ModuleRule

end

end Swam
