import Swam.BranchTarget
import Swam.GeneratorRules

/-!
# What the mutators can do

A relation that holds across the primitive steps of a mutator holds across its whole run. The
generators enter as computations that keep whatever their own steps keep.
-/
namespace Swam

open Binaryen Mut Lib

/-- The computation consists of steps of generators. -/
def Generates {α : Type} (x : Gen α) : Prop :=
  ∀ (R : GenState → GenState → Prop) (E : GenState → Stop → GenState → Prop), GenRule R E → Keeps R E x

/-- The computation consists of steps without loops that have no bound of their own. -/
def Draws {α : Type} (x : Gen α) : Prop :=
  ∀ (R : GenState → GenState → Prop) (E : GenState → Stop → GenState → Prop), DrawRule R E → Keeps R E x

namespace Draws

theorem generates {α : Type} {x : Gen α} (draws : Draws x) : Generates x :=
  fun R E rule => draws R E rule.toDrawRule

theorem below (limit : Nat) : Draws (Gen.below limit) := fun _ _ rule => rule.below limit

theorem pick {α : Type} (xs : List α) : Draws (Gen.pick xs) := fun _ _ rule => rule.pick xs

theorem choose {α : Type} (xs : List α) (selected : Option α) : Draws (Gen.choose xs selected) :=
  fun _ _ rule => rule.choose xs selected

theorem freshName : Draws Gen.freshName := fun _ _ rule => rule.freshName

theorem drawLabels (labels : List LabelCxt) (n : Nat) : Draws (drawLabels labels n) := by
  intro R E rule
  induction n with
  | zero => exact .pure rule.toChains _
  | succ n ih =>
    apply Keeps.bind rule.toChains (rule.pick labels)
    intro label
    exact .bind rule.toChains ih fun _ => .pure rule.toChains _

end Draws

namespace Generates

theorem below (limit : Nat) : Generates (Gen.below limit) := (Draws.below limit).generates

theorem oneIn (chances : Nat) : Generates (Gen.oneIn chances) := fun _ _ rule => rule.oneIn chances

theorem pick {α : Type} (xs : List α) : Generates (Gen.pick xs) := (Draws.pick xs).generates

theorem choose {α : Type} (xs : List α) (selected : Option α) : Generates (Gen.choose xs selected) :=
  (Draws.choose xs selected).generates

theorem shuffle (arr : List Nat) : Generates (Gen.shuffle arr) := fun _ _ rule s => rule.rand s _

theorem freshName : Generates Gen.freshName := Draws.freshName.generates

theorem baseCase (depth : Nat) (result : Ty) : Generates (wasmGenerateInstrSeqsBaseCase depth result) :=
  fun _ _ rule => rule.anyBaseCase depth result

theorem topLevel (depth : Nat) (result : Ty) : Generates (wasmGenerateInstrSeqsTopLevel depth result) :=
  fun _ _ rule => rule.topLevel depth result

theorem drawLabels (labels : List LabelCxt) (n : Nat) : Generates (drawLabels labels n) :=
  (Draws.drawLabels labels n).generates

end Generates

section
variable {α : Type} {x : Gen α} {s : MutState} {stopped : Stop → MutState → Prop}

/-- A generator works on the module, the names and the random stream. -/
theorem ends_generate {localCxt : List LocalCxt} {labelCxt : List LabelCxt}
    {done : α × List LocalCxt → MutState → Prop} :
    Ends (generate localCxt labelCxt x) s done stopped ↔
      Ends x ⟨s.mod, s.names, s.rand, s.patience, localCxt, labelCxt⟩
        (fun a t => done (a, t.localCxt) { s with mod := t.mod, names := t.names, rand := t.rand })
        fun e t => stopped e { s with mod := t.mod, names := t.names, rand := t.rand } := by
  unfold Ends Mut.generate
  cases x ⟨s.mod, s.names, s.rand, s.patience, localCxt, labelCxt⟩ <;> rfl

theorem ends_draw {done : α → MutState → Prop} :
    Ends (draw x) s done stopped ↔
      Ends x ⟨s.mod, s.names, s.rand, s.patience, [], []⟩
        (fun a t => done a { s with mod := t.mod, names := t.names, rand := t.rand })
        fun e t => stopped e { s with mod := t.mod, names := t.names, rand := t.rand } := by
  rw [draw, ends_bind, ends_generate]
  rfl

end

theorem addFunction_ends (f : Func) (s : MutState) :
    Ends (addFunction f) s
      (fun _ t => (∀ g ∈ s.mod.functions, g.name ≠ f.name) ∧ t = { s with
        mod := { s.mod with functions := s.mod.functions ++ [f] }
        bodies := s.bodies ++ [(ExprRef.place f.body s.nextAddr).1]
        nextAddr := (ExprRef.place f.body s.nextAddr).2 })
      fun e t => e = .nameInUse ∧ t = s ∧ ∃ g ∈ s.mod.functions, g.name = f.name := by
  unfold Ends addFunction
  split
  next added =>
    split at added
    · cases added
    next free =>
      cases added
      refine ⟨?_, rfl⟩
      intro g member equal
      apply free
      rw [List.any_eq_true]
      exact ⟨g, member, by simp [equal]⟩
  next refused =>
    split at refused
    next taken =>
      cases refused
      obtain ⟨g, member, equal⟩ := List.any_eq_true.mp taken
      exact ⟨rfl, rfl, g, member, by simpa using equal⟩
    · cases refused

/-- The steps of a mutator that add nothing to the module themselves and loop over no list that may
be without an element. -/
structure MutSteps (R : MutState → MutState → Prop) (E : MutState → Stop → MutState → Prop) : Prop
    extends Chains R E where
  memory : ∀ s bodies nextAddr, R s { s with bodies, nextAddr }
  list : ∀ s childNodeList, R s { s with childNodeList }
  counted : ∀ s curCnt, R s { s with curCnt }
  noted : ∀ s replaced, R s { s with replaced }
  generate : ∀ {α : Type} localCxt labelCxt {x : Gen α}, Generates x →
    Keeps R E (generate localCxt labelCxt x)
  fatal : ∀ s, E s .fatal s
  endless : ∀ s, E s .endless s
  nullLabel : ∀ s, E s .nullLabel s

/-- The steps of a mutator that add nothing to the module themselves. -/
structure MutRule (R : MutState → MutState → Prop) (E : MutState → Stop → MutState → Prop) : Prop
    extends MutSteps R E where
  uninitializedList : ∀ s, E s .uninitializedList s

namespace MutSteps

variable {R : MutState → MutState → Prop} {E : MutState → Stop → MutState → Prop}
  (rule : MutSteps R E)
include rule

theorem draw {α : Type} {x : Gen α} (generates : Generates x) : Keeps R E (draw x) :=
  .bind rule.toChains (rule.generate [] [] generates) fun _ => .pure rule.toChains _

theorem deref (addr : Nat) : Keeps R E (deref addr) := by
  apply Keeps.bind rule.toChains (.get rule.toChains)
  intro s
  split
  · exact .pure rule.toChains _
  · exact fun s => rule.fatal s

theorem write (addr : Nat) (change : ExprRef.Write) : Keeps R E (write addr change) :=
  fun s => rule.memory s _ _

theorem alloc (kind : Kind) (children : List ExprRef) : Keeps R E (alloc kind children) :=
  fun s => rule.memory s _ _

theorem allocExpr (e : Expr) : Keeps R E (allocExpr e) := fun s => rule.memory s _ _

theorem replace (addrs : List Nat) : Keeps R E (replace addrs) := fun s => rule.noted s _

theorem enqueue (addr : Nat) : Keeps R E (enqueue addr) := fun s => rule.list s _

theorem enqueueRef (ref : ExprRef) : Keeps R E (enqueueRef ref) := by
  unfold Mut.enqueueRef
  split
  · exact .pure rule.toChains _
  · exact rule.enqueue _

theorem count : Keeps R E count := fun s => rule.counted s _

theorem countIf (changed : Bool) : Keeps R E (countIf changed) :=
  .ite (fun _ => rule.count) fun _ => .pure rule.toChains _

theorem setChild (parent : Nat) (newChild : ExprRef) (index : Nat) :
    Keeps R E (setChild parent newChild index) :=
  rule.write _ _

/-! ## The walk -/

theorem eachChild {visit : Nat → Nat → Mut Unit} (kept : ∀ ind child, Keeps R E (visit ind child))
    (children : List (Option Nat)) (ind : Nat) : Keeps R E (eachChild visit children ind) := by
  induction children generalizing ind with
  | nil => exact .pure rule.toChains _
  | cons child rest ih =>
    cases child with
    | none => exact ih _
    | some addr => exact .bind rule.toChains (kept ind addr) fun _ => ih _

theorem walk {visit : Bool → Nat → Mut Unit} (kept : ∀ root el, Keeps R E (visit root el))
    (maxCnt n : Nat) (root : Bool) : Keeps R E (Mut.walk visit maxCnt n root) := by
  have chains := rule.toChains
  induction n generalizing root with
  | zero => exact fun s => rule.endless s
  | succ n ih =>
    apply Keeps.bind chains (.get chains)
    intro s
    split
    · exact .pure chains _
    · apply Keeps.bind chains
      · exact fun s => rule.list s _
      intro _
      apply Keeps.bind chains (kept _ _)
      intro _
      apply Keeps.bind chains (.get chains)
      intro t
      exact .ite (fun _ => .pure chains _) fun _ => ih false

theorem eachFunction {visit : Nat → Nat → Bool → Nat → Mut Unit}
    (kept : ∀ func body root el, Keeps R E (visit func body root el)) (maxCnt : Nat) (indices : List Nat) :
    Keeps R E (eachFunction visit maxCnt indices) := by
  have chains := rule.toChains
  induction indices with
  | nil => exact .pure chains _
  | cons idx rest ih =>
    apply Keeps.bind chains (.get chains)
    intro s
    split
    · exact ih
    · apply Keeps.bind chains (rule.enqueue _)
      intro _
      apply Keeps.bind chains (rule.walk (kept _ _) _ _ _)
      intro full
      exact .ite (fun _ => .pure chains _) fun _ => ih

theorem mutate (limit : Nat) {visit : Nat → Nat → Bool → Nat → Mut Unit}
    (kept : ∀ func body root el, Keeps R E (visit func body root el)) : Keeps R E (mutate limit visit) := by
  have chains := rule.toChains
  apply Keeps.bind chains
  · exact fun s => chains.trans (rule.list s []) (rule.counted { s with childNodeList := [] } 0)
  intro _
  apply Keeps.bind chains (rule.draw (.below limit))
  intro extra
  apply Keeps.bind chains (.get chains)
  intro s
  apply Keeps.bind chains (rule.draw (.shuffle _))
  intro funcShuffle
  apply Keeps.bind chains (rule.eachFunction kept _ _)
  intro _
  exact .bind chains (.get chains) fun _ => .pure chains _

/-! ## Branches -/

theorem newOperand (newType : Ty) (localCxt : List LocalCxt) (labelCxt : List LabelCxt) :
    Keeps R E (newOperand newType localCxt labelCxt) := by
  apply Keeps.ite <;> intro _
  · exact .pure rule.toChains _
  · apply Keeps.bind rule.toChains (rule.generate _ _ (.baseCase 1 newType))
    intro generated
    exact .bind rule.toChains (rule.allocExpr _) fun _ => .pure rule.toChains _

theorem saveOperand (oriType : Ty) (value : ExprRef) (localCxt : List LocalCxt) :
    Keeps R E (saveOperand oriType value localCxt) := by
  apply Keeps.ite <;> intro _
  · exact .pure rule.toChains _
  · apply Keeps.bind rule.toChains (rule.alloc _ _)
    intro oriLocalSet
    exact .bind rule.toChains (rule.enqueueRef _) fun _ => .pure rule.toChains _

theorem dropOperand (newType : Ty) (branch : ExprRef) (localCxt : List LocalCxt) :
    Keeps R E (dropOperand newType branch localCxt) := by
  apply Keeps.ite <;> intro _
  · exact .pure rule.toChains _
  · exact .bind rule.toChains (rule.alloc _ _) fun _ => .pure rule.toChains _

theorem fetchOperand (oriIdx : Nat) (oriType : Ty) : Keeps R E (fetchOperand oriIdx oriType) := by
  apply Keeps.ite <;> intro _
  · exact .pure rule.toChains _
  · exact .bind rule.toChains (rule.alloc _ _) fun _ => .pure rule.toChains _

theorem retargetBrIf (site : Site) (value : ExprRef) (oriType newType : Ty)
    (localCxt : List LocalCxt) (labelCxt : List LabelCxt) :
    Keeps R E (retargetBrIf site value oriType newType localCxt labelCxt) := by
  have chains := rule.toChains
  apply Keeps.bind chains (rule.saveOperand _ _ _)
  intro saved
  apply Keeps.bind chains (rule.newOperand _ _ _)
  intro newValue
  apply Keeps.bind chains (rule.write _ _)
  intro _
  apply Keeps.bind chains (rule.deref _)
  intro branch
  apply Keeps.bind chains (rule.dropOperand _ _ _)
  intro taken
  apply Keeps.bind chains (rule.fetchOperand _ _)
  intro fetched
  apply Keeps.bind chains (rule.draw .freshName)
  intro label
  apply Keeps.bind chains (rule.alloc _ _)
  intro block
  exact .bind chains (rule.setChild _ _ _) fun _ => .pure chains _

section
variable {labels : CList LabelCxt} (listed : Keeps R E labels.foreach)
include listed

theorem retargetBreak (site : Site) (name : String) (value cond : ExprRef)
    (localCxt : List LocalCxt) :
    Keeps R E (retargetBreak site name value cond localCxt labels) := by
  have chains := rule.toChains
  apply Keeps.bind chains listed
  intro labelCxt
  apply Keeps.bind chains (rule.draw (.choose _ _))
  rintro (_ | new)
  · exact .pure chains _
  · apply Keeps.bind chains (rule.write _ _)
    intro _
    apply Keeps.ite <;> intro _
    · exact .bind chains (rule.retargetBrIf _ _ _ _ _ _) fun _ => .pure chains _
    · apply Keeps.bind chains (rule.newOperand _ _ _)
      intro newValue
      apply Keeps.bind chains (rule.write _ _)
      intro _
      exact .bind chains (rule.replace _) fun _ => .pure chains _

theorem switchName (site : Site) (insert : Bool) (names : List String) (dft : String) :
    Keeps R E (switchName site insert names dft labels) := by
  have chains := rule.toChains
  apply Keeps.bind chains listed
  intro labelCxt
  apply Keeps.bind chains (rule.draw (.choose _ _))
  intro new
  apply Keeps.bind chains (rule.draw (.below _))
  intro selected
  cases new with
  | none => exact fun s => rule.nullLabel s
  | some new => exact .bind chains (rule.write _ _) fun _ => rule.enqueue _

theorem switchType (site : Site) (dft : String) (value cond : ExprRef) (localCxt : List LocalCxt) :
    Keeps R E (switchType site dft value cond localCxt labels) := by
  have chains := rule.toChains
  apply Keeps.bind chains listed
  intro labelCxt
  apply Keeps.bind chains (rule.draw (.choose _ _))
  rintro (_ | new)
  · exact .pure chains _
  · apply Keeps.bind chains (rule.draw (.below 10))
    intro numCands
    apply Keeps.bind chains (rule.draw (.drawLabels _ _))
    intro names
    apply Keeps.bind chains (rule.draw (.pick _))
    rintro (_ | defaults)
    · exact fun s => rule.fatal s
    · apply Keeps.bind chains (rule.newOperand _ _ _)
      intro newValue
      apply Keeps.bind chains (rule.alloc _ _)
      intro switch
      apply Keeps.bind chains (rule.setChild _ _ _)
      intro _
      apply Keeps.bind chains (rule.replace _)
      intro _
      exact .bind chains (rule.enqueueRef _) fun _ => .pure chains _

theorem retargetSwitch (site : Site) (names : List String) (dft : String) (value cond : ExprRef)
    (localCxt : List LocalCxt) :
    Keeps R E (retargetSwitch site names dft value cond localCxt labels) := by
  have chains := rule.toChains
  apply Keeps.bind chains (rule.draw (.below 4))
  intro strategy
  apply Keeps.ite <;> intro _
  · exact .bind chains (rule.switchName listed _ _ _ _) fun _ => .pure chains _
  apply Keeps.ite <;> intro _
  · apply Keeps.ite <;> intro _
    · exact .pure chains _
    · apply Keeps.bind chains (rule.draw (.below _))
      intro selected
      apply Keeps.bind chains (rule.write _ _)
      intro _
      exact .bind chains (rule.enqueue _) fun _ => .pure chains _
  · exact rule.switchType listed _ _ _ _ _

theorem retargetKind (site : Site) (kind : Kind) (value cond : ExprRef)
    (localCxt : List LocalCxt) :
    Keeps R E (retargetKind site kind value cond localCxt labels) := by
  unfold Swam.retargetKind
  split
  · exact rule.retargetBreak listed _ _ _ _ _
  · exact rule.retargetSwitch listed _ _ _ _ _ _
  · exact .pure rule.toChains _

end

/-- The mutator, given what becomes of the branches that are changed. -/
theorem branchTarget
    (kept : ∀ site body kind value cond, Keeps R E (retarget site body kind value cond)) :
    Keeps R E wasmBranchTargetMutate := by
  have chains := rule.toChains
  apply rule.mutate
  intro func body _ el
  apply Keeps.bind chains (rule.deref el)
  intro node
  apply rule.eachChild
  intro ind child
  apply Keeps.bind chains (rule.deref child)
  intro branch
  split
  · apply Keeps.bind chains
    · exact .ite (fun _ => rule.draw (.oneIn 5)) fun _ => .pure chains _
    intro chosen
    apply Keeps.ite <;> intro _
    · apply Keeps.bind chains (kept _ _ _ _ _)
      intro changed
      exact .ite (fun _ => .pure chains _) fun _ => rule.enqueue _
    · exact rule.enqueue _
  · exact rule.enqueue _

end MutSteps

/-- Any list can be looped over when the rule admits lists without an element. -/
theorem MutRule.foreach {R : MutState → MutState → Prop} {E : MutState → Stop → MutState → Prop}
    (rule : MutRule R E) {α : Type} (labels : CList α) : Keeps R E labels.foreach :=
  .ite (fun _ => .pure rule.toChains _) fun _ s => rule.uninitializedList s

end Swam
