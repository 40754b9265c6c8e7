import Swam.TreeMoves

/-!
# What branch target mutation does to trees

The parts of a new node are built one after the other, each from fresh nodes and from what was
there before. A branch that gets another target is a `Move`, unless it is a `br_if` whose operand
is not saved.
-/
namespace Swam

open Binaryen Mut Lib
open ExprRef (occ occAll occ_node occ_null occAll_nil occAll_cons occAll_append occ_place le_place
  findAll? findAll?_write_same writeAll)

/-! ## Parts of a node -/

/-- What the operands of a new node are built from: everything of the old ones is used once, and
the rest is fresh. -/
structure Builds (s : MutState) (old new : List ExprRef) (t : MutState) : Prop where
  bodies : t.bodies = s.bodies
  le : s.nextAddr ≤ t.nextAddr
  replaced : t.replaced = s.replaced
  below : ∀ x, occAll x new ≤ occAll x old + if s.nextAddr ≤ x ∧ x < t.nextAddr then 1 else 0
  kept : ∀ x, occAll x old ≤ occAll x new

namespace Builds

theorem same {s t : MutState} (same : SameMemory s t) (cs : List ExprRef) : Builds s cs cs t :=
  ⟨same.bodies, Nat.le_of_eq same.nextAddr.symm, same.replaced, fun _ => Nat.le_add_right _ _,
    fun _ => Nat.le_refl _⟩

theorem alloc (s : MutState) (kind : Kind) (cs : List ExprRef) :
    Ends (alloc kind cs) s (fun new t => Builds s cs [new] t) fun _ _ => True := by
  rw [ends_alloc]
  refine ⟨rfl, Nat.le_add_right _ 1, rfl, ?_, ?_⟩
  · intro x
    simp only [occAll_cons, occAll_nil, occ_node]
    split_ifs <;> omega
  · intro x
    simp only [occAll_cons, occAll_nil, occ_node]
    omega

/-- The parts of a node are built one after the other. -/
theorem append {s t u : MutState} {old old' new new' : List ExprRef} (first : Builds s old new t)
    (second : Builds t old' new' u) : Builds s (old ++ old') (new ++ new') u := by
  refine ⟨second.bodies.trans first.bodies, Nat.le_trans first.le second.le,
    second.replaced.trans first.replaced, ?_, ?_⟩
  · intro x
    have here := first.below x
    have there := second.below x
    have span := ExprRef.span_append first.le second.le x
    rw [occAll_append, occAll_append]
    omega
  · intro x
    have here := first.kept x
    have there := second.kept x
    rw [occAll_append, occAll_append]
    omega

theorem trans {s t u : MutState} {old mid new : List ExprRef} (first : Builds s old mid t)
    (second : Builds t mid new u) : Builds s old new u := by
  refine ⟨second.bodies.trans first.bodies, Nat.le_trans first.le second.le,
    second.replaced.trans first.replaced, ?_, ?_⟩
  · intro x
    have here := first.below x
    have there := second.below x
    have span := ExprRef.span_append first.le second.le x
    omega
  · intro x
    exact Nat.le_trans (first.kept x) (second.kept x)

theorem newOperand (newType : Ty) (localCxt : List LocalCxt) (labelCxt : List LabelCxt)
    (s : MutState) :
    Ends (newOperand newType localCxt labelCxt) s (fun new t => Builds s [] [new.1] t)
      fun _ _ => True := by
  rw [Swam.newOperand, ends_ite]
  constructor
  · intro _
    exact ⟨rfl, Nat.le_refl _, rfl, fun x => Nat.zero_le _, fun x => Nat.zero_le _⟩
  · intro _
    apply Ends.bind_keeps (SameMemory.generate _ _ _) _ fun _ _ _ => trivial
    intro generated t same
    rw [ends_bind, ends_allocExpr]
    have le := le_place generated.1 t.nextAddr
    refine ⟨same.bodies, ?_, same.replaced, ?_, fun x => Nat.zero_le _⟩
    · rw [← same.nextAddr]
      exact le
    · intro x
      simp only [occAll_cons, occAll_nil, occ_place, ← same.nextAddr]
      omega

theorem saveOperand (oriType : Ty) (value : ExprRef) (localCxt : List LocalCxt) (s : MutState) :
    Ends (saveOperand oriType value localCxt) s
      (fun saved t => Builds s (if oriType = Ty.none then [] else [value]) saved.1 t)
      fun _ _ => True := by
  rw [Swam.saveOperand, ends_ite]
  constructor
  · intro none
    rw [if_pos none]
    exact same (SameMemory.chains.refl s) []
  · intro some
    rw [if_neg some, ends_bind]
    apply (alloc s _ [value]).mono _ fun _ _ _ => trivial
    intro oriLocalSet t built
    rw [ends_bind, enqueueRef]
    split
    next => exact built
    next addr _ =>
      have queued : SameMemory t { t with childNodeList := t.childNodeList ++ [addr] } :=
        ⟨rfl, rfl, rfl⟩
      exact built.trans (same queued _)

theorem dropOperand (newType : Ty) (branch : ExprRef) (localCxt : List LocalCxt) (s : MutState) :
    Ends (dropOperand newType branch localCxt) s (fun taken t => Builds s [branch] [taken.1] t)
      fun _ _ => True := by
  rw [Swam.dropOperand, ends_ite]
  constructor
  · exact fun _ => same (SameMemory.chains.refl s) _
  · intro _
    rw [ends_bind]
    exact alloc s _ [branch]

theorem fetchOperand (oriIdx : Nat) (oriType : Ty) (s : MutState) :
    Ends (fetchOperand oriIdx oriType) s (fun fetched t => Builds s [] fetched t)
      fun _ _ => True := by
  rw [Swam.fetchOperand, ends_ite]
  constructor
  · exact fun _ => same (SameMemory.chains.refl s) []
  · intro _
    rw [ends_bind]
    exact alloc s _ []

end Builds

/-! ## Branches -/

def Site.spot (site : Site) : Spot := .child site.parent site.ind

/-- What is known of a branch when it is changed: it is the child it was read from. -/
structure AtSite (site : Site) (kind : Kind) (value cond : ExprRef) (s : MutState) : Prop where
  found : findAll? site.child s.bodies = some (.node site.child kind [value, cond])
  holds : site.spot.Holds s.bodies (.node site.child kind [value, cond])

section
variable {site : Site} {kind : Kind} {value cond : ExprRef} {s : MutState}

theorem AtSite.after {t : MutState} (branch : AtSite site kind value cond s) (same : SameMemory s t) :
    AtSite site kind value cond t := by
  refine ⟨?_, ?_⟩ <;> rw [same.bodies]
  · exact branch.found
  · exact branch.holds

variable (branch : AtSite site kind value cond s)
include branch

/-- Other labels for the same operands. -/
theorem relabel_move (kind' : Kind) (queue : List Nat) :
    Move site.spot site.child s
      { s with
        bodies := writeAll site.child (fun _ cs => (kind', cs)) s.bodies
        childNodeList := queue } :=
  .write s kind [value, cond] (fun _ cs => (kind', cs)) [] (Extends.chains.refl s) branch.found
    (.same _ _ _ _ _ _ _) (Nat.le_refl _) rfl (List.append_nil _).symm

theorem switchName_move {insert : Bool} {names : List String} {dft : String}
    {labels : CList LabelCxt} :
    Ends (switchName site insert names dft labels) s
      (fun _ u => Move site.spot site.child s u) fun _ _ => True := by
  rw [switchName, ends_bind, CList.foreach, ends_ite]
  refine ⟨fun _ => ?_, fun _ => trivial⟩
  rw [ends_pure]
  apply Ends.bind_keeps (SameMemory.draw _) _ fun _ _ _ => trivial
  intro new t first
  apply Ends.bind_keeps (SameMemory.draw _) _ fun _ _ _ => trivial
  intro selected u second
  have same := SameMemory.chains.trans first second
  cases new with
  | none => trivial
  | some new =>
    rw [ends_bind, ends_write, enqueue, ends_modify]
    exact (relabel_move (branch.after same) _ _).after same

theorem switchType_move {dft : String} {localCxt : List LocalCxt} {labels : CList LabelCxt} :
    Ends (switchType site dft value cond localCxt labels) s
      (fun _ u => Move site.spot site.child s u) fun _ _ => True := by
  rw [switchType, ends_bind, CList.foreach, ends_ite]
  refine ⟨fun _ => ?_, fun _ => trivial⟩
  rw [ends_pure]
  apply Ends.bind_keeps (SameMemory.draw _) _ fun _ _ _ => trivial
  intro new t₁ first
  cases new with
  | none => exact .stay first.extends
  | some new =>
    apply Ends.bind_keeps (SameMemory.draw _) _ fun _ _ _ => trivial
    intro numCands t₂ second
    apply Ends.bind_keeps (SameMemory.draw _) _ fun _ _ _ => trivial
    intro names t₃ third
    apply Ends.bind_keeps (SameMemory.draw _) _ fun _ _ _ => trivial
    intro defaults t fourth
    have chains := SameMemory.chains
    have same := chains.trans (chains.trans (chains.trans first second) third) fourth
    cases defaults with
    | none => trivial
    | some defaults =>
      rw [ends_bind]
      apply (Builds.newOperand _ _ _ t).mono _ fun _ _ _ => trivial
      rintro ⟨newValue, localCxt⟩ u made
      rw [ends_bind]
      apply (Builds.alloc u _ _).mono _ fun _ _ _ => trivial
      intro switch v last
      have built := (made.append (.same (SameMemory.chains.refl u) [cond])).trans last
      rw [ends_bind, setChild, ends_write, ends_bind, replace, ends_modify, ends_bind]
      have renews : Renews (.node site.child kind [value, cond]) switch t.nextAddr v.nextAddr
          (site.child :: value.addrs) := by
        constructor
        · intro x
          have here := built.below x
          simp only [List.nil_append, occAll_cons, occAll_nil, occ_node] at here ⊢
          omega
        · intro x inside
          have here := built.kept x
          simp only [List.nil_append, occAll_cons, occAll_nil, occ_node] at here inside
          rw [List.mem_cons, ExprRef.mem_addrs]
          by_cases itself : site.child = x
          · exact .inr (.inl itself.symm)
          · rw [if_neg itself] at inside
            omega
      have rebuilt : Rebuilt t _ switch _ v := ⟨t, Extends.chains.refl t, built.le, built.replaced,
        renews, fun _ _ => by rw [built.bodies]⟩
      have move : ∀ queue, Move site.spot site.child s
          { v with
            bodies := site.spot.put switch v.bodies
            replaced := v.replaced ++ site.child :: value.addrs
            childNodeList := queue } := by
        intro queue
        refine Move.after ?_ same
        exact rebuilt.move (branch.after same).holds rfl rfl rfl
      unfold enqueueRef
      split
      · exact move _
      · exact move _

theorem retargetSwitch_move {names : List String} {dft : String} {localCxt : List LocalCxt}
    {labels : CList LabelCxt} :
    Ends (retargetSwitch site names dft value cond localCxt labels) s
      (fun _ u => Move site.spot site.child s u) fun _ _ => True := by
  rw [retargetSwitch]
  apply Ends.bind_keeps (SameMemory.draw _) _ fun _ _ _ => trivial
  intro strategy t same
  have branchT := branch.after same
  rw [ends_ite]
  refine ⟨fun _ => ?_, fun _ => ?_⟩
  · rw [ends_bind]
    exact (switchName_move branchT).mono (fun _ _ move => move.after same) fun _ _ _ => trivial
  rw [ends_ite]
  refine ⟨fun _ => ?_, fun _ => ?_⟩
  · rw [ends_ite]
    refine ⟨fun _ => .stay same.extends, fun _ => ?_⟩
    apply Ends.bind_keeps (SameMemory.draw _) _ fun _ _ _ => trivial
    intro selected u drawn
    have whole := SameMemory.chains.trans same drawn
    rw [ends_bind, ends_write, ends_bind, enqueue, ends_modify]
    exact (relabel_move (branch.after whole) _ _).after whole
  · exact (switchType_move branchT).mono (fun _ _ move => move.after same) fun _ _ _ => trivial

variable (tree : Tree s.bodies s.nextAddr)
include tree

/-- The block around a conditional branch has all that the branch had, when the operand is
saved. -/
theorem retargetBrIf_move {t : MutState} {kind' : Kind} {oriType newType : Ty}
    {localCxt : List LocalCxt} {labelCxt : List LabelCxt}
    (saved : oriType = Ty.none → value.addr? = none)
    (written : t = { s with bodies := writeAll site.child (fun _ cs => (kind', cs)) s.bodies }) :
    Ends (retargetBrIf site value oriType newType localCxt labelCxt) t
      (fun _ u => Move site.spot site.child s u) fun _ _ => True := by
  have foundT : findAll? site.child t.bodies = some (.node site.child kind' [value, cond]) := by
    rw [written]
    exact findAll?_write_same branch.found
  rw [retargetBrIf, ends_bind]
  apply (Builds.saveOperand oriType value localCxt t).mono _ fun _ _ _ => trivial
  rintro ⟨saved', localCxt⟩ t₁ first
  rw [ends_bind]
  apply (Builds.newOperand newType localCxt labelCxt t₁).mono _ fun _ _ _ => trivial
  rintro ⟨newValue, localCxt⟩ t₂ second
  have foundT₂ : findAll? site.child t₂.bodies = some (.node site.child kind' [value, cond]) := by
    rw [second.bodies, first.bodies, foundT]
  rw [ends_bind, setValue, ends_write, ends_bind]
  apply ends_deref _ _ trivial
  intro branch' found'
  rw [findAll?_write_same foundT₂] at found'
  cases found'
  -- from here on the state is the one in which the branch has its new operand
  have early := first.append second
  rw [ends_bind]
  apply (Builds.dropOperand newType _ localCxt _).mono _ fun _ _ _ => trivial
  rintro ⟨taken, localCxt⟩ t₄ third
  rw [ends_bind]
  apply (Builds.fetchOperand _ oriType t₄).mono _ fun _ _ _ => trivial
  intro fetched t₅ fourth
  apply Ends.bind_keeps (SameMemory.draw _) _ fun _ _ _ => trivial
  intro label t₆ named
  rw [ends_bind]
  apply (Builds.alloc t₆ _ _).mono _ fun _ _ _ => trivial
  intro block t₇ last
  have parts := ((Builds.same (SameMemory.chains.refl _) saved').append third).append fourth
  have built := (parts.trans (Builds.same named _)).trans last
  have writes : t₇.bodies = writeAll site.child
      (fun _ cs => (kind', cs.set 0 newValue)) s.bodies := by
    rw [built.bodies, early.bodies, written]
    exact ExprRef.writeAll_writeAll _ _ _ _
  have le : s.nextAddr ≤ t₇.nextAddr := by
    have here := early.le
    have there := built.le
    rw [written] at here
    exact Nat.le_trans here there
  have span := ExprRef.span_append early.le built.le
  refine Rebuilt.move (t := t₇) ⟨s, Extends.chains.refl s, le, ?_, ?_, ?_⟩ branch.holds rfl rfl
    (List.append_nil _).symm
  · rw [built.replaced]
    change t₂.replaced = _
    rw [early.replaced, written]
  · have next : t.nextAddr = s.nextAddr := by rw [written]
    rw [next] at span
    have below := early.below
    rw [next] at below
    constructor
    · intro x
      have here := below x
      have there := built.below x
      have := span x
      simp only [occAll_append, occAll_cons, occAll_nil, occ_node, List.set_cons_zero]
        at here there ⊢
      have part : occAll x (if oriType = Ty.none then [] else [value]) ≤ occ x value := by
        split <;> simp
      omega
    · intro x inside
      have here := early.kept x
      have there := built.kept x
      simp only [occAll_append, occAll_cons, occAll_nil, occ_node, List.set_cons_zero]
        at here there inside ⊢
      have part : occ x value ≤ occAll x (if oriType = Ty.none then [] else [value]) := by
        split
        next none =>
          cases absent : value with
          | null => rfl
          | node a k cs =>
            rw [absent] at saved
            cases saved none
        next => simp
      left
      omega
  · intro spot holds
    rw [writes]
    exact Spot.put_write tree holds rfl _

/-- A conditional branch loses its operand when it goes to a label that is known to take none. -/
def LosesOperand (labels : CList LabelCxt) (kind : Kind) (value cond : ExprRef) : Prop :=
  ∃ name, kind = .break_ name ∧ cond.addr?.isSome ∧ value.addr?.isSome ∧
    labelType labels.elements name = Ty.none ∧ ∃ l ∈ labels.elements, l.labelName ≠ name

theorem retargetBreak_move {name : String} {localCxt : List LocalCxt} {labels : CList LabelCxt}
    (named : kind = .break_ name) (saved : ¬ LosesOperand labels kind value cond) :
    Ends (retargetBreak site name value cond localCxt labels) s
      (fun _ u => Move site.spot site.child s u) fun _ _ => True := by
  rw [retargetBreak, ends_bind, CList.foreach, ends_ite]
  refine ⟨fun _ => ?_, fun _ => trivial⟩
  rw [ends_pure, ends_bind]
  apply (SameMemory.returned (choose_mem _ _) s).mono _ fun _ _ _ => trivial
  rintro chosen t ⟨among, same⟩
  cases chosen with
  | none => exact .stay same.extends
  | some new =>
    have branchT := branch.after same
    rw [← same.bodies, ← same.nextAddr] at tree
    rw [ends_bind, ends_write, ends_ite]
    constructor
    · -- the operand of a conditional branch is saved in a local
      intro conditional
      have other : ∃ l ∈ labels.elements, l.labelName ≠ name := by
        rcases among new rfl with inside | impossible
        · rw [List.mem_filter] at inside
          exact ⟨new, inside.1, by simpa using inside.2⟩
        · cases impossible
      have kept : labelType labels.elements name = Ty.none → value.addr? = none := by
        intro taken
        by_contra present
        exact saved ⟨name, named, conditional, Option.isSome_iff_ne_none.mpr present, taken, other⟩
      rw [ends_bind]
      apply (retargetBrIf_move branchT tree kept rfl).mono _ fun _ _ _ => trivial
      exact fun _ _ move => move.after same
    · -- that of an unconditional one is given up
      intro _
      rw [ends_bind]
      apply (Builds.newOperand _ _ _ _).mono _ fun _ _ _ => trivial
      rintro ⟨newValue, localCxt⟩ u built
      rw [ends_bind, setValue, ends_write, ends_bind, replace, ends_modify]
      refine Move.after ?_ same
      refine .write t kind [value, cond] (fun _ cs => (.break_ new.labelName, cs.set 0 newValue))
        value.addrs (Extends.chains.refl t) branchT.found ⟨?_, ?_⟩ built.le ?_ ?_
      · intro x
        have here := built.below x
        simp only [occAll_cons, occAll_nil, occ_node, List.set_cons_zero] at here ⊢
        omega
      · intro x inside
        rw [ExprRef.mem_addrs]
        simp only [occAll_cons, occAll_nil, occ_node, List.set_cons_zero] at inside ⊢
        omega
      · rw [built.bodies]
        exact ExprRef.writeAll_writeAll _ _ _ _
      · rw [built.replaced]

theorem retarget_move {body : Nat}
    (saved : ∀ root, findAll? body s.bodies = some root →
      ¬ LosesOperand (wasmFindAvailableLabels site.child root CList.empty).2 kind value cond) :
    Ends (retarget site body kind value cond) s
      (fun _ u => Move site.spot site.child s u) fun _ _ => True := by
  rw [retarget, ends_bind]
  apply ends_deref _ _ trivial
  intro root found
  rw [ends_bind, ends_get]
  split
  next => trivial
  next f _ =>
    rw [ends_bind]
    have moved : Ends (retargetKind site kind value cond (wasmFindAvailableLocals f)
        (wasmFindAvailableLabels site.child root CList.empty).2) s
        (fun _ u => Move site.spot site.child s u) fun _ _ => True := by
      unfold retargetKind
      split
      next name => exact retargetBreak_move branch tree rfl (saved root found)
      next names dft => exact retargetSwitch_move branch
      next => exact .stay (Extends.chains.refl s)
    apply moved.mono _ fun _ _ _ => trivial
    rintro ⟨changed, localCxt⟩ t move
    apply Ends.bind_keeps (SameMemory.addVars _ _) _ fun _ _ _ => trivial
    intro _ u added
    rw [ends_bind, countIf, ends_ite]
    constructor
    · intro _
      exact (move.before added).before ⟨rfl, rfl, rfl⟩
    · exact fun _ => move.before added

end

end Swam
