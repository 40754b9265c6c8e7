import Swam.FreshNames
import Swam.TreeInvariant

/-!
# Loops over lists

The list library ends the process on a loop over a list that never had an element. The mutators
look at the number of elements first, but for the labels in scope at a branch: these may be none,
for the label of a block that never completes is not one of them. Whether the list of labels ever
had an element is read off the order in which the search goes through the body, and the runs that
the process survives are told by the branches they meet.
-/
namespace Swam

open Binaryen Mut Lib
open ExprRef (findAll?)

/-! ## The search for a branch -/

mutual
/-- The nodes in the order in which the search comes to them. -/
def searchOrder : ExprRef → List (Nat × Kind)
  | .null => []
  | .node addr kind children =>
    (addr, kind) :: if kind.isEnumerated then searchOrderAll children else []

def searchOrderAll : List ExprRef → List (Nat × Kind)
  | [] => []
  | child :: rest => searchOrder child ++ searchOrderAll rest
end

/-- One of the nodes before the target has a label. -/
def LabelAmong (target : Nat) (nodes : List (Nat × Kind)) : Prop :=
  ∃ n ∈ nodes.takeWhile (·.1 ≠ target), (labelOf n.2).isSome = true

/-- The search comes to a label before it comes to the target. -/
def LabelBefore (target : Nat) (root : ExprRef) : Prop := LabelAmong target (searchOrder root)

section
variable {target : Nat}

theorem not_labelAmong_nil : ¬ LabelAmong target [] := by
  rintro ⟨_, member, _⟩
  cases member

theorem labelAmong_cons {addr : Nat} {kind : Kind} {rest : List (Nat × Kind)} :
    LabelAmong target ((addr, kind) :: rest) ↔
      addr ≠ target ∧ ((labelOf kind).isSome = true ∨ LabelAmong target rest) := by
  unfold LabelAmong
  by_cases here : addr = target
  · simp [here]
  · simp [here]

/-- What comes after the target does not count. -/
theorem labelAmong_append {xs ys : List (Nat × Kind)} :
    LabelAmong target (xs ++ ys) ↔
      LabelAmong target xs ∨ target ∉ xs.map Prod.fst ∧ LabelAmong target ys := by
  induction xs with
  | nil => simp [not_labelAmong_nil]
  | cons n rest ih =>
    obtain ⟨addr, kind⟩ := n
    rw [List.cons_append, labelAmong_cons, labelAmong_cons, ih, List.map_cons, List.mem_cons]
    by_cases here : addr = target
    · simp [here]
    · simp only [here, ne_eq, not_false_eq_true, true_and, Ne.symm here, false_or]
      tauto

theorem isEnumerated_of_labelOf {kind : Kind} {label : LabelCxt} (labelled : labelOf kind = some label) :
    kind.isEnumerated = true := by
  cases kind with
  | block _ _ => rfl
  | loop _ => rfl
  | _ => cases labelled

/-- The search finds the target just when it comes to it, and the list has had an element just
when there was one before or a label comes first. -/
structure Searched (target : Nat) (nodes : List (Nat × Kind)) (before : CList LabelCxt)
    (answer : Bool × CList LabelCxt) : Prop where
  found : answer.1 = true ↔ target ∈ nodes.map Prod.fst
  initialized : answer.2.initialized = true ↔ before.initialized = true ∨ LabelAmong target nodes

private theorem findAmong_searched {children : List ExprRef}
    (each : ∀ c ∈ children, ∀ labelCxt,
      Searched target (searchOrder c) labelCxt (wasmFindAvailableLabels target c labelCxt))
    (labelCxt : CList LabelCxt) :
    Searched target (searchOrderAll children) labelCxt (findAmong target children labelCxt) := by
  induction children generalizing labelCxt with
  | nil => exact ⟨by simp [findAmong, searchOrderAll], by simp [findAmong, searchOrderAll, not_labelAmong_nil]⟩
  | cons child rest ih =>
    have first := each child List.mem_cons_self labelCxt
    rw [findAmong, searchOrderAll]
    split
    next here =>
      have met := first.found.mp here
      refine ⟨iff_of_true here ?_, ?_⟩
      · rw [List.map_append]
        exact List.mem_append_left _ met
      · rw [first.initialized, labelAmong_append]
        simp [met]
    next away =>
      have missed : target ∉ (searchOrder child).map Prod.fst := fun met => away (first.found.mpr met)
      have onward := ih (fun c member => each c (List.mem_cons_of_mem _ member))
        (wasmFindAvailableLabels target child labelCxt).2
      refine ⟨?_, ?_⟩
      · rw [onward.found, List.map_append, List.mem_append]
        exact (or_iff_right missed).symm
      · rw [onward.initialized, first.initialized, labelAmong_append, or_assoc]
        simp [missed]

theorem wasmFindAvailableLabels_searched (e : ExprRef) (labelCxt : CList LabelCxt) :
    Searched target (searchOrder e) labelCxt (wasmFindAvailableLabels target e labelCxt) := by
  induction e generalizing labelCxt with
  | null => exact ⟨by simp [wasmFindAvailableLabels, searchOrder],
      by simp [wasmFindAvailableLabels, searchOrder, not_labelAmong_nil]⟩
  | node addr kind children ih =>
    rw [wasmFindAvailableLabels, searchOrder]
    by_cases here : addr = target
    · rw [if_pos here]
      exact ⟨by simp [here], by simp [labelAmong_cons, here]⟩
    have later : ∀ nodes, target ∈ ((addr, kind) :: nodes).map Prod.fst ↔ target ∈ nodes.map Prod.fst := by
      intro nodes
      rw [List.map_cons, List.mem_cons]
      exact or_iff_right (Ne.symm here)
    have inside := findAmong_searched ih
    rw [if_neg here]
    cases labelled : labelOf kind with
    | none =>
      dsimp only
      split
      next enumerated =>
        refine ⟨(inside labelCxt).found.trans (later _).symm, ?_⟩
        rw [(inside labelCxt).initialized, labelAmong_cons, labelled]
        simp [here]
      next leaf =>
        refine ⟨iff_of_false Bool.false_ne_true ?_, ?_⟩
        · rw [later]
          exact List.not_mem_nil
        · simp [labelAmong_cons, labelled, not_labelAmong_nil]
    | some label =>
      rw [isEnumerated_of_labelOf labelled, if_pos rfl]
      -- the label was appended, and the list stays one that had an element
      have searched := inside (labelCxt.append label)
      have had := searched.initialized.mpr (.inl rfl)
      have counts : LabelAmong target ((addr, kind) :: searchOrderAll children) :=
        labelAmong_cons.mpr ⟨here, .inl (by rw [labelled]; rfl)⟩
      dsimp only
      split
      next found => exact ⟨searched.found.trans (later _).symm, iff_of_true had (.inr counts)⟩
      next missed =>
        refine ⟨iff_of_false Bool.false_ne_true ?_, iff_of_true had (.inr counts)⟩
        exact fun met => missed (searched.found.mpr ((later _).mp met))

/-- The labels in scope can be looped over just when a label comes before the target. -/
theorem labels_initialized (root : ExprRef) :
    (wasmFindAvailableLabels target root CList.empty).2.initialized = true ↔ LabelBefore target root := by
  rw [(wasmFindAvailableLabels_searched root CList.empty).initialized]
  exact or_iff_right (by decide)

end

/-! ## Everything else -/

/-- The generators loop over a list only where it has an element. -/
theorem quietGenRule : GenRule (fun _ _ => True) fun _ e _ => e ≠ .uninitializedList where
  refl := fun _ => trivial
  trans := fun _ _ => trivial
  stop := fun _ differ => differ
  rand := fun _ _ => trivial
  instr := fun _ => trivial
  table := fun _ => trivial
  newLocal := fun _ _ => trivial
  fatal := fun _ => by decide
  endless := fun _ => by decide
  tableTaken := fun _ _ => by decide
  newGlobal := fun _ _ _ => trivial
  globalTaken := fun _ _ => by decide
  newName := fun _ => trivial
  label := fun _ _ => trivial
  labelStop := fun _ differ => differ

/-- No step of a mutator besides the loops over labels ends in one over a list without an
element. -/
theorem quietSteps : ModuleSteps (fun _ _ => True) fun _ e _ => e ≠ .uninitializedList where
  refl := fun _ => trivial
  trans := fun _ _ => trivial
  stop := fun _ differ => differ
  memory := fun _ _ _ => trivial
  list := fun _ _ => trivial
  counted := fun _ _ => trivial
  noted := fun _ _ => trivial
  generate := fun _ _ _ generates _ => ends_generate.mpr (generates _ _ quietGenRule _)
  fatal := fun _ => by decide
  endless := fun _ => by decide
  nullLabel := fun _ => by decide
  adds := fun _ _ _ _ => trivial
  tableTaken := fun _ _ => by decide
  newVar := fun _ _ _ => trivial
  recorded := fun _ _ => trivial
  newFunction := fun _ _ _ => trivial
  functionTaken := fun _ _ => by decide

/-- A run from the state does not end in a loop over a list without an element. -/
abbrev LoopsSafely {α : Type} (x : Mut α) (s : MutState) : Prop := Avoids .uninitializedList x s

theorem foreach_loopsSafely {α : Type} (list : CList α) (s : MutState) :
    LoopsSafely list.foreach s ↔ list.initialized = true := by
  rw [CList.foreach, LoopsSafely, Avoids.ite_iff]
  constructor
  · rintro ⟨_, never⟩
    by_contra missing
    exact never missing rfl
  · exact fun had => ⟨fun _ => .pure _, fun missing => absurd had missing⟩

theorem deref_loopsSafely {α : Type} (addr : Nat) (f : ExprRef → Mut α) (s : MutState) :
    LoopsSafely (deref addr >>= f) s ↔
      ∀ n, findAll? addr s.bodies = some n → LoopsSafely (f n) s := by
  rw [LoopsSafely, deref, bind_assoc, Avoids.get_iff]
  cases findAll? addr s.bodies with
  | none => exact iff_of_true (by exact (by decide : Stop.fatal ≠ .uninitializedList)) (by simp)
  | some n => simp

/-! ## Branches -/

/-- The labels in scope are looked through, whatever is drawn but for a `br_table` that only loses a
label. -/
def LooksAtLabels : Kind → Rand → Prop
  | .break_ _, _ => True
  | .switch _ _, rand => (randBelow 4 rand).1 ≠ 2
  | _, _ => False

section
variable {s : MutState}

/-- A strategy is drawn for a `br_table`, and only the removal of a label looks at none. -/
theorem retargetSwitch_loopsSafely {labels : CList LabelCxt} (never : labels.initialized ≠ true)
    (site : Site) (names : List String) (dft : String) (value cond : ExprRef) (localCxt : List LocalCxt) :
    LoopsSafely (retargetSwitch site names dft value cond localCxt labels) s ↔
      (randBelow 4 s.rand).1 = 2 := by
  have unsafe_ : ∀ {α : Type} (f : List LabelCxt → Mut α) (t : MutState),
      ¬ LoopsSafely (labels.foreach >>= f) t := by
    intro α f t safe
    exact never ((foreach_loopsSafely labels t).mp (Avoids.bind_iff.mp safe).1)
  let t : MutState := { s with rand := (randBelow 4 s.rand).2 }
  have drawn : LoopsSafely (retargetSwitch site names dft value cond localCxt labels) s ↔
      LoopsSafely (if (randBelow 4 s.rand).1 = 0 ∨ (randBelow 4 s.rand).1 = 1 then do
          switchName site ((randBelow 4 s.rand).1 = 0) names dft labels
          return (true, localCxt)
        else if (randBelow 4 s.rand).1 = 2 then
          if names.length = 0 then return (false, localCxt)
          else do
            let selected ← draw (Gen.below names.length)
            write site.child fun _ cs => (.switch (names.eraseIdx selected) dft, cs)
            enqueue site.child
            return (true, localCxt)
        else switchType site dft value cond localCxt labels) t := Iff.rfl
  rw [drawn]
  by_cases changed : (randBelow 4 s.rand).1 = 0 ∨ (randBelow 4 s.rand).1 = 1
  · rw [if_pos changed]
    refine iff_of_false ?_ (by omega)
    intro safe
    exact unsafe_ _ t (Avoids.bind_iff.mp safe).1
  rw [if_neg changed]
  by_cases removed : (randBelow 4 s.rand).1 = 2
  · rw [if_pos removed]
    refine iff_of_true ?_ removed
    apply Avoids.of_keeps (R := fun _ _ => True)
    apply Keeps.ite <;> intro _
    · exact .pure quietSteps.toChains _
    · apply Keeps.bind quietSteps.toChains (quietSteps.draw (.below _))
      intro selected
      apply Keeps.bind quietSteps.toChains (quietSteps.write _ _)
      intro _
      exact .bind quietSteps.toChains (quietSteps.enqueue _) fun _ => .pure quietSteps.toChains _
  · rw [if_neg removed]
    exact iff_of_false (unsafe_ _ t) removed

theorem retargetKind_loopsSafely (site : Site) (kind : Kind) (value cond : ExprRef)
    (localCxt : List LocalCxt) (labels : CList LabelCxt) :
    LoopsSafely (retargetKind site kind value cond localCxt labels) s ↔
      (LooksAtLabels kind s.rand → labels.initialized = true) := by
  by_cases had : labels.initialized = true
  · have listed : Keeps (fun _ _ => True) (fun _ e _ => e ≠ .uninitializedList) labels.foreach := by
      rw [CList.foreach, if_pos had]
      exact .pure quietSteps.toChains _
    exact iff_of_true (.of_keeps (quietSteps.retargetKind listed _ _ _ _ _)) fun _ => had
  · cases kind with
    | break_ name =>
      refine iff_of_false ?_ fun all => had (all trivial)
      intro safe
      exact had ((foreach_loopsSafely labels s).mp (Avoids.bind_iff.mp safe).1)
    | switch names dft =>
      apply (retargetSwitch_loopsSafely had site names dft value cond localCxt).trans
      rw [LooksAtLabels]
      constructor
      · exact fun removed looks => absurd removed looks
      · intro all
        by_contra looks
        exact had (all looks)
    | _ => exact iff_of_true (.pure _) fun looks => looks.elim

theorem retarget_loopsSafely (site : Site) (body : Nat) (kind : Kind) (value cond : ExprRef) :
    LoopsSafely (retarget site body kind value cond) s ↔
      ∀ root f, findAll? body s.bodies = some root → s.mod.functions[site.func]? = some f →
        LooksAtLabels kind s.rand → LabelBefore site.child root := by
  rw [retarget, deref_loopsSafely]
  refine Iff.trans (b := ∀ root, findAll? body s.bodies = some root → ∀ f,
    s.mod.functions[site.func]? = some f → LooksAtLabels kind s.rand → LabelBefore site.child root)
    (forall_congr' fun root => imp_congr_right fun _ => ?_) ?_
  · rw [LoopsSafely, Avoids.get_iff]
    cases s.mod.functions[site.func]? with
    | none => exact iff_of_true (by exact (by decide : Stop.fatal ≠ .uninitializedList)) (by simp)
    | some f =>
      have finished : ∀ (answer : Bool × List LocalCxt) t,
          LoopsSafely (addVars site.func answer.2 >>= fun _ => countIf answer.1 >>= fun _ =>
            (pure answer.1 : Mut Bool)) t := by
        intro answer t
        apply Avoids.of_keeps (R := fun _ _ => True)
        apply Keeps.bind quietSteps.toChains (quietSteps.addVars _ _)
        intro _
        exact .bind quietSteps.toChains (quietSteps.countIf _) fun _ => .pure quietSteps.toChains _
      dsimp only
      rw [Avoids.bind_iff_first finished]
      apply (retargetKind_loopsSafely site kind value cond _ _).trans
      rw [labels_initialized]
      constructor
      · rintro found _ ⟨⟩
        exact found
      · exact fun found => found f rfl
  · exact ⟨fun found root f here => found root here f, fun found root here f => found root f here⟩

/-- A branch that is going to be changed looks for labels, and none comes before it. -/
def MissesLabels (func body child : Nat) (s : MutState) : Prop :=
  ∃ kind value cond root f, findAll? child s.bodies = some (.node child kind [value, cond]) ∧
    (randBelow 5 s.rand).1 = 0 ∧ LooksAtLabels kind (randBelow 5 s.rand).2 ∧
    findAll? body s.bodies = some root ∧ s.mod.functions[func]? = some f ∧ ¬ LabelBefore child root

theorem branchChild_loopsSafely (func body parent ind child : Nat) :
    LoopsSafely (branchChild func body parent ind child) s ↔ ¬ MissesLabels func body child s := by
  have queued : ∀ t, LoopsSafely (enqueue child) t := fun t =>
    .of_keeps (quietSteps.enqueue child)
  rw [branchChild, deref_loopsSafely]
  cases found : findAll? child s.bodies with
  | none =>
    refine iff_of_true (by simp) ?_
    rintro ⟨kind, value, cond, root, f, here, _⟩
    rw [found] at here
    cases here
  | some n =>
    obtain ⟨kind, cs, rfl⟩ := (ExprRef.findAll?_found_in found).node
    -- a branch has two children, and another node is only enqueued
    have other : (∀ value cond, cs ≠ [value, cond]) → ¬ MissesLabels func body child s := by
      rintro differ ⟨kind', value, cond, root, f, here, _⟩
      rw [found] at here
      cases here
      exact differ value cond rfl
    simp only [Option.some.injEq, forall_eq']
    rcases cs with _ | ⟨value, _ | ⟨cond, _ | ⟨third, rest⟩⟩⟩
    · exact iff_of_true (queued s) (other (by simp))
    · exact iff_of_true (queued s) (other (by simp))
    · dsimp only
      by_cases branch : isBranch kind = true
      · rw [if_pos branch]
        let t : MutState := { s with rand := (randBelow 5 s.rand).2 }
        have drawn : draw (Gen.oneIn 5) s = .ok (decide ((randBelow 5 s.rand).1 = 0)) t := rfl
        rw [LoopsSafely, Avoids.bind_iff_second drawn]
        by_cases chosen : (randBelow 5 s.rand).1 = 0
        · rw [if_pos (by simpa using chosen), Avoids.bind_iff_first]
          · apply (retarget_loopsSafely _ body kind value cond).trans
            constructor
            · rintro safe ⟨kind', value', cond', root, f, here, _, looks, inBody, inModule, none⟩
              rw [found] at here
              cases here
              exact none (safe root f inBody inModule looks)
            · intro finds root f inBody inModule looks
              by_contra none
              exact finds ⟨kind, value, cond, root, f, found, chosen, looks, inBody, inModule, none⟩
          · intro changed u
            exact Avoids.ite_iff.mpr ⟨fun _ => .pure _, fun _ => queued u⟩
        · rw [if_neg (by simpa using chosen)]
          refine iff_of_true (queued t) ?_
          rintro ⟨_, _, _, _, _, _, drawn, _⟩
          exact chosen drawn
      · rw [if_neg branch]
        refine iff_of_true (queued s) ?_
        rintro ⟨kind', _, _, _, _, here, _, looks, _⟩
        rw [found] at here
        cases here
        cases kind with
        | break_ _ => exact branch rfl
        | switch _ _ => exact branch rfl
        | _ => exact looks
    · exact iff_of_true (queued s) (other (by simp))

end

/-- No branch among the children of a node misses its labels. -/
def LabelsFound (func body : Nat) (_ : Bool) (el : Nat) (s : MutState) : Prop :=
  ∀ node, findAll? el s.bodies = some node →
    ChildrenMeet (fun _ child u => ¬ MissesLabels func body child u) (branchChild func body el)
      (childAddrs node) 0 s

theorem branchVisit_loopsSafely (func body : Nat) (whetherRootNode : Bool) (el : Nat) (s : MutState) :
    LoopsSafely (branchVisit func body whetherRootNode el) s ↔
      LabelsFound func body whetherRootNode el s := by
  rw [branchVisit, deref_loopsSafely, LabelsFound]
  apply forall_congr'
  intro node
  apply imp_congr_right
  intro _
  exact eachChild_avoids (fun ind child u => branchChild_loopsSafely func body el ind child) _ _ _

theorem branchTarget_loopsSafely (s : MutState) :
    LoopsSafely wasmBranchTargetMutate s ↔ RunMeets LabelsFound branchMutationMax branchVisit s :=
  mutate_avoids (by decide) branchVisit_loopsSafely branchMutationMax s

/-! ## Fragments -/

/-- Every branch of a copied fragment comes after a label of the body that has the original. The
copy itself is not in that body, so this asks for a label anywhere in it. -/
def BranchesLabelled (splBody expr : ExprRef) : Prop :=
  ∀ el ∈ fragmentNodes expr, ((kindAt expr el).bind branchLabel).isSome = true → LabelBefore el splBody

theorem collectBranches_loopsSafely (splBody expr : ExprRef) (nodes : List Nat) (s : MutState) :
    LoopsSafely (collectBranches splBody expr nodes) s ↔
      ∀ el ∈ nodes, ((kindAt expr el).bind branchLabel).isSome = true → LabelBefore el splBody := by
  induction nodes with
  | nil => exact iff_of_true (.pure _) nofun
  | cons el rest ih =>
    rw [collectBranches, List.forall_mem_cons]
    cases label : (kindAt expr el).bind branchLabel with
    | none =>
      dsimp only
      rw [ih]
      exact (and_iff_right nofun).symm
    | some labelName =>
      dsimp only
      rw [← @labels_initialized el splBody]
      generalize wasmFindAvailableLabels el splBody CList.empty = searched
      by_cases had : searched.2.initialized = true
      · have looped : searched.2.foreach s = .ok searched.2.elements s := by
          rw [CList.foreach, if_pos had]
          rfl
        rw [LoopsSafely, Avoids.bind_iff_second looped, Avoids.bind_iff_first fun _ _ => .pure _]
        apply ih.trans
        exact (and_iff_right fun _ => had).symm
      · refine iff_of_false ?_ fun all => had (all.1 rfl)
        intro safe
        exact had ((foreach_loopsSafely _ s).mp (Avoids.bind_iff.mp safe).1)

/-- Every step of the last loop over a fragment starts in a state that meets the condition. -/
def NodesMeet (cond : Kind → MutState → Prop)
    (fix : Kind → List LocalCxt → Mut (Option (Kind × List LocalCxt))) :
    List Nat → ExprRef → List LocalCxt → MutState → Prop
  | [], _, _, _ => True
  | el :: rest, expr, localsCur, s =>
    cond ((kindAt expr el).getD .nop) s ∧
      ∀ kind locals t, fix ((kindAt expr el).getD .nop) localsCur s = .ok (some (kind, locals)) t →
        NodesMeet cond fix rest (setKind expr el fun _ => kind) locals t

theorem fixNodes_loopsSafely {cond : Kind → MutState → Prop}
    {fix : Kind → List LocalCxt → Mut (Option (Kind × List LocalCxt))}
    (each : ∀ kind localsCur s, LoopsSafely (fix kind localsCur) s ↔ cond kind s) (nodes : List Nat)
    (expr : ExprRef) (localsCur : List LocalCxt) (s : MutState) :
    LoopsSafely (fixNodes fix nodes expr localsCur) s ↔ NodesMeet cond fix nodes expr localsCur s := by
  induction nodes generalizing expr localsCur s with
  | nil => exact iff_of_true (.pure _) trivial
  | cons el rest ih =>
    rw [fixNodes, NodesMeet, ← each _ localsCur, LoopsSafely, Avoids.bind_iff]
    apply and_congr_right
    intro _
    constructor
    · intro after kind locals t run
      exact (ih _ _ t).mp (after (some (kind, locals)) t run)
    · rintro after (_ | ⟨kind, locals⟩) t run
      · exact .pure _
      · exact (ih _ _ t).mpr (after kind locals t run)

section
variable (spl : SpliceModule) (meets : Nat → ExprRef → Frag → MutState → Prop)

/-- When a callee has to be brought along, its body meets the condition on fragments. -/
def CalleeMeets (tarFuncName : String) (s : MutState) : Prop :=
  let index := spl.mod.functions.findIdx (·.name = tarFuncName)
  ∀ tarFunc newFuncBody, spl.mod.functions[index]? = some tarFunc → spl.bodies[index]? = some newFuncBody →
    let param := wasmSimplifyType tarFunc.params
    let result := wasmSimplifyType tarFunc.results
    (wasmFindMatchingFuncs s.mod param result false).length = 0 →
      let funcInd := s.mod.functions.length
      ∀ t, shareFunction ⟨toString funcInd, param, result, tarFunc.vars, tarFunc.body⟩ newFuncBody s
          = .ok () t →
        meets funcInd newFuncBody ⟨.current funcInd, newFuncBody⟩ t

def CalleesMeet : Kind → MutState → Prop
  | .call target _, s => CalleeMeets spl meets target s
  | _, _ => True

variable {spl meets} {fixup : Nat → ExprRef → Frag → Mut (Bool × ExprRef)}
  (nested : ∀ curFunc curExpr target s,
    LoopsSafely (fixup curFunc curExpr target) s ↔ meets curFunc curExpr target s)
include nested

theorem fixCall_loopsSafely (tarFuncName : String) (s : MutState) :
    LoopsSafely (fixCall spl fixup tarFuncName) s ↔ CalleeMeets spl meets tarFuncName s := by
  rw [fixCall, CalleeMeets]
  dsimp only
  cases spl.mod.functions[spl.mod.functions.findIdx (·.name = tarFuncName)]? with
  | none => exact iff_of_true (.pure _) nofun
  | some tarFunc =>
    cases spl.bodies[spl.mod.functions.findIdx (·.name = tarFuncName)]? with
    | none => exact iff_of_true (.pure _) nofun
    | some newFuncBody =>
      dsimp only
      rw [LoopsSafely, Avoids.get_iff, Avoids.ite_iff]
      have shared : ∀ f : Func, f.name = toString s.mod.functions.length →
          LoopsSafely (shareFunction f newFuncBody) s := fun f number =>
        (quietSteps.splices.shareFunction s newFuncBody number).mono (fun _ _ _ => trivial) fun _ _ differ => differ
      constructor
      · rintro ⟨brings, _⟩ _ _ ⟨⟩ ⟨⟩ lacks t run
        have after := (Avoids.bind_iff.mp (brings lacks)).2 () t run
        exact (nested _ _ _ t).mp ((Avoids.bind_iff.mp after).1)
      · intro brings
        constructor
        · intro lacks
          rw [Avoids.bind_iff_rest (shared _ rfl)]
          intro _ t run
          rw [Avoids.bind_iff_first]
          · exact (nested _ _ _ t).mpr (brings tarFunc newFuncBody rfl rfl lacks t run)
          · exact fun _ _ => trivial
        · intro _
          apply Avoids.of_keeps (R := fun _ _ => True)
          apply Keeps.bind quietSteps.toChains (quietSteps.draw (.pick _))
          rintro (_ | func)
          · exact fun s => quietSteps.fatal s
          · exact .pure quietSteps.toChains _

omit nested in
/-- Only a call leads to another fixup. -/
theorem fixKind_congr (fixup' : Nat → ExprRef → Frag → Mut (Bool × ExprRef)) {kind : Kind}
    (other : ∀ target ty, kind ≠ .call target ty) (splFunc : Func) (curFunc : Nat) (skipped : Bool)
    (localsCur : List LocalCxt) :
    fixKind spl fixup splFunc curFunc skipped kind localsCur =
      fixKind spl fixup' splFunc curFunc skipped kind localsCur := by
  cases kind with
  | call target ty => exact absurd rfl (other target ty)
  | _ => rfl

theorem fixKind_loopsSafely (splFunc : Func) (curFunc : Nat) (skipped : Bool) (kind : Kind)
    (localsCur : List LocalCxt) (s : MutState) :
    LoopsSafely (fixKind spl fixup splFunc curFunc skipped kind localsCur) s ↔
      CalleesMeet spl meets kind s := by
  by_cases call : ∃ target ty, kind = .call target ty
  · obtain ⟨target, ty, rfl⟩ := call
    rw [CalleesMeet, ← fixCall_loopsSafely nested]
    exact Avoids.bind_iff_first fun _ _ => .pure _
  · have other : ∀ target ty, kind ≠ .call target ty := fun target ty equal => call ⟨target, ty, equal⟩
    have free : CalleesMeet spl meets kind s := by
      cases kind with
      | call target ty => exact absurd rfl (other target ty)
      | _ => trivial
    refine iff_of_true ?_ free
    let never : Nat → ExprRef → Frag → Mut (Bool × ExprRef) := fun _ _ _ => throw .endless
    have endless : ∀ curFunc curExpr target, Keeps (fun _ _ => True)
        (fun _ e _ => e ≠ .uninitializedList) (never curFunc curExpr target) :=
      fun _ _ _ s => quietSteps.endless s
    rw [fixKind_congr never other]
    exact .of_keeps (quietSteps.splices.fixKind (quietSteps.splices.fixCall endless spl) _ _ _ _ _)

end

/-- The branches of a fragment are labelled, and so are those of the fragments that the fixup comes
to through calls. -/
def FixupMeets (spl : SpliceModule) :
    Nat → (curFunc : Nat) → (curExpr : ExprRef) → (target : Frag) → MutState → Prop
  | 0, _, _, _, _ => True
  | depth + 1, curFunc, curExpr, target, s =>
    let skipped : Bool := target.func = .current curFunc && target.expr.addr? = curExpr.addr?
    ∀ splFunc splBody t, target.func.get spl s = .ok (splFunc, splBody) t →
      ∀ cur curBody u, (FuncRef.current curFunc).get spl t = .ok (cur, curBody) u →
        ∀ expr v, allocExpr target.expr.expr u = .ok expr v → isPresent expr = true →
          let nodes := fragmentNodes expr
          BranchesLabelled splBody expr ∧
            ∀ branches w, collectBranches splBody expr nodes v = .ok branches w →
              ∀ renamed x, renameLabels branches nodes expr w = .ok renamed x →
                ∀ retargeted y, (if skipped then pure (some renamed)
                    else retargetFragment cur.results splFunc.results (labelsAround curBody curExpr)
                      branches nodes renamed) x = .ok (some retargeted) y →
                  NodesMeet (CalleesMeet spl (FixupMeets spl depth))
                    (fixKind spl (wasmSplicingFixup spl depth) splFunc curFunc skipped) nodes retargeted
                    (wasmFindAvailableLocals cur) y

theorem splicingFixup_loopsSafely (spl : SpliceModule) (depth curFunc : Nat) (curExpr : ExprRef)
    (target : Frag) (s : MutState) :
    LoopsSafely (wasmSplicingFixup spl depth curFunc curExpr target) s ↔
      FixupMeets spl depth curFunc curExpr target s := by
  induction depth generalizing curFunc curExpr target s with
  | zero => exact iff_of_true (quietSteps.endless s) trivial
  | succ depth ih =>
    rw [wasmSplicingFixup, FixupMeets]
    dsimp only
    rw [LoopsSafely, Avoids.bind_iff_rest (.of_keeps (quietSteps.splices.funcRefGet spl target.func)), Prod.forall]
    refine forall_congr' fun splFunc => forall_congr' fun splBody => forall_congr' fun t =>
      imp_congr_right fun _ => ?_
    dsimp only
    rw [Avoids.bind_iff_rest (.of_keeps (quietSteps.splices.funcRefGet spl (.current curFunc))), Prod.forall]
    refine forall_congr' fun cur => forall_congr' fun curBody => forall_congr' fun u =>
      imp_congr_right fun _ => ?_
    dsimp only
    rw [Avoids.bind_iff_rest (.of_keeps (quietSteps.allocExpr _))]
    refine forall_congr' fun expr => forall_congr' fun v => imp_congr_right fun _ => ?_
    cases present : isPresent expr with
    | false => exact iff_of_true (quietSteps.fatal v) nofun
    | true =>
      rw [if_neg (by decide), forall_prop_of_true rfl]
      -- the first loop is the only one of this fixup over a list that may be without an element
      rw [Avoids.bind_iff]
      apply and_congr (collectBranches_loopsSafely splBody expr _ v)
      refine forall_congr' fun branches => forall_congr' fun w => imp_congr_right fun _ => ?_
      rw [Avoids.bind_iff_rest (.of_keeps (quietSteps.splices.renameLabels _ _ _))]
      refine forall_congr' fun renamed => forall_congr' fun x => imp_congr_right fun _ => ?_
      rw [Avoids.bind_iff_rest (.of_keeps (Keeps.ite (fun _ => .pure quietSteps.toChains _)
        fun _ => quietSteps.splices.retargetFragment _ _ _ _ _ _))]
      have finished := fixNodes_loopsSafely (@fixKind_loopsSafely spl _ _ ih splFunc curFunc
        (target.func = .current curFunc && target.expr.addr? = curExpr.addr?))
      constructor
      · intro safe retargeted y run
        exact (finished _ _ _ y).mp (safe (some retargeted) y run)
      · rintro meets (_ | retargeted) y run
        · exact .pure _
        · exact (finished _ _ _ y).mpr (meets retargeted y run)

/-! ## Runs -/

/-- A call of a mutator, or of the fixup of a fragment. -/
inductive LoopingCall where
  | interestValues
  | operators
  | callTargetFunction
  | branchTarget
  | recursive
  | splicingFixup (spl : SpliceModule) (depth curFunc : Nat) (curExpr : ExprRef) (target : Frag)

namespace LoopingCall

def run : LoopingCall → Mut Unit
  | interestValues => do let _ ← wasmInterestValuesMutate
  | operators => do let _ ← wasmOperatorsMutate
  | callTargetFunction => do let _ ← wasmCallTargetFunctionMutate
  | branchTarget => do let _ ← wasmBranchTargetMutate
  | recursive => do let _ ← InPlace.wasmRecursiveMutate
  | splicingFixup spl depth curFunc curExpr target => do
    let _ ← wasmSplicingFixup spl depth curFunc curExpr target

/-- Every branch for which the run looks through the labels in scope comes after a label. -/
def LabelsMet : LoopingCall → MutState → Prop
  | branchTarget => RunMeets LabelsFound branchMutationMax branchVisit
  | splicingFixup spl depth curFunc curExpr target => FixupMeets spl depth curFunc curExpr target
  | interestValues | operators | callTargetFunction | recursive => fun _ => True

end LoopingCall

/-- A run loops over no list without an element just when every branch that it looks up the labels
of comes after a label. Only changes of branches and fixups look labels up. -/
theorem lists_have_elements (call : LoopingCall) (s : MutState) :
    LoopsSafely call.run s ↔ call.LabelsMet s := by
  have ignored : ∀ {α : Type} (x : Mut α), LoopsSafely (x >>= fun _ => pure ()) s ↔ LoopsSafely x s :=
    fun x => Avoids.bind_iff_first fun _ _ => .pure _
  cases call with
  | interestValues =>
    exact (ignored _).trans (iff_of_true (.of_keeps quietSteps.interestValues) trivial)
  | operators => exact (ignored _).trans (iff_of_true (.of_keeps quietSteps.operators) trivial)
  | callTargetFunction => exact (ignored _).trans (iff_of_true (.of_keeps quietSteps.callTarget) trivial)
  | recursive => exact (ignored _).trans (iff_of_true (.of_keeps quietSteps.recursive) trivial)
  | branchTarget => exact (ignored _).trans (branchTarget_loopsSafely s)
  | splicingFixup spl depth curFunc curExpr target =>
    exact (ignored _).trans (splicingFixup_loopsSafely spl depth curFunc curExpr target s)

/-- A function whose only labelled block never completes, and is left by a branch whose operand
does not complete either. -/
def neverCompletes : MutState where
  mod :=
    { functions := [⟨"0", Ty.none, Ty.none, [], .null⟩]
      globals := [], exports := [], memories := [], segments := [], tables := [], features := [] }
  bodies := [.node 0 (.block (some "a") .unreachable)
    [.node 1 (.break_ "a") [.node 2 .unreachable [], .null]]]
  nextAddr := 3
  names := wasmInitNameGrp
  rand := ⟨fun _ => 0, 0⟩
  patience := 10
  childNodeList := []
  curCnt := 0
  addedVars := []
  replaced := []

private theorem neverCompletes_valid : neverCompletes.module.Valid := by
  intro f member
  cases List.mem_singleton.mp member
  refine ⟨?_, .inr (.inl rfl), by decide⟩
  change Valid _ (.node (.block (some "a") .unreachable)
    [.node (.break_ "a") [.node .unreachable [], .null]])
  refine .node ⟨nofun, ?_, fun _ => List.mem_singleton.mpr rfl, nofun⟩ ?_
  · rintro _ ⟨⟩
    exact .inl rfl
  · simp only [List.forall_mem_singleton]
    refine .node ⟨_, _, rfl, ⟨.unreachable, rfl, .inr ⟨by decide, .inl rfl⟩⟩, .inl rfl⟩ ?_
    simp only [List.forall_mem_cons]
    exact ⟨.node ⟨[], rfl, .nil⟩ (by simp), .null, by simp⟩

private theorem not_loopsSafely {α : Type} {x : Mut α} {s : MutState}
    (stops : (match x s with
      | .ok _ _ => false
      | .error e _ => decide (e = .uninitializedList)) = true) : ¬ LoopsSafely x s := by
  unfold LoopsSafely Avoids Ends
  cases run : x s with
  | ok a t =>
    rw [run] at stops
    cases stops
  | error e t =>
    rw [run] at stops
    exact fun differ => differ (of_decide_eq_true stops)

section
-- without this the statement is checked by running the mutators
attribute [local irreducible] LoopingCall.run

/-- No label comes before the branch. -/
theorem lists_have_elements_neverCompletes :
    neverCompletes.module.Valid ∧ ¬ LoopsSafely (LoopingCall.run .branchTarget) neverCompletes ∧
      ¬ LoopsSafely (LoopingCall.run (.splicingFixup ⟨neverCompletes.mod, neverCompletes.bodies⟩ 1 0
          (.node 2 .unreachable []) ⟨.splice 0, .node 1 (.break_ "a") [.node 2 .unreachable [], .null]⟩))
        neverCompletes := by
  refine ⟨neverCompletes_valid, not_loopsSafely ?_, not_loopsSafely ?_⟩
  · unfold LoopingCall.run
    decide +kernel
  · unfold LoopingCall.run
    decide +kernel

end

end Swam
