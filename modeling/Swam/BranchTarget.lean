import Swam.Mutating

/-!
# Branch target mutation

`wasmBranchTargetMutate` sends branches to other labels in scope. A branch that needs another
operand gets a generated one; a conditional branch keeps its old operand in a local, from where
it is handed on.
-/
namespace Swam

open Binaryen Mut

/-! ## Labels and locals in scope -/

/-- A list of the list library, which does not loop over a list that never had an element. -/
structure CList (α : Type) where
  elements : List α
  initialized : Bool
  deriving DecidableEq, Repr

namespace CList

def empty {α : Type} : CList α := ⟨[], false⟩

def append {α : Type} (list : CList α) (el : α) : CList α := ⟨list.elements ++ [el], true⟩

/-- Remove the element that was appended at a position. -/
def remove {α : Type} (list : CList α) (position : Nat) : CList α :=
  { list with elements := list.elements.eraseIdx position }

/-- The elements a loop goes through. -/
def foreach {α : Type} (list : CList α) : Mut (List α) :=
  if list.initialized then pure list.elements else throw .uninitializedList

end CList

/-- The label of a block that can be left, or of a loop. -/
def labelOf : Kind → Option LabelCxt
  | .block (some name) ty =>
    if wasmSimplifyType ty = .unreachable then none else some ⟨name, wasmSimplifyType ty⟩
  | .loop (some name) => some ⟨name, Ty.none⟩
  | _ => none

mutual
/-- Whether the target was found, and the labels on the way to it. -/
def wasmFindAvailableLabels (target : Nat) : ExprRef → CList LabelCxt → Bool × CList LabelCxt
  | .null, labelCxt => (false, labelCxt)
  | .node addr kind children, labelCxt =>
    if addr = target then (true, labelCxt)
    else
      match labelOf kind with
      | none =>
        if kind.isEnumerated then findAmong target children labelCxt else (false, labelCxt)
      | some label =>
        let searched := findAmong target children (labelCxt.append label)
        if searched.1 then searched
        else (false, searched.2.remove labelCxt.elements.length)

/-- The search goes on to the next child until the target is found. -/
def findAmong (target : Nat) : List ExprRef → CList LabelCxt → Bool × CList LabelCxt
  | [], labelCxt => (false, labelCxt)
  | child :: rest, labelCxt =>
    let searched := wasmFindAvailableLabels target child labelCxt
    if searched.1 then searched else findAmong target rest searched.2
end

/-- All locals of a function, parameters first. -/
def wasmFindAvailableLocals (f : Func) : List LocalCxt :=
  (f.params.expand.map Ty.one ++ f.vars).foldl
    (fun localCxt ty => localCxt ++ [⟨true, wasmSimplifyType ty, localCxt.length⟩]) []

/-! ## Branches -/

/-- Where a branch stands: the function, the parent, the position among its children, the
reference to the branch and its type. -/
structure Site where
  func : Nat
  parent : Nat
  ind : Nat
  child : Nat
  ty : Ty

/-- The type of the label a branch names, the last one in the list when there are several. -/
def labelType (labelCxt : List LabelCxt) (name : String) : Ty :=
  ((labelCxt.filter (·.labelName = name)).getLast?.map (·.labelType)).getD Ty.none

/-- The operand of a branch to a label of a type, with the locals it leaves. -/
def newOperand (newType : Ty) (localCxt : List LocalCxt) (labelCxt : List LabelCxt) :
    Mut (ExprRef × List LocalCxt) := do
  if newType = Ty.none then return (.null, localCxt)
  else
    let (expr, localCxt) ← generate localCxt labelCxt (wasmGenerateInstrSeqsBaseCase 1 newType)
    let value ← allocExpr expr
    return (value, localCxt)

/-- Give a branch another operand. -/
def setValue (branch : Nat) (value : ExprRef) : Mut Unit :=
  write branch fun k cs => (k, cs.set 0 value)

/-- A new local at the end of the context. -/
def newLocal (localCxt : List LocalCxt) (ty : Ty) : LocalCxt := ⟨false, ty, localCxt.length⟩

/-- The old operand of a conditional branch is saved. -/
def saveOperand (oriType : Ty) (value : ExprRef) (localCxt : List LocalCxt) :
    Mut (List ExprRef × List LocalCxt) := do
  if oriType = Ty.none then return ([], localCxt)
  else
    let oriLocal := newLocal localCxt oriType
    let oriLocalSet ← alloc (.localSet oriLocal.localIdx) [value]
    enqueueRef oriLocalSet
    return ([oriLocalSet], localCxt ++ [oriLocal])

/-- What the new branch hands on goes to a local that nothing reads. -/
def dropOperand (newType : Ty) (branch : ExprRef) (localCxt : List LocalCxt) :
    Mut (ExprRef × List LocalCxt) := do
  if newType = Ty.none then return (branch, localCxt)
  else
    let new := newLocal localCxt newType
    let newLocalSet ← alloc (.localSet new.localIdx) [branch]
    return (newLocalSet, localCxt ++ [new])

def fetchOperand (oriIdx : Nat) (oriType : Ty) : Mut (List ExprRef) := do
  if oriType = Ty.none then return []
  else
    let get ← alloc (.localGet oriIdx oriType) []
    return [get]

/-- A conditional branch to a new label: the operand it had is saved, the new branch runs, and
the operand is fetched again. -/
def retargetBrIf (site : Site) (value : ExprRef) (oriType newType : Ty)
    (localCxt : List LocalCxt) (labelCxt : List LabelCxt) : Mut (List LocalCxt) := do
  let oriIdx := localCxt.length
  let (saved, localCxt) ← saveOperand oriType value localCxt
  let (newValue, localCxt) ← newOperand newType localCxt labelCxt
  setValue site.child newValue
  let branch ← deref site.child
  let (taken, localCxt) ← dropOperand newType branch localCxt
  let fetched ← fetchOperand oriIdx oriType
  let label ← draw Gen.freshName
  let blockType := if site.ty = .unreachable then .unreachable else oriType
  let block ← alloc (.block (some label) blockType) (saved ++ [taken] ++ fetched)
  setChild site.parent block site.ind
  return localCxt

/-- A `br` or `br_if`. The answer tells whether there was another label. -/
def retargetBreak (site : Site) (name : String) (value cond : ExprRef)
    (localCxt : List LocalCxt) (labels : CList LabelCxt) : Mut (Bool × List LocalCxt) := do
  let labelCxt ← labels.foreach
  match ← draw (Gen.choose (labelCxt.filter (·.labelName ≠ name)) none) with
  | none => return (false, localCxt)
  | some new =>
    write site.child fun _ cs => (.break_ new.labelName, cs)
    if cond.addr?.isSome then
      let localCxt ← retargetBrIf site value (labelType labelCxt name) new.labelType
        localCxt labelCxt
      return (true, localCxt)
    else
      let (newValue, localCxt) ← newOperand new.labelType localCxt labelCxt
      setValue site.child newValue
      replace value.addrs
      return (true, localCxt)

/-- The first two strategies for a `br_table`: a label of the same type is inserted, or takes
the place of another. -/
def switchName (site : Site) (insert : Bool) (names : List String) (dft : String)
    (labels : CList LabelCxt) : Mut Unit := do
  let labelCxt ← labels.foreach
  let oriType := labelType labelCxt dft
  let new ← draw (Gen.choose (labelCxt.filter (·.labelType = oriType)) none)
  let selected ← draw (Gen.below (names.length + 1))
  match new with
  | none => throw .nullLabel
  | some new =>
    let changed : List String × String :=
      if insert then (names.insertIdx selected new.labelName, dft)
      else if selected = names.length then (names, new.labelName)
      else (names.set selected new.labelName, dft)
    write site.child fun _ cs => (.switch changed.1 changed.2, cs)
    enqueue site.child

/-- Labels of a new `br_table`. -/
def drawLabels (labels : List LabelCxt) : Nat → Gen (List String)
  | 0 => return []
  | n + 1 => do
    let label ← Gen.pick labels
    let names ← drawLabels labels n
    return (label.map (·.labelName)).toList ++ names

/-- A new `br_table` over labels of another type, with the old condition. -/
def switchType (site : Site) (dft : String) (value cond : ExprRef) (localCxt : List LocalCxt)
    (labels : CList LabelCxt) : Mut (Bool × List LocalCxt) := do
  let labelCxt ← labels.foreach
  let oriType := labelType labelCxt dft
  match ← draw (Gen.choose (labelCxt.filter (·.labelType ≠ oriType)) none) with
  | none => return (false, localCxt)
  | some new =>
    let newLabels := labelCxt.filter (·.labelType = new.labelType)
    let numCands ← draw (Gen.below 10)
    let names ← draw (drawLabels newLabels (numCands + 1))
    match ← draw (Gen.pick newLabels) with
    | none => throw .fatal
    | some defaults =>
      let (newValue, localCxt) ← newOperand new.labelType localCxt labelCxt
      let switch ← alloc (.switch names defaults.labelName) [newValue, cond]
      setChild site.parent switch site.ind
      replace (site.child :: value.addrs)
      enqueueRef cond
      return (true, localCxt)

/-- A `br_table`. The answer tells whether it was changed. -/
def retargetSwitch (site : Site) (names : List String) (dft : String) (value cond : ExprRef)
    (localCxt : List LocalCxt) (labels : CList LabelCxt) : Mut (Bool × List LocalCxt) := do
  let strategy ← draw (Gen.below 4)
  if strategy = 0 ∨ strategy = 1 then
    switchName site (strategy = 0) names dft labels
    return (true, localCxt)
  else if strategy = 2 then
    if names.length = 0 then return (false, localCxt)
    else
      let selected ← draw (Gen.below names.length)
      write site.child fun _ cs => (.switch (names.eraseIdx selected) dft, cs)
      enqueue site.child
      return (true, localCxt)
  else switchType site dft value cond localCxt labels

def retargetKind (site : Site) (kind : Kind) (value cond : ExprRef) (localCxt : List LocalCxt)
    (labels : CList LabelCxt) : Mut (Bool × List LocalCxt) :=
  match kind with
  | .break_ name => retargetBreak site name value cond localCxt labels
  | .switch names dft => retargetSwitch site names dft value cond localCxt labels
  | _ => return (false, localCxt)

/-! ## The mutator -/

/-- The new locals of the context become variables of the function. -/
def addVars (func : Nat) : List LocalCxt → Mut Unit
  | [] => return ()
  | el :: rest => do
    if el.preAdded then addVars func rest
    else
      let created ← addVar func el.localType
      modify fun s => { s with addedVars := s.addedVars ++ [⟨func, el, created⟩] }
      addVars func rest

/-- A branch that is to be changed. The answer tells whether it was. -/
def retarget (site : Site) (body : Nat) (kind : Kind) (value cond : ExprRef) : Mut Bool := do
  let root ← deref body
  let labels := (wasmFindAvailableLabels site.child root CList.empty).2
  match (← get).mod.functions[site.func]? with
  | none => throw .fatal
  | some func =>
    let localCxt := wasmFindAvailableLocals func
    let (changed, localCxt) ← retargetKind site kind value cond localCxt labels
    addVars site.func localCxt
    countIf changed
    return changed

def isBranch : Kind → Bool
  | .break_ _ | .switch _ _ => true
  | _ => false

def branchChild (func body parent : Nat) (ind child : Nat) : Mut Unit := do
  match ← deref child with
  | .node addr kind [value, cond] =>
    let chosen ← (if isBranch kind then draw (Gen.oneIn 5) else pure false)
    if chosen then
      let ty := (ExprRef.node addr kind [value, cond]).expr.ty
      if ← retarget ⟨func, parent, ind, child, ty⟩ body kind value cond then return ()
      else enqueue child
    else enqueue child
  | _ => enqueue child

def branchMutationMax : Nat := 3

def wasmBranchTargetMutate : Mut Nat :=
  mutate branchMutationMax fun func body _ el => do
    let node ← deref el
    eachChild (branchChild func body el) (childAddrs node) 0

end Swam
