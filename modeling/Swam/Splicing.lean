import Swam.BranchTarget
import Swam.CallTarget
import Swam.Operators

/-!
# Splicing

`wasmSplicingMutate` puts fragments of a second module into the bodies of the first. A fragment
is copied before anything in it changes, and `wasmSplicingFixup` then fits the copy into its new
surroundings: labels get fresh names, branches are led to labels in scope, and locals, globals,
tables, memories and callees that the module lacks are added to it. A callee that is brought
along is fitted in the same way.
-/
namespace Swam

open Binaryen Mut

/-! ## Fragments -/

/-- The module spliced with. Its bodies are in memory too, and stay as they are. -/
structure SpliceModule where
  mod : Module
  bodies : List ExprRef

/-- `BinaryenFunctionRef`: a function of the module being mutated or of the other one. -/
inductive FuncRef where
  | current (index : Nat)
  | splice (index : Nat)
  deriving DecidableEq, Repr

structure Frag where
  func : FuncRef
  expr : ExprRef

/-- Fragments of one type. -/
structure FragGrp where
  fragType : Ty
  frags : List Frag

/-- A function and its body. -/
def FuncRef.get (spl : SpliceModule) : FuncRef → Mut (Func × ExprRef)
  | .current index => do
    let s ← MonadState.get
    match s.mod.functions[index]?, s.bodies[index]? with
    | some func, some body => return (func, body)
    | _, _ => throw .fatal
  | .splice index =>
    match spl.mod.functions[index]?, spl.bodies[index]? with
    | some func, some body => return (func, body)
    | _, _ => throw .fatal

/-! ## The nodes of a fragment -/

/-- The nodes that a loop over a list of references visits, which appends the children of each. -/
def visitOrder : Nat → List ExprRef → List Nat
  | 0, _ | _, [] => []
  | n + 1, .null :: rest => visitOrder n rest
  | n + 1, .node addr kind children :: rest =>
    addr :: visitOrder n (rest ++ if kind.isEnumerated then children.filter isPresent else [])

/-- No loop over the fragment changes the children of a node, so the order is known
beforehand. -/
def fragmentNodes (expr : ExprRef) : List Nat := visitOrder expr.addrs.length [expr]

def kindAt (expr : ExprRef) (addr : Nat) : Option Kind :=
  match expr.find? addr with
  | some (.node _ kind _) => some kind
  | _ => none

/-- Change what is stored in a node besides its children. -/
def setKind (expr : ExprRef) (addr : Nat) (change : Kind → Kind) : ExprRef :=
  expr.write addr fun k cs => (change k, cs)

/-- The label that decides on the type of a branch. -/
def branchLabel : Kind → Option String
  | .break_ name => some name
  | .switch _ dft => some dft
  | _ => none

/-! ## Labels -/

/-- A branch in the fragment, with the type of its label where that was found. -/
structure Branch where
  brInst : Nat
  brType : Option Ty

/-- The branches of the fragment. Their labels are looked up in the function the fragment comes
from. -/
def collectBranches (splBody expr : ExprRef) : List Nat → Mut (List Branch)
  | [] => return []
  | el :: rest => do
    match (kindAt expr el).bind branchLabel with
    | none => collectBranches splBody expr rest
    | some labelName =>
      -- the search is for the copied branch, in the body that has the original
      let labelsSpl ← (wasmFindAvailableLabels el splBody CList.empty).2.foreach
      let found := labelsSpl.find? (·.labelName = labelName)
      let branches ← collectBranches splBody expr rest
      return ⟨el, found.map (·.labelType)⟩ :: branches

def renameTarget (old new : String) : Kind → Kind
  | .break_ name => .break_ (if name = old then new else name)
  | .switch names dft =>
    .switch (names.map fun name => if name = old then new else name) (if dft = old then new else dft)
  | k => k

def setLabel (new : String) : Kind → Kind
  | .block _ ty => .block (some new) ty
  | .loop _ => .loop (some new)
  | k => k

/-- Rename a label in all branches of the fragment. -/
def renameBranches (branches : List Branch) (old : Option String) (new : String)
    (expr : ExprRef) : ExprRef :=
  match old with
  | none => expr
  | some old => branches.foldl (fun expr br => setKind expr br.brInst (renameTarget old new)) expr

/-- Every block and loop gets a fresh label. -/
def renameLabels (branches : List Branch) : List Nat → ExprRef → Mut ExprRef
  | [], expr => return expr
  | el :: rest, expr => do
    match kindAt expr el with
    | some (.block name _) | some (.loop name) =>
      let new ← draw Gen.freshName
      renameLabels branches rest (setKind (renameBranches branches name new expr) el (setLabel new))
    | _ => renameLabels branches rest expr

/-- The type recorded for the first branch that now has the label. -/
def recordedType (branches : List Branch) (expr : ExprRef) (labelName : String) : Option Ty :=
  branches.findSome? fun br =>
    if (kindAt expr br.brInst).bind branchLabel = some labelName then br.brType else none

/-- A branch to drawn labels. -/
def drawTargets (labels : List LabelCxt) (kind : Kind) : Gen Kind := do
  match kind with
  | .break_ name =>
    let label ← Gen.pick labels
    return .break_ ((label.map (·.labelName)).getD name)
  | .switch names dft =>
    let drawn ← drawLabels labels names.length
    let label ← Gen.pick labels
    return .switch drawn ((label.map (·.labelName)).getD dft)
  | k => return k

/-- Lead the branches to labels of the type they had, and look at the `return`s. `none` is the
failure of the fixup. -/
def retargetFragment (curResults splResults : Ty) (labelsCur : List LabelCxt)
    (branches : List Branch) : List Nat → ExprRef → Mut (Option ExprRef)
  | [], expr => return some expr
  | el :: rest, expr => do
    let kind := (kindAt expr el).getD .nop
    match branchLabel kind with
    | some labelName =>
      match recordedType branches expr labelName with
      | none => return none
      | some labelType =>
        let labelsSpl := (wasmFindAvailableLabels el expr CList.empty).2.elements
        let matched := (labelsSpl ++ labelsCur).filter (·.labelType = labelType)
        if matched.length = 0 then return none
        else
          let kind ← draw (drawTargets matched kind)
          retargetFragment curResults splResults labelsCur branches rest
            (setKind expr el fun _ => kind)
    | none =>
      if kind = .return_ ∧ wasmSimplifyType curResults ≠ wasmSimplifyType splResults then
        return none
      else retargetFragment curResults splResults labelsCur branches rest expr

/-! ## What the fragment refers to -/

/-- A local of the type that the local has in the function the fragment comes from. -/
def fixLocal (splFunc : Func) (curFunc index : Nat) (localsCur : List LocalCxt) :
    Mut (Nat × List LocalCxt) := do
  match (splFunc.params.expand.map Ty.one ++ splFunc.vars)[index]? with
  | none => throw .fatal
  | some ty =>
    let localType := wasmSimplifyType ty
    match ← draw (Gen.choose (localsCur.filter (·.localType = localType)) none) with
    | some el => return (el.localIdx, localsCur)
    | none =>
      let matchIdx ← addVar curFunc localType
      return (matchIdx, localsCur ++ [⟨false, localType, matchIdx⟩])

/-- A new global, under the number of globals as its name. -/
def addNumberedGlobal (globalType : Ty) : Gen String := do
  let newGlobalName := toString (← get).mod.globals.length
  let inits ← Gen.request (fun m r => dummyExprs m globalType.expand r) fun _ => .fatal
  Gen.addGlobal ⟨newGlobalName, globalType, true, tupleOf inits⟩
  return newGlobalName

/-- A global of the type of the global of that name in the other module. -/
def fixGlobal (spl : SpliceModule) (globalName : String) (written : Bool) : Mut (Option String) := do
  match spl.mod.getGlobal globalName with
  | none => return none
  | some global =>
    let globalType := wasmSimplifyType global.ty
    let globals := (← get).mod.globals.filter fun cur =>
      wasmSimplifyType cur.ty = globalType && (!written || cur.mutable_)
    match ← draw (Gen.choose globals none) with
    | some cur => return some cur.name
    | none =>
      let name ← draw (addNumberedGlobal globalType)
      return some name

/-- A new table, under the number of tables as its name. -/
def newTable (ty : ValTy) : Gen Table :=
  Gen.request (fun m r => (addNumberedTable m ty).map fun (table, m) => (table, m, r))
    fun _ => .nameInUse

def matchingTable (ty : ValTy) : Mut String := do
  match ← draw (Gen.choose ((← get).mod.tables.filter (·.ty.top = ty)) none) with
  | some cur => return cur.name
  | none =>
    let table ← draw (newTable ty)
    return table.name

/-- A table of the type of the table of that name in the other module. -/
def fixTable (spl : SpliceModule) (tableName : String) : Mut (Option String) := do
  match spl.mod.tables.find? (·.name = tableName) with
  | none => return none
  | some table =>
    let name ← matchingTable table.ty.top
    return some name

/-- Any table, which is made if there is none. -/
def sizedTable : Mut String := do
  if (← get).mod.tables.length = 0 then
    let _ ← draw (newTable .funcref)
    pure ()
  else pure ()
  match ← draw (Gen.pick (← get).mod.tables) with
  | some table => return table.name
  | none => throw .fatal

/-- Make a memory, with or without a segment, when the condition asks for it. -/
def memoryIf (needed : Module → Bool) (addSeg : Bool) : Gen Unit :=
  Gen.request
    (fun m r => (if needed m then wasmSetMemory m addSeg r else some (m, r)).map
      fun (m, r) => ((), m, r))
    fun _ => .fatal

/-- A segment of the module, after one was made if necessary. -/
def fixSegment (needed : Module → Bool) : Mut String := do
  draw (memoryIf needed true)
  let segInd ← draw (Gen.below (← get).mod.segments.length)
  return toString segInd

/-- `BinaryenAddFunction` over a body that is in memory already. -/
def shareFunction (f : Func) (body : ExprRef) : Mut Unit := fun s =>
  if s.mod.functions.any (·.name = f.name) then .error .nameInUse s
  else
    .ok () { s with
      mod := { s.mod with functions := s.mod.functions ++ [f] }
      bodies := s.bodies ++ [body] }

/-- A function of the signature of the function of that name in the other module. That one is
brought along when the module has none. -/
def fixCall (spl : SpliceModule) (fixup : Nat → ExprRef → Frag → Mut (Bool × ExprRef))
    (tarFuncName : String) : Mut (Option String) := do
  let index := spl.mod.functions.findIdx (·.name = tarFuncName)
  match spl.mod.functions[index]?, spl.bodies[index]? with
  | some tarFunc, some newFuncBody =>
    let param := wasmSimplifyType tarFunc.params
    let result := wasmSimplifyType tarFunc.results
    let s ← get
    let matched := wasmFindMatchingFuncs s.mod param result false
    if matched.length = 0 then
      let funcInd := s.mod.functions.length
      shareFunction ⟨toString funcInd, param, result, tarFunc.vars, tarFunc.body⟩ newFuncBody
      -- a failure inside the new function is not looked at
      let fixed ← fixup funcInd newFuncBody ⟨.current funcInd, newFuncBody⟩
      setFunctionBody funcInd fixed.2
      return some (toString funcInd)
    else
      match ← draw (Gen.pick matched) with
      | some func => return some func.name
      | none => throw .fatal
  | _, _ => return none

/-! ## The fixup -/

/-- Kinds that work on a memory. -/
def usesMemory : Kind → Bool
  | .load .. | .store .. | .simdLoad .. | .simdLoadStoreLane .. | .memorySize .. | .memoryGrow ..
  | .memoryFill _ | .memoryCopy .. => true
  | _ => false

/-- What a node stores after the fixup, with the locals of the current function. `none` is a
failure. -/
def fixKind (spl : SpliceModule) (fixup : Nat → ExprRef → Frag → Mut (Bool × ExprRef))
    (splFunc : Func) (curFunc : Nat) (skipped : Bool) (kind : Kind) (localsCur : List LocalCxt) :
    Mut (Option (Kind × List LocalCxt)) := do
  match kind with
  | .refFunc _ ty =>
    match ← draw (Gen.pick (← get).mod.functions) with
    | some func => return some (.refFunc func.name ty, localsCur)
    | none => throw .fatal
  | .localGet index ty =>
    if skipped then return some (kind, localsCur)
    else
      let (matchIdx, localsCur) ← fixLocal splFunc curFunc index localsCur
      return some (.localGet matchIdx ty, localsCur)
  | .localSet index =>
    if skipped then return some (kind, localsCur)
    else
      let (matchIdx, localsCur) ← fixLocal splFunc curFunc index localsCur
      return some (.localSet matchIdx, localsCur)
  | .localTee index ty =>
    if skipped then return some (kind, localsCur)
    else
      let (matchIdx, localsCur) ← fixLocal splFunc curFunc index localsCur
      return some (.localTee matchIdx ty, localsCur)
  | .globalGet name ty =>
    let matchName ← fixGlobal spl name false
    return matchName.map fun name => (.globalGet name ty, localsCur)
  | .globalSet name =>
    let matchName ← fixGlobal spl name true
    return matchName.map fun name => (.globalSet name, localsCur)
  | .tableGet table ty =>
    let matchName ← fixTable spl table
    return matchName.map fun name => (.tableGet name ty, localsCur)
  | .tableSet table =>
    let matchName ← fixTable spl table
    return matchName.map fun name => (.tableSet name, localsCur)
  | .tableGrow table =>
    let matchName ← fixTable spl table
    return matchName.map fun name => (.tableGrow name, localsCur)
  | .tableSize _ =>
    let name ← sizedTable
    return some (.tableSize name, localsCur)
  | .memoryInit _ mem =>
    let segName ← fixSegment fun m => !m.hasMemory || m.segments.length = 0
    return some (.memoryInit segName mem, localsCur)
  | .dataDrop _ =>
    let segName ← fixSegment fun m => m.segments.length = 0
    return some (.dataDrop segName, localsCur)
  | .callIndirect _ params results =>
    let name ← matchingTable .funcref
    return some (.callIndirect name params results, localsCur)
  | .call target ty =>
    let matchName ← fixCall spl fixup target
    return matchName.map fun name => (.call name ty, localsCur)
  | _ =>
    if usesMemory kind then
      draw (memoryIf (fun m => !m.hasMemory) false)
      return some (kind, localsCur)
    else return some (kind, localsCur)

/-- The last loop over the fragment. The answer has the fragment also after a failure. -/
def fixNodes (fix : Kind → List LocalCxt → Mut (Option (Kind × List LocalCxt))) :
    List Nat → ExprRef → List LocalCxt → Mut (Bool × ExprRef)
  | [], expr, _ => return (true, expr)
  | el :: rest, expr, localsCur => do
    match ← fix ((kindAt expr el).getD .nop) localsCur with
    | none => return (false, expr)
    | some (kind, localsCur) => fixNodes fix rest (setKind expr el fun _ => kind) localsCur

/-- The labels on the way to an expression of a function. -/
def labelsAround (body expr : ExprRef) : List LabelCxt :=
  match expr.addr? with
  | none => []
  | some addr => (wasmFindAvailableLabels addr body CList.empty).2.elements

/-- Fit a copy of the fragment in, at the place of an expression of a function. The answer tells
whether that succeeded and has the copy. `depth` bounds the recursion through calls. -/
def wasmSplicingFixup (spl : SpliceModule) :
    Nat → (curFunc : Nat) → (curExpr : ExprRef) → (target : Frag) → Mut (Bool × ExprRef)
  | 0, _, _, _ => throw .endless
  | depth + 1, curFunc, curExpr, target => do
    let skipped : Bool := target.func = .current curFunc && target.expr.addr? = curExpr.addr?
    let (splFunc, splBody) ← target.func.get spl
    let (cur, curBody) ← (FuncRef.current curFunc).get spl
    let expr ← allocExpr target.expr.expr
    -- without a copy, arrays are freed that were never set
    if !isPresent expr then throw .fatal
    else
      let nodes := fragmentNodes expr
      let branches ← collectBranches splBody expr nodes
      let expr ← renameLabels branches nodes expr
      let retargeted ← (if skipped then pure (some expr)
        else retargetFragment cur.results splFunc.results (labelsAround curBody curExpr) branches
          nodes expr)
      match retargeted with
      | none => return (false, expr)
      | some expr =>
        fixNodes (fixKind spl (wasmSplicingFixup spl depth) splFunc curFunc skipped) nodes expr
          (wasmFindAvailableLocals cur)

/-! ## The mutator -/

/-- Fragments put in so far. -/
structure SpliceCnt where
  ins : Nat
  ovw : Nat

/-- A fragment of a type, fitted in at the place of an expression. -/
def spliceFragment (spl : SpliceModule) (fragmentPool : List FragGrp) (func : Nat)
    (expr : ExprRef) (ty : Ty) : Mut (Option ExprRef) := do
  match fragmentPool.find? (·.fragType = ty) with
  | none => return none
  | some group =>
    match ← draw (Gen.pick group.frags) with
    | none => throw .fatal
    | some newFrag =>
      let (success, fixed) ← wasmSplicingFixup spl (← get).patience func expr newFrag
      return if success then some fixed else none

/-- A child that may be overwritten. The answer tells whether it was. -/
def overwriteChild (spl : SpliceModule) (fragmentPool : List FragGrp) (func el ind child : Nat) :
    Mut Bool := do
  if ← draw (Gen.oneIn 10) then
    let old ← deref child
    match ← spliceFragment spl fragmentPool func old (wasmSimplifyType old.expr.ty) with
    | none => return false
    | some fixed =>
      setChild el fixed ind
      return true
  else return false

/-- The number of children that were overwritten. -/
def overwriteChildren (spl : SpliceModule) (fragmentPool : List FragGrp) (func el : Nat) :
    List (Option Nat) → Nat → Mut Nat
  | [], _ => return 0
  | none :: rest, ind => overwriteChildren spl fragmentPool func el rest (ind + 1)
  | some child :: rest, ind => do
    let substituted ← overwriteChild spl fragmentPool func el ind child
    (if substituted then return () else enqueue child)
    let more ← overwriteChildren spl fragmentPool func el rest (ind + 1)
    return (if substituted then 1 else 0) + more

/-- A fragment that leaves nothing may be put into a block. -/
def insertFragment (spl : SpliceModule) (fragmentPool : List FragGrp) (func el : Nat) :
    Mut Bool := do
  match ← deref el with
  | .node _ (.block _ _) children =>
    if children.length = 0 then return false
    else if ← draw (Gen.oneIn 15) then
      -- the group is looked for before the position is drawn, and the fragment drawn between
      match fragmentPool.find? (·.fragType = Ty.none) with
      | none => return false
      | some group =>
        match ← draw (Gen.pick group.frags) with
        | none => throw .fatal
        | some newFrag =>
          let insIdx ← draw (Gen.below children.length)
          let old := children.getD insIdx .null
          let (success, fixed) ← wasmSplicingFixup spl (← get).patience func old newFrag
          if success then
            write el fun k cs => (k, cs.insertIdx insIdx fixed)
            return true
          else return false
    else return false
  | _ => return false

def spliceNode (spl : SpliceModule) (fragmentPool : List FragGrp) (func el : Nat)
    (cnt : SpliceCnt) : Mut SpliceCnt := do
  let node ← deref el
  let overwritten ← overwriteChildren spl fragmentPool func el (childAddrs node) 0
  let inserted ← insertFragment spl fragmentPool func el
  return ⟨cnt.ins + (if inserted then 1 else 0), cnt.ovw + overwritten⟩

def SpliceCnt.reached (cnt max : SpliceCnt) : Bool := cnt.ins ≥ max.ins || cnt.ovw ≥ max.ovw

/-- The loop over the list of references. The answer tells whether a bound was reached. -/
def spliceWalk (visit : Nat → SpliceCnt → Mut SpliceCnt) (max : SpliceCnt) :
    Nat → SpliceCnt → Mut (Bool × SpliceCnt)
  | 0, _ => throw .endless
  | n + 1, cnt => do
    match (← get).childNodeList with
    | [] => return (false, cnt)
    | el :: rest =>
      modify fun s => { s with childNodeList := rest }
      let cnt ← visit el cnt
      if cnt.reached max then return (true, cnt) else spliceWalk visit max n cnt

/-- The loop over the functions. -/
def spliceFunctions (visit : Nat → Nat → SpliceCnt → Mut SpliceCnt) (max : SpliceCnt) :
    List Nat → SpliceCnt → Mut SpliceCnt
  | [], cnt => return cnt
  | idx :: rest, cnt => do
    let s ← get
    match s.bodies[idx]?.bind ExprRef.addr? with
    | none => spliceFunctions visit max rest cnt
    | some body =>
      enqueue body
      let (full, cnt) ← spliceWalk (visit idx) max s.patience cnt
      if full then return cnt else spliceFunctions visit max rest cnt

def spliceInsertMutationMax : Nat := 4

def spliceOverwriteMutationMax : Nat := 6

/-- The number of fragments put in. -/
def wasmSplicingMutate (spl : SpliceModule) (fragmentPool : List FragGrp) : Mut Nat := do
  modify fun s => { s with childNodeList := [] }
  let maxIns ← draw (Gen.below spliceInsertMutationMax)
  let maxOvw ← draw (Gen.below spliceOverwriteMutationMax)
  let indices := List.range (← get).mod.functions.length
  let funcShuffle ← draw (Gen.shuffle indices)
  let cnt ← spliceFunctions (spliceNode spl fragmentPool) ⟨maxIns + 1, maxOvw + 1⟩ funcShuffle ⟨0, 0⟩
  return cnt.ins + cnt.ovw

end Swam
