import Swam.InstrGrps
import Swam.Lib.Stopping
import Swam.Recurse

/-!
# Generating code

`wasmGenerateInstrSeqsTopLevel` builds a skeleton of blocks, loops and `if`s that leaves values
of a requested type, and `wasmGenerateInstrSeqsBaseCase` fills it with instructions. On the
way they declare locals and labels, and add globals and tables to the module. `Expr.null` is
the `NULL` of a generator that finds nothing to build.

Every generator but these two asks for its operands one level deeper, by the base case. It
takes that as an argument here.
-/
namespace Swam

open Binaryen

/-! ## State -/

/-- A local variable known to the generators. -/
structure LocalCxt where
  preAdded : Bool
  localType : Ty
  localIdx : Nat
  deriving DecidableEq, Repr

/-- A label in scope, with the type a branch to it carries. -/
structure LabelCxt where
  labelName : String
  labelType : Ty
  deriving DecidableEq, Repr

/-- Why a run does not come back. -/
inductive Stop where
  /-- Binaryen refuses a second entity of one name. -/
  | nameInUse
  /-- A loop over a list that never had an element. -/
  | uninitializedList
  /-- A label that is `NULL`. -/
  | nullLabel
  /-- Any other request Binaryen ends the process on. -/
  | fatal
  /-- A loop without a bound of its own has used up the patience. -/
  | endless
  deriving DecidableEq, Repr

/-- What the generators work on. `patience` bounds the loops that have no bound in the
source. -/
structure GenState where
  mod : Module
  names : NameGroup
  rand : Rand
  patience : Nat
  localCxt : List LocalCxt
  labelCxt : List LabelCxt

abbrev Gen := EStateM Stop GenState

namespace Gen

def below (limit : Nat) : Gen Nat := fun s =>
  let (n, rand) := randBelow limit s.rand
  .ok n { s with rand }

def coin : Gen Bool := do
  let n ← below 2
  return n ≠ 0

def oneIn (chances : Nat) : Gen Bool := do
  let n ← below chances
  return n = 0

/-- Any element, each with the same chance. -/
def pick {α : Type} (xs : List α) : Gen (Option α) := do
  let n ← below xs.length
  return xs[n]?

/-- The first candidate, given up for each later one with one chance in two. -/
def choose {α : Type} : List α → Option α → Gen (Option α)
  | [], selected => return selected
  | x :: rest, none => choose rest (some x)
  | x :: rest, some y => do
    let other ← coin
    choose rest (some (if other then x else y))

def shuffle (arr : List Nat) : Gen (List Nat) := fun s =>
  let (arr, rand) := fisherYatesShuffle arr s.rand
  .ok arr { s with rand }

def freshName : Gen String := fun s =>
  let (name, names) := wasmFindAvailableName s.names
  .ok name { s with names }

def appendLocal (el : LocalCxt) : Gen Unit :=
  modify fun s => { s with localCxt := s.localCxt ++ [el] }

/-- A new local, under the next index. -/
def declareLocal (localType : Ty) : Gen Nat := do
  let localIdx := (← get).localCxt.length
  appendLocal ⟨false, localType, localIdx⟩
  return localIdx

/-- The body runs with one more label, which is removed again afterwards. -/
def withLabel {α : Type} (label : LabelCxt) (body : Gen α) : Gen α := do
  let position := (← get).labelCxt.length
  modify fun s => { s with labelCxt := s.labelCxt ++ [label] }
  let result ← body
  modify fun s => { s with labelCxt := s.labelCxt.eraseIdx position }
  return result

/-- A request to Binaryen on the module. -/
def request {α : Type} (call : Module → Rand → Option (α × Module × Rand)) (why : Module → Stop) :
    Gen α := fun s =>
  match call s.mod s.rand with
  | some (a, mod, rand) => .ok a { s with mod, rand }
  | none => .error (why s.mod) s

/-- The number that a new table would take is the name of a table already. -/
def tableNameTaken (m : Module) : Bool := m.tables.any (·.name = toString m.tables.length)

/-- The only names that an instruction may add are those of tables. -/
def simpleExpr (newInstr : InstrTy) (child : List Expr) : Gen Expr :=
  request (fun m r => wasmGenerateOneSimpleExpr m newInstr child r)
    fun m => if tableNameTaken m then .nameInUse else .fatal

def addGlobal (g : Global) : Gen Unit := fun s =>
  if s.mod.globals.any (·.name = g.name) then .error .nameInUse s
  else .ok () { s with mod := s.mod.addGlobal g }

end Gen

open Gen

/-! ## Operands -/

/-- One of the seven declared value types. -/
def randType : Gen ValTy := do
  let n ← below 7
  return [ValTy.i32, .i64, .f32, .f64, .funcref, .externref, .v128].getD n .i32

def randTypes : Nat → Gen (List ValTy)
  | 0 => return []
  | n + 1 => do
    let ty ← randType
    let types ← randTypes n
    return ty :: types

/-- One expression for each type. -/
def genAll (gen : Ty → Gen Expr) : List ValTy → Gen (List Expr)
  | [] => return []
  | ty :: rest => do
    let expr ← gen (.one ty)
    let exprs ← genAll gen rest
    return expr :: exprs

/-- What a branch carries: nothing, a value or a tuple. -/
def carried : List Expr → Expr
  | [] => .null
  | exprs => tupleOf exprs

/-- An expression for a branch to a label of a type. -/
def genCarried (gen : Ty → Gen Expr) (labelType : Ty) : Gen Expr := do
  let exprs ← genAll gen labelType.expand
  return carried exprs

/-! ## Variables -/

/-- Variables and their components that have a type. -/
def candidates {α : Type} (result : Ty) (ty : α → Ty) (vars : List α) : List (α × Option Nat) :=
  vars.flatMap fun el =>
    if (ty el).arity > 1 then
      (List.range (ty el).arity).filterMap fun ind =>
        if (ty el).expand[ind]?.map Ty.one = some result then some (el, some ind) else none
    else if (ty el).arity = 1 ∧ ty el = result then [(el, none)]
    else []

/-- A component is extracted from its tuple. -/
def component (get : Expr) : Option Nat → Expr
  | some sub => .node (.tupleExtract sub) [get]
  | none => get

def wasmGenerateOneLocalGlobalGet (result : Ty) (useLocal : Bool) : Gen Expr := do
  let s ← get
  if useLocal then
    if result.arity > 1 then
      match ← choose (s.localCxt.filter (·.localType = result)) none with
      | some el => return .node (.localGet el.localIdx result) []
      | none => return .null
    else
      match ← choose (candidates result LocalCxt.localType s.localCxt) none with
      | some (el, sub) =>
        return component (.node (.localGet el.localIdx el.localType) []) sub
      | none => return .null
  else
    if result.arity > 1 then
      match ← choose (s.mod.globals.filter (·.ty = result)) none with
      | some g => return .node (.globalGet g.name result) []
      | none => return .null
    else
      match ← choose (candidates result Global.ty s.mod.globals) none with
      | some (g, sub) => return component (.node (.globalGet g.name g.ty) []) sub
      | none => return .null

def wasmGenerateOneLocalTee (gen : Ty → Gen Expr) (result : Ty) : Gen Expr := do
  let s ← get
  let found ← choose (s.localCxt.filter (·.localType = result)) none
  match found with
  | some el => do
    let exprs ← genAll gen result.expand
    return .node (.localTee el.localIdx result) [tupleOf exprs]
  | none => do
    if ← coin then
      let localIdx ← declareLocal result
      let exprs ← genAll gen result.expand
      return .node (.localTee localIdx result) [tupleOf exprs]
    else return .null

/-- The operands and the initial values of a new global. -/
def genGlobal (gen : Ty → Gen Expr) : Nat → Gen (List ValTy × List Expr × List Expr)
  | 0 => return ([], [], [])
  | n + 1 => do
    let ty ← randType
    let expr ← gen (.one ty)
    let init ← request (fun m r => dummyExpr m ty r) fun _ => .fatal
    let (types, exprs, inits) ← genGlobal gen n
    return (ty :: types, expr :: exprs, init :: inits)

/-- The loop that draws until it has a mutable global. -/
def drawMutable (globals : List Global) : Nat → Gen Global
  | 0 => throw .endless
  | n + 1 => do
    match ← pick globals with
    | none => throw .fatal
    | some g => if g.mutable_ then return g else drawMutable globals n

/-- A new local, set to generated values. -/
def setNewLocal (gen : Ty → Gen Expr) : Gen Expr := do
  let localIdx := (← get).localCxt.length
  let numTypes ← below 3
  let types ← randTypes (numTypes + 1)
  appendLocal ⟨false, .vals types, localIdx⟩
  let exprs ← genAll gen types
  return .node (.localSet localIdx) [tupleOf exprs]

/-- A new global, set to generated values. Its name is chosen before they are generated. -/
def setNewGlobal (gen : Ty → Gen Expr) : Gen Expr := do
  let globalName := toString (← get).mod.globals.length
  let numTypes ← below 3
  let (types, exprs, inits) ← genGlobal gen (numTypes + 1)
  addGlobal ⟨globalName, .vals types, true, tupleOf inits⟩
  return .node (.globalSet globalName) [tupleOf exprs]

def wasmGenerateOneLocalGlobalSet (gen : Ty → Gen Expr) (useLocal : Bool) : Gen Expr := do
  let s ← get
  if useLocal then
    let fresh ← (if s.localCxt.length = 0 then pure true else oneIn 5)
    if fresh then setNewLocal gen
    else
      match ← choose s.localCxt none with
      | none => return .null
      | some el =>
        if el.localType.arity = 0 then return .null
        else
          let exprs ← genAll gen el.localType.expand
          return .node (.localSet el.localIdx) [tupleOf exprs]
  else
    let fresh ← (if s.mod.globals.any (·.mutable_) then oneIn 5 else pure true)
    if fresh then setNewGlobal gen
    else
      let g ← drawMutable s.mod.globals s.patience
      if g.ty.arity = 0 then return .null
      else
        let exprs ← genAll gen g.ty.expand
        return .node (.globalSet g.name) [tupleOf exprs]

/-! ## Control transfer -/

/-- Labels of the type, each taken with one chance in two. -/
def selectLabels (labelType : Ty) : List LabelCxt → Gen (List String)
  | [] => return []
  | el :: rest => do
    if el.labelType = labelType then
      let taken ← coin
      let names ← selectLabels labelType rest
      return if taken then el.labelName :: names else names
    else selectLabels labelType rest

def wasmGenerateOneControlTransfer (gen : Ty → Gen Expr) (result : Ty) : Gen Expr := do
  let selected ← below 4
  let s ← get
  if selected = 0 then
    match ← choose s.labelCxt none with
    | none => return .null
    | some el =>
      let value ← genCarried gen el.labelType
      return .node (.break_ el.labelName) [value, .null]
  else if selected = 1 then
    match ← choose (s.labelCxt.filter (·.labelType = result)) none with
    | none => return .null
    | some el =>
      let value ← genCarried gen result
      let cond ← gen Ty.i32
      return .node (.break_ el.labelName) [value, cond]
  else if selected = 2 then
    match ← choose s.labelCxt none with
    | none => return .null
    | some el =>
      let selectedLabels ← selectLabels el.labelType s.labelCxt
      let value ← genCarried gen el.labelType
      let cond ← gen Ty.i32
      return .node (.switch selectedLabels el.labelName) [value, cond]
  else return .node .unreachable []

/-! ## Calls -/

def wasmFindMatchingFuncs (m : Module) (param result : Ty) (ignoreParam : Bool) : List Func :=
  m.functions.filter fun f =>
    (ignoreParam || wasmSimplifyType f.params = param) && wasmSimplifyType f.results = result

def wasmGenerateOneCall (gen : Ty → Gen Expr) (result : Ty) : Gen Expr := do
  let matched := wasmFindMatchingFuncs (← get).mod Ty.none result true
  match ← pick matched with
  | none => return .null
  | some target =>
    let operands ← genAll gen target.params.expand
    return .node (.call target.name result) operands

/-- Operands of random types. -/
def genRandom (gen : Ty → Gen Expr) : Nat → Gen (List ValTy × List Expr)
  | 0 => return ([], [])
  | n + 1 => do
    let ty ← randType
    let expr ← gen (.one ty)
    let (types, exprs) ← genRandom gen n
    return (ty :: types, expr :: exprs)

def wasmGenerateOneCallIndirect (gen : Ty → Gen Expr) (result : Ty) : Gen Expr := do
  let numParams ← below 5
  let (params, operands) ← genRandom gen (numParams + 1)
  let table ← request (fun m r => findTable m .funcref r) fun _ => .nameInUse
  let index ← gen Ty.i32
  return .node (.callIndirect table.name (.vals params) result) (operands ++ [index])

/-! ## The base case -/

/-- The group leaves exactly a value of the type, or nothing. -/
def InstrGrp.produces (grp : InstrGrp) (result : Ty) : Bool :=
  grp.produced.length = result.arity &&
    (result.arity = 0 || grp.produced.head?.map Ty.one = some result)

/-- An instruction of one of the groups, with generated operands. -/
def oneOfGroups (gen : Ty → Gen Expr) (grps : List InstrGrp) : Gen Expr := do
  match ← choose grps none with
  | none => return .null
  | some grp =>
    match ← pick grp.groups with
    | none => throw .fatal
    | some inst =>
      let child ← genAll gen grp.required
      simpleExpr inst child

/-- The base case without recursion. -/
def instrSeqsLeaf (result : Ty) : Gen Expr := do
  let useVariable ← (if 1 ≤ result.arity then coin else pure false)
  if useVariable then
    let useLocal ← coin
    let expr ← wasmGenerateOneLocalGlobalGet result useLocal
    if expr.isNull then instruction else return expr
  else instruction
where
  instruction : Gen Expr := oneOfGroups (fun _ => return .null)
    (wasmInitInstrGrps.filter fun grp => grp.required.length = 0 && grp.produces result)

/-- With one chance in `chances` the first generator, when it finds something, else the
second. -/
def tryFirst (chances : Nat) (first otherwise : Gen Expr) : Gen Expr := do
  if ← oneIn chances then
    let expr ← first
    if expr.isNull then otherwise else return expr
  else otherwise

/-- The base case over operands that `gen` generates. -/
def instrSeqsNode (gen : Ty → Gen Expr) (result : Ty) : Gen Expr :=
  tryFirst 2 (wasmGenerateOneCall gen result) do
    if ← oneIn 5 then wasmGenerateOneCallIndirect gen result
    else
      tryFirst 8 (wasmGenerateOneControlTransfer gen result) <|
        if 1 ≤ result.arity then
          tryFirst 5 (do wasmGenerateOneLocalGlobalGet result (← coin)) <|
            tryFirst 5 (wasmGenerateOneLocalTee gen result) tree
        else tryFirst 5 (do wasmGenerateOneLocalGlobalSet gen (← coin)) tree
where
  /-- The default: a tuple of its components, or an instruction over its operands. -/
  tree : Gen Expr :=
    if 2 ≤ result.arity then do
      let exprs ← genAll gen result.expand
      return .node .tupleMake exprs
    else oneOfGroups gen (wasmInitInstrGrps.filter (·.produces result))

/-- A depth below one counts as zero. -/
def wasmGenerateInstrSeqsBaseCase : Nat → Ty → Gen Expr
  | 0, result => instrSeqsLeaf (wasmSimplifyType result)
  | depth + 1, result =>
    instrSeqsNode (wasmGenerateInstrSeqsBaseCase depth) (wasmSimplifyType result)

/-! ## The top level -/

/-- A block, a loop or an `if` around generated code. -/
def oneConstructor (sub : Ty → Gen Expr) (subType : Ty) : Gen Expr := do
  let selected ← below 3
  if selected = 0 then sub subType
  else if selected = 1 then
    let subLabel ← freshName
    let expr ← withLabel ⟨subLabel, Ty.none⟩ (sub subType)
    return .node (.loop (some subLabel)) [expr]
  else
    let cond ← sub Ty.i32
    let trueExpr ← sub subType
    let falseExpr ← sub subType
    return .node .if_ [cond, trueExpr, falseExpr]

/-- The remaining results, one or more at a time: each portion is produced by a constructor
and saved in a local of its own. The answer lists the `local.set`s and the locals. -/
def subBlocks (sub : Ty → Gen Expr) : Nat → List ValTy → Gen (List Expr × List (Nat × Ty))
  | 0, _ | _, [] => return ([], [])
  | n + 1, results => do
    let moveSteps ← below results.length
    let subType := Ty.vals (results.take (moveSteps + 1))
    let localIdx ← declareLocal subType
    let expr ← oneConstructor sub subType
    let (exprs, tmpLocals) ← subBlocks sub n (results.drop (moveSteps + 1))
    return (.node (.localSet localIdx) [expr] :: exprs, (localIdx, subType) :: tmpLocals)

/-- The values saved in a local, one by one. -/
def getLocal (tmp : Nat × Ty) : List Expr :=
  if tmp.2.arity > 1 then
    (List.range tmp.2.arity).map fun ind =>
      .node (.tupleExtract ind) [.node (.localGet tmp.1 tmp.2) []]
  else [.node (.localGet tmp.1 tmp.2) []]

/-- The instructions of a block that leaves the result. -/
def blockExprs (sub : Ty → Gen Expr) (result : Ty) : Gen (List Expr) :=
  if 1 ≤ result.arity then do
    let (exprs, tmpLocals) ← subBlocks sub result.arity result.expand
    return exprs ++ [tupleOf (tmpLocals.flatMap getLocal)]
  else do
    let expr ← oneConstructor sub Ty.none
    return [expr]

/-- A depth below one counts as zero. -/
def wasmGenerateInstrSeqsTopLevel : Nat → Ty → Gen Expr
  | 0, result => wasmGenerateInstrSeqsBaseCase 3 (wasmSimplifyType result)
  | depth + 1, result => do
    let result := wasmSimplifyType result
    let topLabel ← freshName
    let exprs ← withLabel ⟨topLabel, result⟩ <|
      blockExprs (wasmGenerateInstrSeqsTopLevel depth) result
    return .node (.block (some topLabel) result) exprs

end Swam
