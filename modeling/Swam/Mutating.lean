import Swam.Binaryen.Pointers
import Swam.Generator

/-!
# Mutating function bodies in place

The mutators share one way through a module: they visit the functions in random order and the
nodes of each body breadth first, with the references still to be visited in a list. The walk
ends early when enough has been mutated.
-/
namespace Swam

open Binaryen

/-- A local of a context that became a variable of a function, and the index it got. -/
structure AddedVar where
  func : Nat
  el : LocalCxt
  created : Nat

/-- What a mutator works on. The bodies of the functions are in memory: `bodies` has one for
each function of `mod`, whose own bodies are out of date. Two fields are a record that the
source does not look at: `addedVars` has the locals that became variables, and `replaced` the nodes
that were given up for others on purpose. -/
structure MutState where
  mod : Module
  bodies : List ExprRef
  nextAddr : Nat
  names : NameGroup
  rand : Rand
  patience : Nat
  childNodeList : List Nat
  curCnt : Nat
  addedVars : List AddedVar
  replaced : List Nat

/-- The module with the bodies that are in memory. -/
def MutState.module (s : MutState) : Module :=
  { s.mod with
    functions := List.zipWith (fun f body => { f with body := body.expr }) s.mod.functions s.bodies }

abbrev Mut := EStateM Stop MutState

namespace Mut

/-- Run a generator on the module in some context. The answer has the locals it leaves. -/
def generate {α : Type} (localCxt : List LocalCxt) (labelCxt : List LabelCxt) (x : Gen α) :
    Mut (α × List LocalCxt) := fun s =>
  match x ⟨s.mod, s.names, s.rand, s.patience, localCxt, labelCxt⟩ with
  | .ok a t => .ok (a, t.localCxt) { s with mod := t.mod, names := t.names, rand := t.rand }
  | .error e t => .error e { s with mod := t.mod, names := t.names, rand := t.rand }

/-- A computation that needs no context. -/
def draw {α : Type} (x : Gen α) : Mut α := do
  let answer ← generate [] [] x
  return answer.1

/-! ## References -/

/-- What is stored at an address. Every reference the mutators follow leads into a body. -/
def deref (addr : Nat) : Mut ExprRef := do
  match ExprRef.findAll? addr (← get).bodies with
  | some el => return el
  | none => throw .fatal

def write (addr : Nat) (change : ExprRef.Write) : Mut Unit :=
  modify fun s => { s with bodies := ExprRef.writeAll addr change s.bodies }

def alloc (kind : Kind) (children : List ExprRef) : Mut ExprRef := fun s =>
  .ok (.node s.nextAddr kind children) { s with nextAddr := s.nextAddr + 1 }

def allocExpr (e : Expr) : Mut ExprRef := fun s =>
  let placed := ExprRef.place e s.nextAddr
  .ok placed.1 { s with nextAddr := placed.2 }

/-- Note that nodes were given up for others. -/
def replace (addrs : List Nat) : Mut Unit :=
  modify fun s => { s with replaced := s.replaced ++ addrs }

def enqueue (addr : Nat) : Mut Unit :=
  modify fun s => { s with childNodeList := s.childNodeList ++ [addr] }

def enqueueRef (ref : ExprRef) : Mut Unit :=
  match ref.addr? with
  | none => pure ()
  | some addr => enqueue addr

def count : Mut Unit :=
  modify fun s => { s with curCnt := s.curCnt + 1 }

def countIf (changed : Bool) : Mut Unit := if changed then count else return ()

/-- `wasm_get_children_expr` on a node in memory. -/
def childAddrs : ExprRef → List (Option Nat)
  | .null => []
  | .node _ k cs => if k.isEnumerated then cs.map ExprRef.addr? else []

/-- `wasm_set_children_expr` on a node in memory. -/
def setChild (parent : Nat) (newChild : ExprRef) (index : Nat) : Mut Unit :=
  write parent fun k cs => if k.isEnumerated then (k, cs.set index newChild) else (k, cs)

/-! ## Functions -/

/-- `BinaryenFunctionAddVar`: the index of the new local. -/
def addVar (func : Nat) (ty : Ty) : Mut Nat := fun s =>
  let created := match s.mod.functions[func]? with
    | some f => f.params.expand.length + f.vars.length
    | none => 0
  .ok created { s with
    mod := { s.mod with
      functions := s.mod.functions.modify func fun f => { f with vars := f.vars ++ [ty] } } }

def addFunction (f : Func) : Mut Unit := fun s =>
  if s.mod.functions.any (·.name = f.name) then .error .nameInUse s
  else
    let placed := ExprRef.place f.body s.nextAddr
    .ok () { s with
      mod := { s.mod with functions := s.mod.functions ++ [f] }
      bodies := s.bodies ++ [placed.1]
      nextAddr := placed.2 }

/-! ## The walk -/

/-- The loop over the children that a node had when the loop started. -/
def eachChild (visit : Nat → Nat → Mut Unit) : List (Option Nat) → Nat → Mut Unit
  | [], _ => return ()
  | none :: rest, ind => eachChild visit rest (ind + 1)
  | some child :: rest, ind => do
    visit ind child
    eachChild visit rest (ind + 1)

/-- The loop over the list of references. A visit is told whether the node is the first, the
root. The answer tells whether the bound was reached. -/
def walk (visit : Bool → Nat → Mut Unit) (maxCnt : Nat) : Nat → Bool → Mut Bool
  | 0, _ => throw .endless
  | n + 1, whetherRootNode => do
    match (← get).childNodeList with
    | [] => return false
    | el :: rest =>
      modify fun s => { s with childNodeList := rest }
      visit whetherRootNode el
      if (← get).curCnt ≥ maxCnt then return true else walk visit maxCnt n false

/-- The loop over the functions. A visit is told the function and the root of its body, too. -/
def eachFunction (visit : Nat → Nat → Bool → Nat → Mut Unit) (maxCnt : Nat) : List Nat → Mut Unit
  | [] => return ()
  | idx :: rest => do
    let s ← get
    match s.bodies[idx]?.bind ExprRef.addr? with
    -- an imported function has no body
    | none => eachFunction visit maxCnt rest
    | some body =>
      enqueue body
      if ← walk (visit idx body) maxCnt s.patience true then return ()
      else eachFunction visit maxCnt rest

/-- A mutator: `limit` bounds the random number of mutations it stops at, and the answer is the
number it made. -/
def mutate (limit : Nat) (visit : Nat → Nat → Bool → Nat → Mut Unit) : Mut Nat := do
  modify fun s => { s with childNodeList := [], curCnt := 0 }
  let extra ← draw (Gen.below limit)
  let indices := List.range (← get).mod.functions.length
  let funcShuffle ← draw (Gen.shuffle indices)
  eachFunction visit (extra + 1) funcShuffle
  return (← get).curCnt

end Mut

open Mut

/-! ## New functions -/

/-- The assignments to the array of variable types. -/
def varWrites (numParams : Nat) (localCxt : List LocalCxt) : List (Nat × Ty) :=
  (localCxt.filter (!·.preAdded)).map fun el => (el.localIdx - numParams, el.localType)

/-- An array after some assignments; a slot that none goes to is indeterminate. -/
def writeArray (size : Nat) (writes : List (Nat × Ty)) : List (Option Ty) :=
  writes.foldl (fun array w => array.set w.1 (some w.2)) (List.replicate size none)

/-- The parameters of a function as locals. -/
def paramLocals (param : Ty) : List LocalCxt :=
  param.expand.zipIdx.map fun p => ⟨true, .one p.1, p.2⟩

/-- The name of the new function. -/
def wasmGenerateOneFunc (param result : Ty) : Mut String := do
  let (body, localCxt) ← generate (paramLocals param) [] (wasmGenerateInstrSeqsTopLevel 3 result)
  let funcName := toString (← get).mod.functions.length
  let vars := writeArray (localCxt.length - param.arity) (varWrites param.arity localCxt)
  match vars.mapM id with
  | none => throw .fatal
  | some vars =>
    addFunction ⟨funcName, param, result, vars, body⟩
    return funcName

end Swam
