import Swam.Mutating

/-!
# Call target mutation

`wasmCallTargetFunctionMutate` makes calls go to other functions of the same signature. A
`call` is redirected in place. For a `call_indirect` the function is written into the table
first, at the index the call uses. The children of a node are read before the node itself is
changed, and the root of a body is handled apart from all other nodes.
-/
namespace Swam

open Binaryen Mut

/-! ## Callees -/

/-- Draws until the function differs from the present one, `n + 1` times at most. -/
def drawOther (matched : List Func) (current : String) : Nat → Gen String
  | 0 => do
    let drawn ← Gen.pick matched
    return (drawn.map (·.name)).getD current
  | n + 1 => do
    let drawn ← Gen.pick matched
    let name := (drawn.map (·.name)).getD current
    if name = current then drawOther matched current n else return name

/-- A function of the same signature, which is new when drawing does not lead to another. -/
def otherFunc (current : String) (param result : Ty) : Mut String := do
  let matched := wasmFindMatchingFuncs (← get).mod param result false
  if matched.length ≥ 2 then
    let name ← draw (drawOther matched current (2 * matched.length - 1))
    if name = current then wasmGenerateOneFunc param result else return name
  else wasmGenerateOneFunc param result

/-- Any function of the signature, which is new when there are not two. -/
def anyFunc (param result : Ty) : Mut String := do
  let matched := wasmFindMatchingFuncs (← get).mod param result false
  if matched.length ≥ 2 then
    match ← draw (Gen.pick matched) with
    | some f => return f.name
    | none => throw .fatal
  else wasmGenerateOneFunc param result

/-! ## Calls -/

/-- `BinaryenCallSetTarget`. -/
def setCallTarget (name : String) : ExprRef.Write := fun k cs =>
  match k with
  | .call _ ty => (.call name ty, cs)
  | k => (k, cs)

def redirectCall (addr : Nat) (target : String) : Mut Unit := do
  match (← get).mod.getFunction target with
  | none => return ()
  | some func =>
    let name ← otherFunc target (wasmSimplifyType func.params) (wasmSimplifyType func.results)
    write addr (setCallTarget name)
    count

/-- `BinaryenCallIndirectSetTarget`: the target is the last child. -/
def setIndirectTarget (target : ExprRef) : ExprRef.Write := fun k cs =>
  (k, cs.set (cs.length - 1) target)

/-- The block that writes a function into the table and makes the call. -/
def redirectIndirect (func addr : Nat) (table : String) (params results ty : Ty) :
    Mut ExprRef := do
  let result := wasmSimplifyType results
  let name ← anyFunc (wasmSimplifyType params) result
  let newLocal ← addVar func Ty.i32
  let call ← deref addr
  let localSet ← alloc (.localSet newLocal) [call.children.getLastD .null]
  let localGet ← alloc (.localGet newLocal Ty.i32) []
  let copy ← alloc (.localGet newLocal Ty.i32) []
  write addr (setIndirectTarget copy)
  let funcRef ← alloc (.refFunc name .funcref) []
  let tableSet ← alloc (.tableSet table) [localGet, funcRef]
  let call ← deref addr
  alloc (.block none (if ty = .unreachable then .unreachable else result))
    [localSet, tableSet, call]

/-- `BinaryenFunctionSetBody`. -/
def setFunctionBody (func : Nat) (body : ExprRef) : Mut Unit :=
  modify fun s => { s with bodies := s.bodies.set func body }

/-- A call that may be redirected. `place` puts the block of a `call_indirect` where the call
was. -/
def redirect (func addr : Nat) (place : ExprRef → Mut Unit) : Mut Unit := do
  match ← deref addr with
  | .node _ (.call target _) _ =>
    if ← draw (Gen.oneIn 6) then redirectCall addr target else return ()
  | .node a (.callIndirect table params results) cs =>
    if ← draw (Gen.oneIn 6) then
      let ty := (ExprRef.node a (.callIndirect table params results) cs).expr.ty
      let block ← redirectIndirect func addr table params results ty
      place block
      count
    else return ()
  | _ => return ()

/-! ## The mutator -/

def callMutationMax : Nat := 3

def callChild (func parent : Nat) (ind child : Nat) : Mut Unit := do
  redirect func child fun block => setChild parent block ind
  enqueue child

/-- The root of a body has no parent to be a child of. -/
def callRoot (func : Nat) (whetherRootNode : Bool) (el : Nat) : Mut Unit :=
  if whetherRootNode then redirect func el (setFunctionBody func) else return ()

def wasmCallTargetFunctionMutate : Mut Nat :=
  mutate callMutationMax fun func _ whetherRootNode el => do
    let node ← deref el
    callRoot func whetherRootNode el
    eachChild (callChild func el) (childAddrs node) 0

end Swam
