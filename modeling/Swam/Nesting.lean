import Swam.CallTarget

/-!
# Recursive mutation in place

`wasmRecursiveMutate` over nodes in memory. Here it matters which references the walk holds
while it puts wrappers around nodes; what the wrapped code computes does not depend on that.
-/
namespace Swam.InPlace

open Binaryen Mut

/-- A wrapper around a structured instruction. -/
def wrapNode (addr : Nat) (ty : Ty) : Mut ExprRef := do
  let wrapper ← draw (Gen.below 3)
  if wrapper = 0 ∨ wrapper = 1 then
    let label ← draw Gen.freshName
    let el ← deref addr
    alloc (if wrapper = 0 then .block (some label) ty else .loop (some label)) [el]
  else
    let cond ← alloc (.const (.i32 1)) []
    let arm ← draw (Gen.request (fun m r => falseExpr m (wasmSimplifyType ty) true r) fun _ => .fatal)
    let falseArm ← allocExpr (arm.getD .null)
    let el ← deref addr
    alloc .if_ [cond, el, falseArm]

/-- A node that may get a wrapper, which `place` puts where the node was. -/
def nest (addr : Nat) (place : ExprRef → Mut Unit) : Mut Unit := do
  let el ← deref addr
  if isStructured el.expr then
    if ← draw (Gen.oneIn 8) then
      let new ← wrapNode addr el.expr.ty
      place new
      count
    else return ()
  else return ()

def nestChild (parent : Nat) (ind child : Nat) : Mut Unit := do
  nest child fun new => setChild parent new ind
  enqueue child

/-- The root of a body has no parent to be a child of. -/
def nestRoot (func : Nat) (whetherRootNode : Bool) (el : Nat) : Mut Unit :=
  if whetherRootNode then nest el (setFunctionBody func) else return ()

def wasmRecursiveMutate : Mut Nat :=
  mutate recurseMutationMax fun func _ whetherRootNode el => do
    let node ← deref el
    nestRoot func whetherRootNode el
    eachChild (nestChild el) (childAddrs node) 0

end Swam.InPlace
