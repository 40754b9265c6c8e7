import Swam.Mutating

/-!
# Mutation of constants and operators

`wasmInterestValuesMutate` puts corner values into constants. `wasmOperatorsMutate` replaces an
instruction by another one of its group, in place when both are of one expression kind.
-/
namespace Swam

open Binaryen Mut

/-! ## Interesting values -/

def interesting8 : List Int := [-128, -1, 0, 1, 16, 32, 64, 100, 127]

def interesting16 : List Int :=
  interesting8 ++ [-32768, -129, 128, 255, 256, 512, 1000, 1024, 4096, 32767]

def interesting32 : List Int :=
  interesting16 ++ [-2147483648, -100663046, -32769, 32768, 65535, 65536, 100663045, 2147483647]

def interesting64 : List Int :=
  interesting32 ++ [-9223372036854775808, -432345564227567366, -2147483649, 2147483648, 4294967295,
    4294967296, 432345564227567365, 9223372036854775807]

def interestingF32 : List Int :=
  [0x00000000, 0x80000000, 0x7fc00000, 0x7f800000, 0xff800000, 0x00000001, 0x7f7fffff, 0x80000001,
    0xff7fffff]

def interestingF64 : List Int :=
  [0x0000000000000000, 0x8000000000000000, 0x7ff8000000000000, 0x7ff0000000000000,
    0xfff0000000000000, 0x0010000000000000, 0x8010000000000000, 0x7fefffffffffffff,
    0xffefffffffffffff]

/-- A value of a table in two's complement. -/
def interesting (width : Nat) (table : List Int) : Gen (BitVec width) := do
  let value ← Gen.pick table
  return BitVec.ofInt width (value.getD 0)

/-- Values of a table side by side, the first in the low bits. -/
def interestingLanes (width : Nat) (table : List Int) : Nat → Gen (BitVec 128)
  | 0 => return 0
  | n + 1 => do
    let low ← interesting width table
    let rest ← interestingLanes width table n
    return (rest <<< width) ||| low.zeroExtend 128

def interestingVec : Gen (BitVec 128) := do
  let shape ← Gen.below 4
  if shape = 0 then
    let low ← interesting 64 interesting64
    let high ← interesting 64 interestingF64
    return high ++ low
  else if shape = 1 then
    let a ← interesting 32 interesting32
    let b ← interesting 32 interestingF32
    let c ← interesting 32 interesting32
    let d ← interesting 32 interestingF32
    return d ++ c ++ b ++ a
  else if shape = 2 then interestingLanes 16 interesting16 8
  else interestingLanes 8 interesting8 16

/-- Another constant of the type. -/
def interestingLiteral : Literal → Gen Literal
  | .i32 _ => do return .i32 (← interesting 32 interesting32)
  | .i64 _ => do return .i64 (← interesting 64 interesting64)
  | .f32 _ => do return .f32 (← interesting 32 interestingF32)
  | .f64 _ => do return .f64 (← interesting 64 interestingF64)
  | .v128 _ => do return .v128 (← interestingVec)

/-- A constant that may be changed. -/
def interestNode (addr : Nat) (node : ExprRef) : Mut Unit := do
  match node with
  | .node _ (.const value) _ =>
    if ← draw (Gen.oneIn 6) then
      let new ← draw (interestingLiteral value)
      write addr fun _ cs => (.const new, cs)
      count
    else return ()
  | _ => return ()

/-- Put the children of a node into the list. -/
def enqueueChildren (node : ExprRef) : Mut Unit :=
  eachChild (fun _ child => enqueue child) (childAddrs node) 0

def defaultMutationMax : Nat := 5

def wasmInterestValuesMutate : Mut Nat :=
  mutate defaultMutationMax fun _ _ _ el => do
    let node ← deref el
    interestNode el node
    enqueueChildren node

/-! ## Instruction types -/

/-- The declared type of an operand, where it has one. A tuple counts as a function reference. -/
def wasmGetSingleType (e : Expr) : Option ValTy :=
  match e.ty with
  | .vals [ty] => some ty.top
  | .vals (_ :: _ :: _) => some .funcref
  | _ => none

/-- The instruction type when the expression has the given type. -/
def whenTyped (e : Expr) (ty : Ty) (inst : InstrTy) : Option InstrTy :=
  if e.ty = ty then some inst else none

/-- The instruction type of an expression, `none` for one that no group can have. The hash of
an instruction type is taken to tell it from all others. -/
def wasmGetInstrType (e : Expr) : Option InstrTy :=
  match e with
  | .node (.load bytes signed _ _ ty _ _) _ => whenTyped e (.one ty) (.load ty bytes signed)
  | .node (.store bytes _ _ ty _ _) _ => some (.store ty bytes)
  | .node (.unary op) _ => some (.unary op)
  | .node (.binary op) _ => some (.binary op)
  | .node .drop [value] => (wasmGetSingleType value).map .drop
  | .node (.simdExtract op _) _ => some (.simdExtract op)
  | .node (.simdReplace op _) _ => some (.simdReplace op)
  | .node (.simdTernary op) _ => some (.simdTernary op)
  | .node (.simdShift op) _ => some (.simdShift op)
  | .node (.simdLoad op _ _ _) _ => some (.simdLoad op)
  | .node (.simdLoadStoreLane op _ _ _ _) _ => some (.simdLoadStoreLane op)
  | .node (.refFunc _ _) _ => some .refFunc
  | .node .refIsNull [value] => (wasmGetSingleType value).map .refIsNull
  | .node (.tableSet _) [_, value] => (wasmGetSingleType value).map .tableSet
  | .node (.tableGrow _) [value, _] => (wasmGetSingleType value).map .tableGrow
  | .node (.refNull ty) _ => some (.refNull (if ty = .nullFuncref then .funcref else .externref))
  | .node (.const value) _ => some (.const value.ty)
  | .node (.select (.vals [ty])) _ => whenTyped e (.one ty) (.select ty)
  | .node (.memorySize _ _) _ => whenTyped e Ty.i32 .memorySize
  | .node (.memoryGrow _ _) _ => whenTyped e Ty.i32 .memoryGrow
  | .node .nop _ => some .nop
  | .node (.simdShuffle _) _ => whenTyped e (.one .v128) .simdShuffle
  | .node (.memoryInit _ _) _ => whenTyped e Ty.none .memoryInit
  | .node (.dataDrop _) _ => some .dataDrop
  | .node (.memoryCopy _ _) _ => whenTyped e Ty.none .memoryCopy
  | .node (.memoryFill _) _ => whenTyped e Ty.none .memoryFill
  | .node (.tableGet _ ty) _ => whenTyped e (.one ty) (.tableGet ty)
  | .node (.tableSize _) _ => some .tableSize
  | _ => none

def wasmFindInstrGrps (inst : InstrTy) : Option InstrGrp :=
  wasmInitInstrGrps.find? (·.groups.contains inst)

/-- The immediates of a node after its operator was replaced by one of the same expression
kind, `none` when the kinds differ. -/
def wasmSubstituteExprFields (k : Kind) (new : InstrTy) (r : Rand) : Option (Kind × Rand) :=
  match k, new with
  | .unary _, .unary op => some (.unary op, r)
  | .binary _, .binary op => some (.binary op, r)
  | .simdExtract _ _, .simdExtract op =>
    let (lane, r) := randBelow op.lanes r
    some (.simdExtract op lane, r)
  | .simdReplace _ _, .simdReplace op =>
    let (lane, r) := randBelow op.lanes r
    some (.simdReplace op lane, r)
  | .simdTernary _, .simdTernary op => some (.simdTernary op, r)
  | .simdShift _, .simdShift op => some (.simdShift op, r)
  | .simdLoad _ offset _ mem, .simdLoad op =>
    let (align, r) := randAlign op.bytes r
    some (.simdLoad op offset align mem, r)
  | .simdLoadStoreLane _ offset _ _ mem, .simdLoadStoreLane op =>
    let (align, r) := randAlign op.bytes r
    let (lane, r) := randBelow op.lanes r
    some (.simdLoadStoreLane op offset align lane mem, r)
  | .load _ _ offset _ ty atomic mem, .load _ bytes signed =>
    let (align, r) := randAlign bytes r
    some (.load bytes signed offset align ty atomic mem, r)
  | .store _ offset _ ty atomic mem, .store _ bytes =>
    let (align, r) := randAlign bytes r
    some (.store bytes offset align ty atomic mem, r)
  -- kinds whose instruction types differ in the operand type alone
  | .const v, .const _ => some (.const v, r)
  | .select ty, .select _ => some (.select ty, r)
  | .drop, .drop _ => some (.drop, r)
  | .refNull ty, .refNull _ => some (.refNull ty, r)
  | .refIsNull, .refIsNull _ => some (.refIsNull, r)
  | .tableGet table ty, .tableGet _ => some (.tableGet table ty, r)
  | .tableSet table, .tableSet _ => some (.tableSet table, r)
  | .tableGrow table, .tableGrow _ => some (.tableGrow table, r)
  | _, _ => none

/-! ## Replacing an instruction -/

/-- Draws until the instruction differs from the present one, `n + 1` times at most. -/
def drawInstr (grp : InstrGrp) (current : InstrTy) : Nat → Gen InstrTy
  | 0 => do
    let drawn ← Gen.pick grp.groups
    return drawn.getD current
  | n + 1 => do
    let drawn ← Gen.pick grp.groups
    let new := drawn.getD current
    if new = current then drawInstr grp current n else return new

def isPresent (ref : ExprRef) : Bool := ref.addr?.isSome

/-- The references among which `wasm_generate_one_simple_expr` distributes the children of a
new node with a number of operands. -/
def pickRefs (operands : Nat) (child : List ExprRef) : List ExprRef :=
  let present := child.filter isPresent
  match operands with
  | 0 => []
  | 1 => [present.getLastD .null]
  | 2 => [present.headD .null, present.tail.getLastD .null]
  | _ => [present.headD .null, present.tail.headD .null, present.tail.tail.getLastD .null]

/-- `wasm_generate_one_simple_expr` over nodes in memory. -/
def simpleNode (inst : InstrTy) (child : List ExprRef) : Mut ExprRef := do
  match ← draw (Gen.simpleExpr inst (ExprRef.exprs child)) with
  | .null => return .null
  | .node kind operands => alloc kind (pickRefs operands.length child)

/-- The children `wasm_get_children_expr` lists. -/
def childRefs : ExprRef → List ExprRef
  | .null => []
  | .node _ k cs => if k.isEnumerated then cs else []

/-- Replace the instruction at an address by another one of its group. `place` puts a new node
where the old one was; the answer is the node that is there afterwards. -/
def operatorNode (addr : Nat) (place : ExprRef → Mut Unit) : Mut Nat := do
  match ← deref addr with
  | .null => return addr
  | .node a kind cs =>
    let node := ExprRef.node a kind cs
    match (wasmGetInstrType node.expr).bind fun inst => (wasmFindInstrGrps inst).map (inst, ·) with
    | none => return addr
    | some (inst, grp) =>
      if grp.groups.length > 1 then
        if ← draw (Gen.oneIn 10) then
          let new ← draw (drawInstr grp inst (2 * grp.groups.length - 1))
          if new = inst then return addr
          else
            let s ← get
            match wasmSubstituteExprFields kind new s.rand with
            | some (kind, rand) =>
              set { s with rand }
              write addr fun _ cs => (kind, cs)
              count
              return addr
            | none =>
              let expr ← simpleNode new (childRefs node)
              place expr
              replace [addr]
              count
              return expr.addr?.getD addr
        else return addr
      else return addr

/-! ## The mutator -/

def operatorMutationMax : Nat := 10

def operatorChild (parent : Nat) (ind child : Nat) : Mut Unit := do
  let child ← operatorNode child fun new => setChild parent new ind
  enqueue child

/-- The root of a body has no parent to be a child of. -/
def operatorRoot (func : Nat) (whetherRootNode : Bool) (el : Nat) : Mut Nat :=
  if whetherRootNode then
    operatorNode el fun new => modify fun s => { s with bodies := s.bodies.set func new }
  else return el

def wasmOperatorsMutate : Mut Nat :=
  mutate operatorMutationMax fun func _ whetherRootNode el => do
    let node ← deref el
    let el ← operatorRoot func whetherRootNode el
    eachChild (operatorChild el) (childAddrs node) 0

end Swam
