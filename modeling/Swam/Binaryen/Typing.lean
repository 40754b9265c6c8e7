import Swam.Binaryen.Module

/-!
# Types of expressions

`Expr.ty` is the type Binaryen keeps with each expression. A block and a `try` carry
theirs as an immediate; every other kind derives it from its operands.
-/
namespace Swam.Binaryen

/-- Some operand is present and never completes. -/
def anyUnreachable (ts : List (Option Ty)) : Bool :=
  ts.any (· = some Ty.unreachable)

/-- Type of an instruction with a declared type, given its operand types. -/
def strictTy (declared : Ty) (ts : List (Option Ty)) : Ty :=
  if anyUnreachable ts then .unreachable else declared

def indexTy (is64 : Bool) : Ty := if is64 then Ty.i64 else Ty.i32

/-- Type of a node from the types of its children, `none` for an absent child. -/
def Kind.ty : Kind → List (Option Ty) → Ty
  | .block _ ty, _ | .try_ _ ty _ _, _ | .pop ty, _ | .other _ ty, _ => ty
  | .if_, [cond, ifTrue, ifFalse] =>
    let arms := (ifTrue.getD Ty.none).lub (ifFalse.getD Ty.none)
    if arms = Ty.none ∧ cond = some .unreachable then .unreachable else arms
  | .if_, _ => Ty.none
  | .loop _, [body] => body.getD Ty.none
  | .loop _, _ => Ty.none
  | .break_ _, [value, some cond] => strictTy (value.getD Ty.none) [value, some cond]
  | .break_ _, _ | .switch _ _, _ | .return_, _ | .unreachable, _ | .throw _, _
  | .rethrow _, _ => .unreachable
  | .select ty, ts | .call _ ty, ts | .callIndirect _ _ ty, ts => strictTy ty ts
  | .localGet _ ty, _ | .globalGet _ ty, _ => ty
  | .localTee _ ty, ts => strictTy ty ts
  | .const value, _ => .one value.ty
  | .load _ _ _ _ ty _ _, ts | .atomicRMW _ _ _ ty _, ts | .atomicCmpxchg _ _ ty _, ts =>
    strictTy (.one ty) ts
  | .atomicWait _ _ _, ts | .atomicNotify _ _, ts | .refIsNull, ts | .tableSize _, ts
  | .tableGrow _, ts => strictTy Ty.i32 ts
  | .unary op, ts | .binary op, ts | .simdExtract op _, ts | .simdReplace op _, ts
  | .simdTernary op, ts | .simdShift op, ts | .simdLoad op _ _ _, ts
  | .simdLoadStoreLane op _ _ _ _, ts => strictTy (.vals op.results) ts
  | .simdShuffle _, ts => strictTy (.one .v128) ts
  | .memorySize _ is64, _ => indexTy is64
  | .memoryGrow _ is64, ts => strictTy (indexTy is64) ts
  | .refNull ty, _ | .refFunc _ ty, _ => .one ty
  | .tableGet _ ty, ts => strictTy (.one ty) ts
  | .tupleMake, ts => strictTy (.vals (ts.flatMap fun t => (t.getD Ty.none).expand)) ts
  | .tupleExtract i, ts =>
    strictTy (.vals ((ts.flatMap fun t => (t.getD Ty.none).expand)[i]?.toList)) ts
  | .localSet _, ts | .globalSet _, ts | .store _ _ _ _ _ _, ts | .drop, ts
  | .memoryInit _ _, ts | .memoryCopy _ _, ts | .memoryFill _, ts | .tableSet _, ts =>
    strictTy Ty.none ts
  | .nop, _ | .atomicFence, _ | .dataDrop _, _ => Ty.none

namespace Expr

mutual
/-- Type of an expression, `none` for an absent one. -/
def ty? : Expr → Option Ty
  | .null => none
  | .node k cs => some (k.ty (tys cs))

def tys : List Expr → List (Option Ty)
  | [] => []
  | c :: cs => ty? c :: tys cs
end

theorem tys_eq (cs : List Expr) : tys cs = cs.map ty? := by
  induction cs with
  | nil => rfl
  | cons c cs ih => simp [tys, ih]

/-- `BinaryenExpressionGetType`. -/
def ty (e : Expr) : Ty := e.ty?.getD Ty.none

@[simp] theorem ty?_null : ty? .null = none := rfl

theorem ty?_node (k : Kind) (cs : List Expr) : ty? (.node k cs) = some (k.ty (cs.map ty?)) := by
  rw [ty?, tys_eq]

theorem ty_node (k : Kind) (cs : List Expr) : ty (.node k cs) = k.ty (cs.map ty?) := by
  rw [ty, ty?_node, Option.getD_some]

end Expr

end Swam.Binaryen
