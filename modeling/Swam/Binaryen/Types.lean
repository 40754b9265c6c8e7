import Mathlib.Algebra.Order.Ring.Int
import Mathlib.Data.List.Basic

/-!
# Binaryen value types

Binaryen refines reference types further than a module declares them: a
`ref.null func` has the bottom type of the function hierarchy and a `ref.func`
a non-nullable type. `ValTy.top` forgets the refinement.
-/
namespace Swam.Binaryen

/-- Heap types of the function hierarchy, `nofunc` below every signature. -/
inductive FuncHeap where
  | func
  | nofunc
  | sig (index : Nat)
  deriving DecidableEq, Repr

inductive ValTy where
  | i32
  | i64
  | f32
  | f64
  | v128
  | externref
  | nullExternref
  | ref (heap : FuncHeap) (nullable : Bool)
  deriving DecidableEq, Repr

namespace ValTy

@[match_pattern] def funcref : ValTy := .ref .func true
@[match_pattern] def nullFuncref : ValTy := .ref .nofunc true

/-- The declared type at the top of the hierarchy a value type belongs to. -/
def top : ValTy → ValTy
  | .nullExternref => .externref
  | .ref _ _ => .funcref
  | t => t

@[simp] theorem top_top (t : ValTy) : t.top.top = t.top := by
  cases t <;> rfl

end ValTy

def FuncHeap.join : FuncHeap → FuncHeap → FuncHeap
  | .nofunc, h => h
  | h, .nofunc => h
  | .sig a, .sig b => if a = b then .sig a else .func
  | _, _ => .func

/-- Least upper bound of two value types, `none` across hierarchies. -/
def ValTy.join : ValTy → ValTy → Option ValTy
  | .ref h n, .ref k m => some (.ref (h.join k) (n || m))
  | .nullExternref, .externref => some .externref
  | .externref, .nullExternref => some .externref
  | s, t => if s = t then some s else none

theorem ValTy.join_top {s t u : ValTy} (h : s.join t = some u) :
    u.top = s.top ∧ s.top = t.top := by
  cases s <;> cases t <;> simp_all [ValTy.join, ValTy.top] <;> subst h <;> rfl

theorem ValTy.join_of_top_eq {s t : ValTy} (h : s.top = t.top) : ∃ u, s.join t = some u := by
  cases s <;> cases t <;> simp_all [ValTy.join, ValTy.top, ValTy.funcref]

/-- The type of an expression: no normal completion, or a list of values. -/
inductive Ty where
  | unreachable
  | vals (types : List ValTy)
  deriving DecidableEq, Repr

namespace Ty

/-- `BinaryenTypeNone`. -/
@[match_pattern] def none : Ty := .vals []

/-- A single value type seen as an expression type. -/
@[match_pattern] def one (t : ValTy) : Ty := .vals [t]

@[match_pattern] def i32 : Ty := .vals [.i32]
@[match_pattern] def i64 : Ty := .vals [.i64]

/-- `BinaryenTypeArity`: `unreachable` is a basic type and counts one. -/
def arity : Ty → Nat
  | .unreachable => 1
  | .vals ts => ts.length

/-- `BinaryenTypeExpand`. -/
def expand : Ty → List ValTy
  | .unreachable => []
  | .vals ts => ts

def top : Ty → Ty
  | .unreachable => .unreachable
  | .vals ts => .vals (ts.map ValTy.top)

@[simp] theorem top_unreachable : Ty.unreachable.top = .unreachable := rfl

@[simp] theorem top_vals (ts : List ValTy) : (Ty.vals ts).top = .vals (ts.map ValTy.top) := rfl

@[simp] theorem top_top (t : Ty) : t.top.top = t.top := by
  cases t <;> simp

@[simp] theorem top_eq_unreachable {t : Ty} : t.top = .unreachable ↔ t = .unreachable := by
  cases t <;> simp

@[simp] theorem top_eq_none {t : Ty} : t.top = .vals [] ↔ t = .vals [] := by
  cases t <;> simp

end Ty

/-- Pointwise least upper bound of two value lists. -/
def joinVals : List ValTy → List ValTy → Option (List ValTy)
  | [], [] => some []
  | s :: ss, t :: ts => do
    let u ← s.join t
    let us ← joinVals ss ts
    return u :: us
  | _, _ => none

theorem joinVals_of_top_eq {ss ts : List ValTy} (h : ss.map ValTy.top = ts.map ValTy.top) :
    ∃ us, joinVals ss ts = some us ∧ us.map ValTy.top = ss.map ValTy.top := by
  induction ss generalizing ts with
  | nil =>
    cases ts with
    | nil => exact ⟨[], rfl, rfl⟩
    | cons t ts => simp at h
  | cons s ss ih =>
    cases ts with
    | nil => simp at h
    | cons t ts =>
      simp only [List.map_cons, List.cons.injEq] at h
      obtain ⟨us, hus, tops⟩ := ih h.2
      obtain ⟨u, hu⟩ := ValTy.join_of_top_eq h.1
      refine ⟨u :: us, by simp [joinVals, hu, hus], ?_⟩
      simp [tops, (ValTy.join_top hu).1]

theorem joinVals_top {ss ts us : List ValTy} (joined : joinVals ss ts = some us) :
    ss.map ValTy.top = ts.map ValTy.top := by
  induction ss generalizing ts us with
  | nil => cases ts <;> simp_all [joinVals]
  | cons s ss ih =>
    cases ts with
    | nil => simp [joinVals] at joined
    | cons t ts =>
      simp only [joinVals, Option.bind_eq_bind, Option.bind_eq_some_iff] at joined
      obtain ⟨u, head, rest, tail, _⟩ := joined
      simp [(ValTy.join_top head).2, ih tail]

/-- Binaryen's least upper bound of two expression types. Types of different
hierarchies have none; Binaryen then answers `none`. -/
def Ty.lub : Ty → Ty → Ty
  | .unreachable, t => t
  | s, .unreachable => s
  | .vals ss, .vals ts => match joinVals ss ts with
    | .some us => .vals us
    | .none => Ty.none

/-- Joining types that agree up to refinement stays at that type. -/
theorem Ty.lub_top {s t : Ty} (h : s.top = t.top) : (s.lub t).top = s.top := by
  cases s with
  | unreachable =>
    have : t = .unreachable := by simpa using h.symm
    subst this
    rfl
  | vals ss =>
    cases t with
    | unreachable => simp at h
    | vals ts =>
      have hs : ss.map ValTy.top = ts.map ValTy.top := by simpa using h
      obtain ⟨us, hus, tops⟩ := joinVals_of_top_eq hs
      simp [Ty.lub, hus, tops]

/-- Refinement of the joined types does not show in their join. -/
theorem Ty.lub_congr {s s' t t' : Ty} (hs : s.top = s'.top) (ht : t.top = t'.top) :
    (s.lub t).top = (s'.lub t').top := by
  by_cases agree : s.top = t.top
  · have agree' : s'.top = t'.top := by rw [← hs, agree, ht]
    rw [Ty.lub_top agree, Ty.lub_top agree', hs]
  · have agree' : s'.top ≠ t'.top := by rwa [← hs, ← ht]
    have apart : ∀ {ss ts : List ValTy}, (Ty.vals ss).top ≠ (Ty.vals ts).top →
        (Ty.vals ss).lub (.vals ts) = Ty.none := by
      intro ss ts differ
      cases joined : joinVals ss ts with
      | none => simp [Ty.lub, joined]
      | some us => exact absurd (congrArg Ty.vals (joinVals_top joined)) differ
    cases s with
    | unreachable =>
      have : s' = .unreachable := by simpa using hs.symm
      subst this
      exact ht
    | vals ss =>
      cases s' with
      | unreachable => simp at hs
      | vals ss' =>
        cases t with
        | unreachable =>
          have : t' = .unreachable := by simpa using ht.symm
          subst this
          exact hs
        | vals ts =>
          cases t' with
          | unreachable => simp at ht
          | vals ts' => rw [apart agree, apart agree']

end Swam.Binaryen
