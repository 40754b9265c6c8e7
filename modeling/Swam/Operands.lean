import Swam.Operators
import Swam.GeneratorRules
import Swam.Binaryen.Trees

/-!
# Operands of an instruction

The instructions of a group take the same number of operands. A node that has as many operands
as its kind asks for hands all of them, in their order, to the node that takes its place.
-/
namespace Swam

open Binaryen Mut Lib

/-! ## How many operands -/

/-- The number of operands, for the kinds that the groups have instructions of. -/
def Binaryen.Kind.operandCount? : Kind → Option Nat
  | .const _ | .memorySize .. | .nop | .dataDrop _ | .refNull _ | .refFunc .. | .tableSize _ => some 0
  | .load .. | .unary _ | .drop | .memoryGrow .. | .simdExtract .. | .simdLoad .. | .refIsNull
  | .tableGet .. => some 1
  | .store .. | .binary _ | .simdReplace .. | .simdShuffle _ | .simdShift _
  | .simdLoadStoreLane .. | .tableSet _ | .tableGrow _ => some 2
  | .select _ | .simdTernary _ | .memoryInit .. | .memoryCopy .. | .memoryFill _ => some 3
  | _ => none

def InstrTy.operandCount : InstrTy → Nat
  | .const _ | .memorySize | .nop | .dataDrop | .refNull _ | .refFunc | .tableSize => 0
  | .load .. | .unary _ | .drop _ | .memoryGrow | .simdExtract _ | .simdLoad _ | .refIsNull _
  | .tableGet _ => 1
  | .store .. | .binary _ | .simdReplace _ | .simdShuffle | .simdShift _ | .simdLoadStoreLane _
  | .tableSet _ | .tableGrow _ => 2
  | .select _ | .simdTernary _ | .memoryInit | .memoryCopy | .memoryFill => 3

theorem InstrTy.operandCount_le (inst : InstrTy) : inst.operandCount ≤ 3 := by
  cases inst <;> simp [InstrTy.operandCount]

/-- A kind with operands is one whose children the mutators look at. -/
theorem enumerated_of_operands {k : Kind} {n : Nat} (operands : k.operandCount? = some (n + 1)) :
    k.isEnumerated = true := by
  cases k <;> first | rfl | cases operands

/-- The instructions of a group take as many operands as the group says. -/
theorem groups_operands :
    ∀ grp ∈ wasmInitInstrGrps, ∀ inst ∈ grp.groups, inst.operandCount = grp.required.length := by
  decide +kernel

theorem wasmGetInstrType_operands {k : Kind} {cs : List Expr} {inst : InstrTy}
    (typed : wasmGetInstrType (.node k cs) = some inst) :
    k.operandCount? = some inst.operandCount := by
  unfold wasmGetInstrType whenTyped at typed
  split at typed <;>
    grind [Kind.operandCount?, InstrTy.operandCount, Option.map_eq_some_iff]

/-- New immediates do not change the number of operands. -/
theorem wasmSubstituteExprFields_operands {k k' : Kind} {new : InstrTy} {r r' : Rand}
    (substituted : wasmSubstituteExprFields k new r = some (k', r')) :
    k'.operandCount? = k.operandCount? := by
  unfold wasmSubstituteExprFields at substituted
  split at substituted <;> grind [Kind.operandCount?]

/-! ## Nodes with all their operands -/

/-- As many operands as the kind asks for, and each of them is there. -/
def Complete (k : Kind) (cs : List ExprRef) : Prop :=
  ∀ n, k.operandCount? = some n → cs.length = n ∧ ∀ c ∈ cs, isPresent c = true

/-- The instruction that is built has as many operands. -/
theorem wasmGenerateOneSimpleExpr_operands {m m' : Module} {inst : InstrTy} {child : List Expr}
    {r r' : Rand} {e : Expr}
    (built : wasmGenerateOneSimpleExpr m inst child r = some (e, m', r')) :
    ∃ k ops, e = .node k ops ∧ k.operandCount? = some inst.operandCount ∧
      ops.length = inst.operandCount := by
  have two : (pickTwo child).length = 2 := by
    unfold pickTwo
    split <;> rfl
  have three : (pickThree child).length = 3 := by
    unfold pickThree
    split <;> rfl
  cases inst <;> simp only [wasmGenerateOneSimpleExpr, Option.map_eq_some_iff, Option.some.injEq,
    Prod.mk.injEq, Prod.exists] at built <;>
    grind [Kind.operandCount?, InstrTy.operandCount]

/-- A node with all its operands hands them on in their order. -/
theorem pickRefs_eq {n : Nat} {cs : List ExprRef} (le : n ≤ 3) (length : cs.length = n)
    (present : ∀ c ∈ cs, isPresent c = true) : pickRefs n cs = cs := by
  have all : cs.filter isPresent = cs := List.filter_eq_self.mpr present
  subst length
  match cs with
  | [] => rfl
  | [a] => simp [pickRefs, all]
  | [a, b] => simp [pickRefs, all]
  | [a, b, c] => simp [pickRefs, all]
  | _ :: _ :: _ :: _ :: _ =>
    simp only [List.length_cons] at le
    omega

theorem childRefs_eq {a n : Nat} {k : Kind} {cs : List ExprRef} (operands : k.operandCount? = some n)
    (length : cs.length = n) : childRefs (.node a k cs) = cs := by
  cases n with
  | zero => simp [childRefs, List.length_eq_zero_iff.mp length]
  | succ n => exact if_pos (enumerated_of_operands operands)

/-- The new node gets all of them. -/
theorem Complete.refs {a n : Nat} {k : Kind} {cs : List ExprRef} (complete : Complete k cs)
    (operands : k.operandCount? = some n) (le : n ≤ 3) :
    pickRefs n (childRefs (.node a k cs)) = cs := by
  obtain ⟨length, present⟩ := complete n operands
  rw [childRefs_eq operands length, pickRefs_eq le length present]

theorem Complete.writeAll {a : Nat} {change : ExprRef.Write} {k : Kind} {cs : List ExprRef}
    (complete : Complete k cs) : Complete k (ExprRef.writeAll a change cs) := by
  intro n operands
  obtain ⟨length, present⟩ := complete n operands
  refine ⟨by rw [ExprRef.length_writeAll, length], ?_⟩
  intro d member
  rw [ExprRef.writeAll_eq_map] at member
  obtain ⟨c, inside, rfl⟩ := List.mem_map.mp member
  rw [isPresent, ExprRef.addr?_write]
  exact present c inside

theorem Complete.set {k : Kind} {cs : List ExprRef} {new : ExprRef} (complete : Complete k cs)
    (here : isPresent new = true) (i : Nat) : Complete k (cs.set i new) := by
  intro n operands
  obtain ⟨length, present⟩ := complete n operands
  refine ⟨by rw [List.length_set, length], ?_⟩
  intro d member
  rcases List.mem_or_eq_of_mem_set member with old | rfl
  · exact present d old
  · exact here

/-! ## What is drawn -/

private theorem pick_ends {α : Type} (xs : List α) (s : GenState) :
    Ends (Gen.pick xs) s (fun drawn t => (∀ x ∈ drawn, x ∈ xs) ∧ t = { s with rand := t.rand })
      fun _ _ => False :=
  ⟨fun _ here => List.mem_of_getElem? here, rfl⟩

/-- An instruction of the same group. The random stream moves on, and nothing else. -/
theorem drawInstr_ends {grp : InstrGrp} {inst : InstrTy} (member : inst ∈ grp.groups) (n : Nat)
    (s : GenState) :
    Ends (drawInstr grp inst n) s (fun new t => new ∈ grp.groups ∧ t = { s with rand := t.rand })
      fun _ _ => False := by
  have inside : ∀ new : Option InstrTy, (∀ x ∈ new, x ∈ grp.groups) → new.getD inst ∈ grp.groups := by
    intro new among
    cases new with
    | none => exact member
    | some x => exact among x rfl
  induction n generalizing s with
  | zero =>
    rw [drawInstr, ends_bind]
    apply (pick_ends grp.groups s).mono _ fun _ _ never => never
    rintro new t ⟨among, same⟩
    exact ⟨inside new among, same⟩
  | succ n ih =>
    rw [drawInstr, ends_bind]
    apply (pick_ends grp.groups s).mono _ fun _ _ never => never
    rintro new t ⟨among, same⟩
    rw [ends_ite]
    constructor
    · intro _
      apply (ih t).mono _ fun _ _ never => never
      rintro drawn u ⟨here, again⟩
      refine ⟨here, ?_⟩
      rw [again, same]
    · exact fun _ => ⟨inside new among, same⟩

end Swam
