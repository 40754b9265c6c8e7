import Mathlib.Data.List.Infix
import Swam.Binaryen.Finalizing
import Swam.ProbeTrap
import Swam.Rewriting

/-!
# Probes are well typed

What a probe is put together from: constants, arithmetic on the index type, one access of the
memory and two stores to the markers. Each part is typed by the rule of its kind alone, since no
part binds a label or branches.
-/
namespace Swam

open Binaryen

/-- Instructions without labels. -/
def Binaryen.Kind.isQuiet : Kind → Bool
  | .block name ty => name.isNone && ty ≠ .unreachable
  | .loop name => name.isNone
  | .break_ _ | .switch _ _ | .try_ .. => false
  | _ => true

theorem Binaryen.Expr.Quiet.null : Expr.Quiet .null :=
  ⟨fun _ _ member => (by cases member), rfl, fun _ => rfl⟩

theorem Binaryen.Expr.Quiet.node {k : Kind} {cs : List Expr} (quiet : k.isQuiet = true)
    (children : ∀ c ∈ cs, c.Quiet) : Expr.Quiet (.node k cs) := by
  refine ⟨Expr.settled_node_iff.mpr ⟨?_, fun c member => (children c member).settled⟩, ?_, fun label => ?_⟩
  · rintro name rfl
    simp [Kind.isQuiet] at quiet
  · have own : k.labels = [] := by
      cases k <;> simp_all [Kind.isQuiet, Kind.labels]
    rw [Expr.labels_node, own, List.nil_append, List.flatMap_eq_nil_iff]
    exact fun c member => (children c member).labels
  · have own : k.sends label (cs.map Expr.top?) = [] := by
      cases k <;> first | rfl | cases quiet
    rw [Expr.sentTops_node, own, List.nil_append, List.flatMap_eq_nil_iff]
    exact fun c member => (children c member).sends label

/-- A quiet expression that is well typed, completes and has a declared type. -/
structure Gives (S : Scope) (ty : Ty) (e : Expr) : Prop where
  valid : Valid S e
  type : e.top? = some ty
  quiet : e.Quiet
  declared : ty ≠ .unreachable ∧ ty.top = ty

section Probe

variable {S : Scope}

theorem Gives.const (value : Literal) : Gives S (.one value.ty) (.node (.const value) []) := by
  have declared : (Ty.one value.ty).top = Ty.one value.ty := by cases value <;> rfl
  refine ⟨.node ⟨_, rfl, .nil⟩ nofun, ?_, Expr.Quiet.node rfl nofun, by simp [Ty.one], declared⟩
  rw [Expr.top?_node]
  exact congrArg some declared

theorem enter_quiet {k : Kind} (quiet : k.isQuiet = true) : S.enter k = S := by
  cases k with
  | block name ty =>
    cases name with
    | none => rfl
    | some name => cases quiet
  | loop name =>
    cases name with
    | none => rfl
    | some name => cases quiet
  | try_ name ty tags delegate => cases quiet
  | _ => rfl

/-- An instruction on operands of the types its rule asks for. -/
theorem Gives.instruction {k : Kind} {cs : List Expr} {wants : List Ty} {ty : Ty}
    (operands : List.Forall₂ (Gives S) wants cs) (quiet : k.isQuiet = true)
    (rule : ∀ ts, FitsAll ts wants → k.Typed S ts)
    (type : ∀ ts, anyUnreachable ts = false → k.ty ts = ty)
    (declared : ty ≠ .unreachable ∧ ty.top = ty) : Gives S ty (.node k cs) := by
  have each : ∀ c ∈ cs, ∃ want ∈ wants, Gives S want c := fun c member =>
    exists_of_mem_right operands member
  have fits : FitsAll (cs.map Expr.top?) wants := by
    clear rule each
    induction operands with
    | nil => exact .nil
    | cons head _ ih => exact .cons (.inr (by rw [head.type, head.declared.2])) ih
  refine ⟨.node (rule _ fits) fun c member => ?_, ?_, Expr.Quiet.node quiet fun c member => ?_, declared⟩
  · obtain ⟨want, _, gives⟩ := each c member
    rw [enter_quiet quiet]
    exact gives.valid
  · rw [Expr.top?_node, type, declared.2]
    simp only [anyUnreachable, List.any_map, List.any_eq_false, Function.comp_apply,
      decide_eq_true_eq]
    intro c member stuck
    obtain ⟨want, _, gives⟩ := each c member
    have := gives.type
    rw [Expr.top?, stuck] at this
    exact gives.declared.1 (Option.some.inj this).symm
  · obtain ⟨want, _, gives⟩ := each c member
    exact gives.quiet

/-- The same for the kinds whose rule lists the operand types. -/
theorem Gives.operation {k : Kind} {cs : List Expr} {wants : List Ty} {ty : Ty}
    (operands : List.Forall₂ (Gives S) wants cs) (known : k.operands? S = some wants)
    (quiet : k.isQuiet = true)
    (rule : ∀ ts, (∃ wants, k.operands? S = some wants ∧ FitsAll ts wants) → k.Typed S ts)
    (type : ∀ ts, k.ty ts = strictTy ty ts)
    (declared : ty ≠ .unreachable ∧ ty.top = ty) : Gives S ty (.node k cs) := by
  refine Gives.instruction operands quiet (fun ts fits => rule ts ⟨wants, known, fits⟩)
    (fun ts completes => ?_) declared
  rw [type, strictTy, if_neg (by simp [completes])]

theorem Gives.drop {ty : Ty} {e : Expr} (gives : Gives S ty e) (value : ty ≠ Ty.none) :
    Gives S Ty.none (.node .drop [e]) := by
  refine Gives.instruction (.cons gives .nil) rfl ?_ (fun ts completes => ?_) (by decide)
  · intro ts fits
    rcases fits with _ | ⟨stuck | same, ⟨⟩⟩
    · exact ⟨_, by rw [stuck], by decide⟩
    · exact ⟨_, by rw [same], by rwa [gives.declared.2]⟩
  · rw [Kind.ty, strictTy, if_neg (by simp [completes])]

/-- A nameless block of such expressions. -/
theorem Gives.block {cs : List Expr} (each : ∀ c ∈ cs, Gives S Ty.none c) :
    Gives S Ty.none (.node (.block none Ty.none) cs) := by
  have fits {t : Option Ty} (inside : t ∈ cs.map Expr.top?) : Fits t Ty.none := by
    obtain ⟨c, child, rfl⟩ := List.mem_map.mp inside
    exact .inr (each c child).type
  refine ⟨.node ?_ fun c child => (each c child).valid, rfl,
    Expr.Quiet.node rfl fun c child => (each c child).quiet, by decide⟩
  exact ⟨fun t inside => fits (List.mem_of_mem_dropLast inside),
    fun t inside => fits (List.mem_of_getLast? inside), nofun, fun _ => rfl⟩

variable {memName : String} {is64 : Bool}

theorem Gives.indexConst (value : Int) : Gives S (indexTy is64) (swamMakeIndexConst value is64) := by
  cases is64 with
  | false => exact Gives.const (.i32 _)
  | true => exact Gives.const (.i64 _)

/-- Arithmetic on numbers of the index type. -/
theorem Gives.indexOp {op32 op64 : Op} (operands32 : op32.operands = [.i32, .i32])
    (results32 : op32.results = [.i32]) (operands64 : op64.operands = [.i64, .i64])
    (results64 : op64.results = [.i64]) {a b : Expr} (ha : Gives S (indexTy is64) a)
    (hb : Gives S (indexTy is64) b) :
    Gives S (indexTy is64) (.node (.binary (if is64 then op64 else op32)) [a, b]) := by
  have operands : (if is64 then op64 else op32).operands.map Ty.one =
      [indexTy is64, indexTy is64] := by
    cases is64 with
    | false => exact congrArg (List.map Ty.one) operands32
    | true => exact congrArg (List.map Ty.one) operands64
  have results : Ty.vals (if is64 then op64 else op32).results = indexTy is64 := by
    cases is64 with
    | false => exact congrArg Ty.vals results32
    | true => exact congrArg Ty.vals results64
  exact Gives.operation (.cons ha (.cons hb .nil)) (congrArg some operands) rfl (fun _ => id)
    (fun ts => congrArg (strictTy · ts) results) ha.declared

theorem Gives.memoryBytes (memory : S.sig.memories memName = some is64) :
    Gives S (indexTy is64) (swamBuildMemoryBytes memName is64) := by
  have constant : Gives S _ _ := @Gives.indexConst S is64 swamPageSizeBytes
  refine Gives.indexOp rfl rfl rfl rfl ?_ constant
  exact Gives.instruction .nil rfl (fun ts fits => ⟨_, if_pos memory, fits⟩) (fun _ _ => rfl)
    constant.declared

theorem Gives.baseAddress (memory : S.sig.memories memName = some is64) (s : SwamScenario) :
    Gives S (indexTy is64) (swamBuildBaseAddress (some s) memName is64) := by
  have bytes : Gives S _ _ := Gives.memoryBytes memory
  have one : Gives S _ _ := @Gives.indexConst S is64 1
  have below : Gives S _ (.node (.binary (if is64 then .subInt64 else .subInt32)) _) :=
    Gives.indexOp rfl rfl rfl rfl bytes (Gives.indexConst s.accessWidth)
  have half : Gives S _ (.node (.binary (if is64 then .divUInt64 else .divUInt32)) _) :=
    Gives.indexOp rfl rfl rfl rfl bytes (Gives.indexConst 2)
  unfold swamBuildBaseAddress
  dsimp only
  split
  · exact Gives.indexConst _
  split
  · cases is64 with
    | false => exact Gives.const (.i32 _)
    | true => exact Gives.const (.i64 _)
  split
  · exact bytes
  split
  · split
    · exact Gives.indexOp rfl rfl rfl rfl half one
    · exact Gives.indexOp rfl rfl rfl rfl below one
    · exact Gives.indexOp rfl rfl rfl rfl below one
  · split
    · exact below
    · exact Gives.indexOp rfl rfl rfl rfl below one
    · exact half

/-- The lane instructions of the catalog leave what their class says. -/
theorem swamScenarioCatalog_lanes : ∀ s ∈ swamScenarioCatalog,
    (s.opClass = .simdLoadLane → (swamSimdLaneOp s.opKind).results = [.v128]) ∧
      (s.opClass = .simdStoreLane → (swamSimdLaneOp s.opKind).results = []) := by
  decide +kernel

private theorem simdLoadOp_type (kind : SwamOpKind) :
    (swamSimdLoadOp kind).operands.tail = [] ∧ (swamSimdLoadOp kind).results = [.v128] := by
  cases kind <;> decide

private theorem simdLaneOp_operands (kind : SwamOpKind) :
    (swamSimdLaneOp kind).operands.tail = [.v128] := by
  cases kind <;> decide

theorem Gives.dummy (type : SwamValType) :
    Gives S (.one (swamValtypeToBinaryen type)) (swamMakeDummyValue type) := by
  cases type with
  | i32 => exact Gives.const (.i32 _)
  | i64 => exact Gives.const (.i64 _)
  | f32 => exact Gives.const (.f32 _)
  | f64 => exact Gives.const (.f64 _)
  | v128 => exact Gives.const (.v128 _)

/-- The target instruction of a catalog row leaves nothing behind. `memory.init` takes an offset
and a size of type `i32`, which the probe has for 32-bit memories only. -/
theorem Gives.targetOp {s : SwamScenario} (member : s ∈ swamScenarioCatalog) {addrLocal : Nat}
    (memory : S.sig.memories memName = some is64)
    (addr : S.locals[addrLocal]? = some (indexTy is64))
    (narrow : s.opClass = .bulkInit → is64 = false) :
    Gives S Ty.none (swamBuildTargetOp (some s) addrLocal memName is64) := by
  have zero : Gives S _ _ := @Gives.indexConst S is64 0
  have one : Gives S _ _ := @Gives.indexConst S is64 1
  have number (value : BitVec 32) : Gives S Ty.i32 (.node (.const (.i32 value)) []) :=
    Gives.const (.i32 value)
  have ptr : Gives S (indexTy is64) (.node (.localGet addrLocal (if is64 then Ty.i64 else Ty.i32)) []) := by
    refine Gives.instruction .nil rfl (fun ts fits => ⟨[], ?_, fits⟩) (fun _ _ => rfl) zero.declared
    rw [Kind.operands?, addr]
    exact if_pos rfl
  have dummy : Gives S _ _ := Gives.dummy s.valueType
  have vector : Gives S (.one .v128) swamMakeV128Const := Gives.const (.v128 _)
  have lanes := swamScenarioCatalog_lanes s member
  have at_ {β : Type} (f : Bool → β) : (S.sig.memories memName).map f = some (f is64) := by
    rw [memory, Option.map_some]
  have value (t : ValTy) : Ty.one t ≠ Ty.none := by simp [Ty.one, Ty.none]
  unfold swamBuildTargetOp
  dsimp only
  split
  next => exact .drop (.operation (.cons ptr .nil) (at_ _) rfl (fun _ => id) (fun _ => rfl) dummy.declared) (value _)
  next => exact .operation (.cons ptr (.cons dummy .nil)) (at_ _) rfl (fun _ => id) (fun _ => rfl) (by decide)
  next => exact .drop (.operation (.cons ptr .nil) (at_ _) rfl (fun _ => id) (fun _ => rfl) dummy.declared) (value _)
  next => exact .operation (.cons ptr (.cons dummy .nil)) (at_ _) rfl (fun _ => id) (fun _ => rfl) (by decide)
  next =>
    exact .drop (.operation (.cons ptr (.cons dummy .nil)) (at_ _) rfl (fun _ => id) (fun _ => rfl) dummy.declared)
      (value _)
  next =>
    exact .drop (.operation (.cons ptr (.cons dummy (.cons dummy .nil))) (at_ _)
      rfl (fun _ => id) (fun _ => rfl) dummy.declared) (value _)
  next =>
    exact .drop (.operation (.cons ptr (.cons dummy (.cons (.const (.i64 0)) .nil))) (at_ _)
      rfl (fun _ => id) (fun _ => rfl) (by decide)) (by decide)
  next =>
    exact .drop (.operation (.cons ptr (.cons (number _) .nil)) (at_ _) rfl (fun _ => id) (fun _ => rfl) (by decide))
      (by decide)
  next =>
    refine .drop (.operation (.cons one .nil) (if_pos memory) rfl (fun _ => id) (fun _ => rfl) one.declared) ?_
    cases is64 <;> decide
  next =>
    obtain ⟨operands, results⟩ := simdLoadOp_type s.opKind
    split
    · exact .drop (.operation (.cons ptr .nil) (at_ _) rfl (fun _ => id) (fun _ => rfl) (by decide)) (value .v128)
    · refine .drop (.operation (.cons ptr .nil) ?_ rfl (fun _ => id) (fun ts => ?_) (by decide))
        (value .v128)
      · rw [Kind.operands?, operands]
        exact at_ _
      · rw [Kind.ty, results]
        rfl
  next cls =>
    refine .drop (.operation (.cons ptr (.cons vector .nil)) ?_ rfl (fun _ => id) (fun ts => ?_) (by decide)) (value .v128)
    · rw [Kind.operands?, simdLaneOp_operands]
      exact at_ _
    · rw [Kind.ty, lanes.1 cls]
      rfl
  next => exact .operation (.cons ptr (.cons vector .nil)) (at_ _) rfl (fun _ => id) (fun _ => rfl) (by decide)
  next cls =>
    refine .operation (.cons ptr (.cons vector .nil)) ?_ rfl (fun _ => id) (fun ts => ?_) (by decide)
    · rw [Kind.operands?, simdLaneOp_operands]
      exact at_ _
    · rw [Kind.ty, lanes.2 cls]
      rfl
  next =>
    refine .operation (.cons ptr (.cons zero (.cons one .nil))) ?_ rfl (fun _ => id) (fun _ => rfl) (by decide)
    simp [Kind.operands?, memory]
  next => exact .operation (.cons ptr (.cons (number _) (.cons one .nil))) (at_ _) rfl (fun _ => id) (fun _ => rfl) (by decide)
  next cls =>
    cases narrow cls
    exact .operation (.cons ptr (.cons zero (.cons one .nil))) (at_ _) rfl (fun _ => id) (fun _ => rfl)
      (by decide)

/-- A catalog row's probe is an expression a probe position can hold. -/
theorem swamBuildProbe_fits {s : SwamScenario} (member : s ∈ swamScenarioCatalog) (m : Module)
    {addrLocal : Nat} (memory : S.sig.memories memName = some is64)
    (addr : S.locals[addrLocal]? = some (indexTy is64))
    (before : S.sig.globals swamMarkerBefore = some (Ty.i32, true))
    (after : S.sig.globals swamMarkerAfter = some (Ty.i32, true))
    (narrow : s.opClass = .bulkInit → is64 = false) :
    (swamBuildProbe m (some s) addrLocal memName is64).2.Closed ∧
      Valid S (swamBuildProbe m (some s) addrLocal memName is64).2 := by
  have marker {name : String} (known : S.sig.globals name = some (Ty.i32, true)) :
      Gives S Ty.none (swamBuildMarkerSet name s.id) := by
    refine .operation (.cons (.const (.i32 _)) .nil) ?_ rfl (fun _ => id) (fun _ => rfl) (by decide)
    simp [Kind.operands?, known, Literal.ty, Ty.one, Ty.i32]
  have base : Gives S _ _ := Gives.baseAddress memory s
  have address : Gives S Ty.none
      (.node (.localSet addrLocal) [swamBuildBaseAddress (some s) memName is64]) := by
    refine .operation (.cons base .nil) ?_ rfl (fun _ => id) (fun _ => rfl) (by decide)
    simp [Kind.operands?, addr]
  have target : Gives S _ _ := Gives.targetOp member memory addr narrow
  have whole : Gives S Ty.none (swamBuildProbe m (some s) addrLocal memName is64).2 := by
    refine Gives.block ?_
    simp only [List.forall_mem_cons]
    exact ⟨marker before, address, target, marker after, List.forall_mem_nil _⟩
  exact ⟨⟨whole.quiet, whole.type⟩, whole.valid⟩

end Probe

end Swam
