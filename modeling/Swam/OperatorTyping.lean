import Swam.Binaryen.Exchanging
import Swam.InstrTyping

/-!
# Operators of a group are typed alike

The instructions of a group take and leave values of the same types. So one of them can stand for
another over the same operands, where the pointers of the memory it works on are of the type that
the group says, and where the memory can be named.
-/
namespace Swam

open Binaryen Lib

/-! ## Immediates -/

/-- How many bytes an access to memory can move for a value of the type. -/
def Binaryen.ValTy.widths : ValTy → List Nat
  | .i32 => [1, 2, 4]
  | .i64 => [1, 2, 4, 8]
  | .f32 => [4]
  | .f64 => [8]
  | .v128 => [16]
  | _ => []

/-- The alignment that an access may claim. -/
structure Aligned (align bytes : Nat) (atomic : Bool) : Prop where
  power : ∃ shift, align = 2 ^ shift
  natural : align ≤ bytes
  whole : atomic = true → align = bytes

/-- An access that other threads see at once. -/
def Binaryen.Kind.isAtomic (k : Kind) : Bool := k.access.any (·.atomic)

/-- Widths, alignments and lanes are in range. -/
def Binaryen.Kind.InRange : Kind → Prop
  | .load bytes signed _ align ty atomic _ =>
    bytes ∈ ty.widths ∧ Aligned align bytes atomic ∧ (atomic = true → signed = false)
  | .store bytes _ align ty atomic _ => bytes ∈ ty.widths ∧ Aligned align bytes atomic
  | .simdLoad op _ align _ => Aligned align op.bytes false
  | .simdLoadStoreLane op _ align lane _ => Aligned align op.bytes false ∧ lane < op.lanes
  | .simdExtract op lane | .simdReplace op lane => lane < op.lanes
  | .simdShuffle mask => mask.length = 16 ∧ ∀ lane ∈ mask, lane < 32
  | _ => True

theorem Binaryen.Op.bytes_pos (op : Op) : 0 < op.bytes := by
  unfold Op.bytes
  split <;> decide

theorem Binaryen.Op.lanes_pos (op : Op) : 0 < op.lanes := by
  unfold Op.lanes
  split <;> decide

theorem Binaryen.ValTy.widths_pos {ty : ValTy} {bytes : Nat} (member : bytes ∈ ty.widths) : 0 < bytes := by
  unfold ValTy.widths at member
  split at member <;> simp at member <;> omega

/-- A drawn alignment is one that an access may claim, as long as it is not an atomic one. -/
theorem randAlign_aligned {bytes : Nat} (positive : 0 < bytes) (r : Rand) :
    Aligned (randAlign bytes r).1 bytes false := by
  have drawn := randBelow_lt (Nat.succ_pos (Nat.log2 bytes)) r
  have shifted : (randAlign bytes r).1 = 2 ^ (randBelow (Nat.log2 bytes + 1) r).1 :=
    Nat.one_shiftLeft _
  refine ⟨⟨_, shifted⟩, ?_, nofun⟩
  rw [shifted]
  calc 2 ^ (randBelow (Nat.log2 bytes + 1) r).1
      ≤ 2 ^ Nat.log2 bytes := Nat.pow_le_pow_right (by decide) (Nat.le_of_lt_succ drawn)
    _ ≤ bytes := Nat.log2_self_le (by omega)

theorem randMask_inRange (n : Nat) (r : Rand) :
    (randMask n r).1.length = n ∧ ∀ lane ∈ (randMask n r).1, lane < 32 := by
  induction n generalizing r with
  | zero => exact ⟨rfl, nofun⟩
  | succ n ih =>
    obtain ⟨length, below⟩ := ih (randBelow 32 r).2
    refine ⟨congrArg Nat.succ length, ?_⟩
    intro lane member
    rcases List.mem_cons.mp member with rfl | rest
    · exact randBelow_lt (show 0 < 32 by decide) r
    · exact below lane rest

/-! ## Instructions that share a group -/

/-- An access to memory with one pointer. -/
def InstrTy.isAccess : InstrTy → Bool
  | .load .. | .store .. | .simdLoad _ | .simdLoadStoreLane _ => true
  | _ => false

def InstrTy.usesMemory (inst : InstrTy) : Bool :=
  inst.isAccess || inst matches .memorySize | .memoryGrow | .memoryInit | .memoryCopy | .memoryFill

/-- An instruction that may be exchanged for another one. -/
def InstrTy.isShared : InstrTy → Bool
  | .const ty => ty = .i32
  | .refNull ty => ty = .funcref
  | .load ty bytes _ | .store ty bytes => ty.widths.contains bytes
  | .select _ | .drop _ | .refIsNull _ | .tableGet _ | .tableSet _ | .tableGrow _ => false
  | _ => true

theorem groups_shared : ∀ grp ∈ wasmInitInstrGrps, 1 < grp.groups.length →
    ∀ inst ∈ grp.groups, inst.isShared = true := by
  decide +kernel

/-- The operand types where pointers are of an index type. -/
def InstrTy.wants (is64 : Bool) (inst : InstrTy) : List Ty :=
  if inst.isAccess then indexTy is64 :: inst.required.tail.map .one else inst.required.map .one

theorem InstrTy.wants_narrow (inst : InstrTy) : inst.wants false = inst.required.map .one := by
  cases inst <;> rfl

/-- Instructions of a group take operands of the same types, if both or none of them is an access, or
pointers are narrow. -/
theorem InstrTy.wants_eq {inst new : InstrTy} {is64 : Bool} (same : inst.required = new.required)
    (alike : inst.isAccess = true ∧ new.isAccess = true ∨ is64 = false) :
    inst.wants is64 = new.wants is64 := by
  rcases alike with ⟨first, second⟩ | rfl
  · rw [InstrTy.wants, InstrTy.wants, if_pos first, if_pos second, same]
  · rw [wants_narrow, wants_narrow, same]

/-- The memories that an instruction names. -/
def Binaryen.Kind.memoryNames : Kind → List String
  | .load _ _ _ _ _ _ mem | .store _ _ _ _ _ mem | .simdLoad _ _ _ mem
  | .simdLoadStoreLane _ _ _ _ mem | .memorySize mem _ | .memoryGrow mem _ | .memoryInit _ mem
  | .memoryFill mem => [mem]
  | .memoryCopy dest source => [dest, source]
  | _ => []

/-- Kinds whose instructions are alone in their groups. -/
def Binaryen.Kind.isAlone : Kind → Bool
  | .drop | .refIsNull | .tableSet _ | .tableGrow _ | .tableGet _ _ | .select _ => true
  | _ => false

private theorem isShared_of_alone {k : Kind} {cs : List Expr} {inst : InstrTy}
    (here : wasmGetInstrType (.node k cs) = some inst) (alone : k.isAlone = true) :
    inst.isShared = false := by
  unfold wasmGetInstrType whenTyped at here
  split at here <;> grind [InstrTy.isShared, Kind.isAlone, Option.map_eq_some_iff]

/-- The width of the pointers of a memory that an instruction works on. -/
theorem narrow_of {S : Scope} {names : List String} {name : String} {is64 : Bool}
    (narrow : ∀ name ∈ names, S.sig.memories name ≠ some true) (member : name ∈ names)
    (found : S.sig.memories name = some is64) : is64 = false := by
  cases is64 with
  | false => rfl
  | true => exact absurd found (narrow name member)

/-- The operands of a node are of the types that its instruction takes. -/
theorem operands_fit {S : Scope} {k : Kind} {cs : List Expr} {inst : InstrTy}
    (typed : k.Typed S (cs.map Expr.top?)) (here : wasmGetInstrType (.node k cs) = some inst)
    (shared : inst.isShared = true)
    (narrow : inst.isAccess = false → ∀ name ∈ k.memoryNames, S.sig.memories name ≠ some true) :
    ∃ is64, FitsAll (cs.map Expr.top?) (inst.wants is64) ∧
      (inst.isAccess = true → ∃ name ∈ k.memoryNames, S.sig.memories name = some is64) := by
  cases k with
  | load _ _ _ _ _ _ mem =>
    obtain ⟨_, ⟨⟩⟩ := Option.ite_none_right_eq_some.mp here
    obtain ⟨_, known, fits⟩ := typed
    obtain ⟨is64, found, rfl⟩ := Option.map_eq_some_iff.mp known
    exact ⟨is64, fits, fun _ => ⟨mem, List.mem_singleton_self _, found⟩⟩
  | store _ _ _ _ _ mem | simdLoad _ _ _ mem | simdLoadStoreLane _ _ _ _ mem =>
    cases here
    obtain ⟨_, known, fits⟩ := typed
    obtain ⟨is64, found, rfl⟩ := Option.map_eq_some_iff.mp known
    exact ⟨is64, fits, fun _ => ⟨mem, List.mem_singleton_self _, found⟩⟩
  | unary _ | binary _ | simdExtract _ _ | simdReplace _ _ | simdTernary _ | simdShift _ | nop
  | dataDrop _ | const _ =>
    cases here
    obtain ⟨_, known, fits⟩ := typed
    cases known
    exact ⟨false, fits, nofun⟩
  | simdShuffle _ =>
    obtain ⟨_, ⟨⟩⟩ := Option.ite_none_right_eq_some.mp here
    obtain ⟨_, known, fits⟩ := typed
    cases known
    exact ⟨false, fits, nofun⟩
  | memorySize _ _ =>
    obtain ⟨_, ⟨⟩⟩ := Option.ite_none_right_eq_some.mp here
    obtain ⟨_, known, fits⟩ := typed
    obtain ⟨_, equal⟩ := Option.ite_none_right_eq_some.mp known
    cases equal
    exact ⟨false, fits, nofun⟩
  | refNull _ =>
    cases here
    obtain ⟨_, known, fits⟩ := typed
    obtain ⟨_, equal⟩ := Option.ite_none_right_eq_some.mp known
    cases equal
    exact ⟨false, fits, nofun⟩
  | refFunc _ _ =>
    cases here
    obtain ⟨_, known, fits⟩ := typed
    obtain ⟨_, _, known⟩ := Option.bind_eq_some_iff.mp known
    obtain ⟨_, equal⟩ := Option.ite_none_right_eq_some.mp known
    cases equal
    exact ⟨false, fits, nofun⟩
  | tableSize _ =>
    cases here
    obtain ⟨_, known, fits⟩ := typed
    obtain ⟨_, _, rfl⟩ := Option.map_eq_some_iff.mp known
    exact ⟨false, fits, nofun⟩
  | memoryGrow mem is64 =>
    obtain ⟨_, ⟨⟩⟩ := Option.ite_none_right_eq_some.mp here
    obtain ⟨_, known, fits⟩ := typed
    obtain ⟨found, equal⟩ := Option.ite_none_right_eq_some.mp known
    cases equal
    cases narrow_of (narrow rfl) (List.mem_singleton_self _) found
    exact ⟨false, fits, nofun⟩
  | memoryInit _ mem | memoryFill mem =>
    obtain ⟨_, ⟨⟩⟩ := Option.ite_none_right_eq_some.mp here
    obtain ⟨_, known, fits⟩ := typed
    obtain ⟨is64, found, rfl⟩ := Option.map_eq_some_iff.mp known
    cases narrow_of (narrow rfl) (List.mem_singleton_self _) found
    exact ⟨false, fits, nofun⟩
  | memoryCopy dest source =>
    obtain ⟨_, ⟨⟩⟩ := Option.ite_none_right_eq_some.mp here
    obtain ⟨_, known, fits⟩ := typed
    obtain ⟨dest64, found, known⟩ := Option.bind_eq_some_iff.mp known
    obtain ⟨source64, found', rfl⟩ := Option.map_eq_some_iff.mp known
    cases narrow_of (narrow rfl) List.mem_cons_self found
    cases narrow_of (narrow rfl) (List.mem_cons_of_mem _ (List.mem_singleton_self _)) found'
    exact ⟨false, fits, nofun⟩
  | drop | refIsNull | tableSet _ | tableGrow _ | tableGet _ _ | select _ =>
    rw [isShared_of_alone here rfl] at shared
    cases shared
  | _ => cases here

private theorem no_operands {cs : List Expr} (fits : FitsAll (cs.map Expr.top?) []) : cs = [] :=
  List.map_eq_nil_iff.mp (List.forall₂_nil_right_iff.mp fits)

/-- A node leaves what its instruction leaves. -/
theorem top?_eq_produced {S : Scope} {k : Kind} {cs : List Expr} {inst : InstrTy}
    (typed : k.Typed S (cs.map Expr.top?)) (here : wasmGetInstrType (.node k cs) = some inst)
    (shared : inst.isShared = true) :
    Expr.top? (.node k cs) = some (strictTy (.vals inst.produced) (cs.map Expr.ty?)).top := by
  rw [Expr.top?_node]
  cases k with
  | load _ _ _ _ _ _ _ | simdShuffle _ | memoryInit _ _ | memoryCopy _ _ | memoryFill _ =>
    obtain ⟨_, ⟨⟩⟩ := Option.ite_none_right_eq_some.mp here
    rfl
  | store _ _ _ _ _ _ | simdLoad _ _ _ _ | simdLoadStoreLane _ _ _ _ _ | unary _ | binary _
  | simdExtract _ _ | simdReplace _ _ | simdTernary _ | simdShift _ | tableSize _ =>
    cases here
    rfl
  | memoryGrow _ is64 =>
    obtain ⟨type, ⟨⟩⟩ := Option.ite_none_right_eq_some.mp here
    rw [Expr.ty_node] at type
    cases is64 with
    | false => rfl
    | true =>
      rw [Kind.ty, strictTy] at type
      split at type <;> cases type
  | memorySize _ is64 =>
    obtain ⟨type, ⟨⟩⟩ := Option.ite_none_right_eq_some.mp here
    obtain ⟨_, known, fits⟩ := typed
    obtain ⟨_, equal⟩ := Option.ite_none_right_eq_some.mp known
    cases equal
    cases no_operands fits
    cases is64 with
    | false => rfl
    | true => cases type
  | nop | dataDrop _ | const _ =>
    cases here
    obtain ⟨_, known, fits⟩ := typed
    cases known
    cases no_operands fits
    rfl
  | refNull ty =>
    cases here
    obtain ⟨_, known, fits⟩ := typed
    obtain ⟨_, equal⟩ := Option.ite_none_right_eq_some.mp known
    cases equal
    cases no_operands fits
    have function : ty = .nullFuncref := by
      by_contra other
      rw [if_neg other] at shared
      cases shared
    rw [function]
    rfl
  | refFunc _ _ =>
    cases here
    obtain ⟨_, known, fits⟩ := typed
    obtain ⟨_, _, known⟩ := Option.bind_eq_some_iff.mp known
    obtain ⟨type, equal⟩ := Option.ite_none_right_eq_some.mp known
    cases equal
    cases no_operands fits
    exact congrArg (fun t => some (Ty.vals [t])) type
  | drop | refIsNull | tableSet _ | tableGrow _ | tableGet _ _ | select _ =>
    rw [isShared_of_alone here rfl] at shared
    cases shared
  | _ => cases here

/-- Instructions introduce no labels. -/
theorem labels_of_operands {k : Kind} {n : Nat} (operands : k.operandCount? = some n) : k.labels = [] := by
  cases k <;> first | rfl | cases operands

theorem enter_of_operands {k : Kind} {n : Nat} (operands : k.operandCount? = some n) (S : Scope) :
    S.enter k = S := by
  cases k <;> first | rfl | cases operands

/-! ## The operator in place -/

/-- A new operator in place of the old one asks for the same operands. -/
theorem substitute_typed {k k' : Kind} {cs : List Expr} {inst new : InstrTy} {r r' : Rand}
    (here : wasmGetInstrType (.node k cs) = some inst)
    (substituted : wasmSubstituteExprFields k new r = some (k', r'))
    (takes : new.required = inst.required) (leaves : new.produced = inst.produced) :
    (∀ (S : Scope) ts, k.Typed S ts → k'.Typed S ts) ∧ ∀ ts, k'.ty ts = k.ty ts := by
  unfold wasmSubstituteExprFields at substituted
  split at substituted
  case h_1 | h_2 | h_3 | h_4 | h_5 | h_6 =>
    cases here
    cases substituted
    simp only [InstrTy.required, InstrTy.produced] at takes leaves
    constructor
    · intro S ts typed
      simpa only [Kind.Typed, Kind.operands?, takes] using typed
    · intro ts
      simp only [Kind.ty, leaves]
  case h_7 | h_8 =>
    cases here
    cases substituted
    simp only [InstrTy.required, InstrTy.produced, List.cons.injEq, true_and] at takes leaves
    constructor
    · intro S ts typed
      simpa only [Kind.Typed, Kind.operands?, takes] using typed
    · intro ts
      simp only [Kind.ty, leaves]
  case h_19 => cases substituted
  all_goals
    -- the typing rule does not look at what changes
    cases substituted
    exact ⟨fun _ _ typed => typed, fun _ => rfl⟩

/-- The immediates are drawn for the new operator. Only an atomic access needs more than that. -/
theorem substitute_inRange {k k' : Kind} {cs : List Expr} {inst new : InstrTy} {r r' : Rand}
    (here : wasmGetInstrType (.node k cs) = some inst)
    (substituted : wasmSubstituteExprFields k new r = some (k', r'))
    (takes : new.required = inst.required) (leaves : new.produced = inst.produced)
    (shared : new.isShared = true) (range : k.InRange)
    (plain : k.isAtomic = false) : k'.InRange := by
  unfold wasmSubstituteExprFields at substituted
  split at substituted
  case h_3 | h_4 =>
    cases substituted
    exact randBelow_lt (Op.lanes_pos _) _
  case h_7 =>
    cases substituted
    exact randAlign_aligned (Op.bytes_pos _) _
  case h_8 =>
    cases substituted
    exact ⟨randAlign_aligned (Op.bytes_pos _) _, randBelow_lt (Op.lanes_pos _) _⟩
  case h_9 =>
    obtain ⟨_, ⟨⟩⟩ := Option.ite_none_right_eq_some.mp here
    cases substituted
    cases leaves
    cases plain
    have width := List.contains_iff_mem.mp shared
    exact ⟨width, randAlign_aligned (ValTy.widths_pos width) _, nofun⟩
  case h_10 =>
    cases here
    cases substituted
    cases takes
    cases plain
    have width := List.contains_iff_mem.mp shared
    exact ⟨width, randAlign_aligned (ValTy.widths_pos width) _⟩
  case h_19 => cases substituted
  all_goals
    cases substituted
    exact range

theorem substitute_plain {k k' : Kind} {new : InstrTy} {r r' : Rand}
    (substituted : wasmSubstituteExprFields k new r = some (k', r')) (plain : k.isAtomic = false) :
    k'.isAtomic = false := by
  unfold wasmSubstituteExprFields at substituted
  split at substituted
  case h_9 | h_10 =>
    cases substituted
    cases plain
    rfl
  case h_19 => cases substituted
  all_goals
    cases substituted
    rfl

end Swam
