import Swam.ProbeTrap

/-!
# The alignment law

The address expressions of a probe compute modulo `2^N`. Their values are written
here as integers, of which the machine keeps the remainder: an access width divides
`2^N`, so that no wrap-around changes the remainder by the width.
-/
namespace Swam

open Binaryen

/-! ## Index values as integers -/

/-- An integer as an index value. -/
def indexVal (is64 : Bool) (z : Int) : Val :=
  if is64 then .i64 (BitVec.ofInt 64 z) else .i32 (BitVec.ofInt 32 z)

theorem pagesVal_eq_indexVal (is64 : Bool) (n : Nat) : pagesVal is64 n = indexVal is64 n := by
  cases is64 <;> simp [pagesVal, indexVal]

theorem indexVal_index (is64 : Bool) (z : Int) :
    (indexVal is64 z).index = some (z % indexRange is64).toNat := by
  cases is64 <;> simp [indexVal, Val.index, indexRange]

section IndexExpressions

variable {R : Runtime} {σ : State} {is64 : Bool} {e f : Expr} {a b : Int}

theorem yields_swamMakeIndexConst (z : Int) (is64 : Bool) :
    Yields R (swamMakeIndexConst z is64) σ (indexVal is64 z) := by
  cases is64 <;> exact yields_const _

private theorem yields_indexAdd (left : Yields R e σ (indexVal is64 a))
    (right : Yields R f σ (indexVal is64 b)) :
    Yields R (.node (.binary (addOp is64)) [e, f]) σ (indexVal is64 (a + b)) := by
  apply left.arith right
  cases is64 <;> simp [addOp, indexVal, arith, BitVec.ofInt_add]

private theorem ofInt_sub (w : Nat) (a b : Int) :
    BitVec.ofInt w (a - b) = BitVec.ofInt w a - BitVec.ofInt w b := by
  rw [Int.sub_eq_add_neg, BitVec.ofInt_add, BitVec.ofInt_neg, BitVec.sub_eq_add_neg]

private theorem yields_indexSub (left : Yields R e σ (indexVal is64 a))
    (right : Yields R f σ (indexVal is64 b)) :
    Yields R (.node (.binary (subOp is64)) [e, f]) σ (indexVal is64 (a - b)) := by
  apply left.arith right
  cases is64 <;> simp [subOp, indexVal, arith, ofInt_sub]

end IndexExpressions

/-! ## The base address -/

section BaseAddress

variable {R : Runtime} {σ : State} {mem : String} {is64 : Bool} {s : SwamScenario}

/-- What `memory.size * 65536` leaves of the byte size of a memory. -/
def memoryBytes (pages : Nat) (is64 : Bool) : Nat :=
  pages * pageSize % indexRange is64

theorem yields_swamBuildMemoryBytes (mem : String) (is64 : Bool) :
    Yields R (swamBuildMemoryBytes mem is64) σ
      (indexVal is64 (memoryBytes (σ.mems mem).pages is64)) := by
  have kept : pagesVal is64 (σ.mems mem).size =
      pagesVal is64 (memoryBytes (σ.mems mem).pages is64) := by
    unfold pagesVal memoryBytes MemInst.size indexRange
    cases is64 with
    | false => exact congrArg Val.i32 (BitVec.eq_of_toNat_eq (by simp))
    | true => exact congrArg Val.i64 (BitVec.eq_of_toNat_eq (by simp))
  rw [← pagesVal_eq_indexVal, ← kept]
  exact yields_memoryBytes mem is64

/-- The base address of a row as an integer, at a memory of `bytes` bytes. -/
def SwamScenario.signedBase (s : SwamScenario) (bytes : Int) : Int :=
  if s.wrap = .overflow then -s.accessWidth
  else if s.align = .aligned ∧ s.layout = .oob then bytes
  else if s.align = .misaligned then
    match s.layout with
    | .interior => bytes / 2 + 1
    | .boundary => bytes - s.accessWidth - 1
    | .oob => bytes - s.accessWidth + 1
  else
    match s.layout with
    | .boundary => bytes - s.accessWidth
    | .oob => bytes - s.accessWidth + 1
    | .interior => bytes / 2

/-- The address expression computes the integer base modulo `2^N`, at every page
count. -/
theorem yields_swamBuildBaseAddress (accesses : s.opClass ≠ .memoryGrow)
    (positive : 0 < s.accessWidth) :
    Yields R (swamBuildBaseAddress (some s) mem is64) σ
      (indexVal is64 (s.signedBase (memoryBytes (σ.mems mem).pages is64))) := by
  have bytes : Yields R _ σ _ := yields_swamBuildMemoryBytes mem is64
  have width : Yields R _ σ _ := yields_swamMakeIndexConst s.accessWidth is64
  have one : Yields R _ σ _ := yields_swamMakeIndexConst 1 is64
  have half : Yields R (.node (.binary (divUOp is64))
      [swamBuildMemoryBytes mem is64, swamMakeIndexConst 2 is64]) σ
      (indexVal is64 (memoryBytes (σ.mems mem).pages is64 / 2)) := by
    have two : Yields R _ σ _ := yields_indexConst 2 is64
    rw [← pagesVal_eq_indexVal] at bytes
    have halved := bytes.arith two (arith_divU (Nat.mod_lt _ (by cases is64 <;> decide))
      (by cases is64 <;> decide) (by decide))
    rw [pagesVal_eq_indexVal] at halved
    exact halved
  have below := yields_indexSub bytes width
  unfold swamBuildBaseAddress SwamScenario.signedBase
  simp only [accesses, Nat.ne_of_gt positive, false_or, if_false]
  split
  · cases is64 <;> exact yields_swamMakeIndexConst _ _
  split
  · exact bytes
  split
  · cases s.layout with
    | interior => exact yields_indexAdd half one
    | boundary => exact yields_indexSub below one
    | oob => exact yields_indexAdd below one
  · cases s.layout with
    | interior => exact half
    | boundary => exact below
    | oob => exact yields_indexAdd below one

end BaseAddress

/-! ## The target instruction -/

/-- The memory access of an instruction and the operand it takes its address from,
also when the result is dropped. -/
def memoryAccess : Expr → Option (Access × Expr)
  | .node .drop [.node k (ptr :: _)] => k.access.map (·, ptr)
  | .node k (ptr :: _) => k.access.map (·, ptr)
  | _ => none

/-- An atomic row accesses its width at the address local and its static offset. -/
theorem memoryAccess_swamBuildTargetOp {s : SwamScenario} (regular : s.Regular)
    (atomic : s.opClass.isAtomic) (idx : Nat) (mem : String) (is64 : Bool) :
    memoryAccess (swamBuildTargetOp (some s) idx mem is64) =
      some (⟨mem, s.accessWidth, s.staticOffset, true⟩,
        .node (.localGet idx (if is64 then Ty.i64 else Ty.i32)) []) := by
  have accessed := regular.accessed
  unfold swamBuildTargetOp
  cases cls : s.opClass <;> simp [cls, SwamOpClass.isAtomic] at atomic <;>
    simp [SwamScenario.accessed, cls] at accessed <;> simp only [cls] <;>
    simp [memoryAccess, Kind.access, SwamScenario.staticOffset, accessed]

/-! ## The law -/

/-- The alignment attribute stands on atomic rows, and no misaligned row overflows. -/
theorem swamScenarioCatalog_attribute : ∀ s ∈ swamScenarioCatalog, s.align ≠ .na →
    s.opClass.isAtomic ∧ (s.align = .misaligned → s.wrap = .noWrap) := by
  decide +kernel

/-- The remainder by the width of what the machine keeps of an address. -/
private theorem effective_mod {range width : Nat} (divides : width ∣ range) (positive : 0 < range)
    (z : Int) (offset : Nat) :
    (((z % range).toNat + offset) % range % width = 0) ↔ (width : Int) ∣ z + offset := by
  rw [Nat.mod_mod_of_dvd _ divides, ← Nat.dvd_iff_mod_eq_zero, ← Int.natCast_dvd_natCast]
  have kept : ((z % range).toNat : Int) = z % range :=
    Int.toNat_of_nonneg (Int.emod_nonneg _ (by omega))
  have wrapped : (width : Int) ∣ z - z % range :=
    Int.dvd_trans (Int.natCast_dvd_natCast.mpr divides) Int.dvd_self_sub_emod
  rw [Int.natCast_add, kept]
  constructor
  · intro aligned
    have sum := Int.dvd_add aligned wrapped
    rwa [show z % range + offset + (z - z % range) = z + offset by omega] at sum
  · intro aligned
    have difference := Int.dvd_sub aligned wrapped
    rwa [show z + offset - (z - z % range) = z % range + offset by omega] at difference

/-- The integer address of an aligned row is a multiple of its width, that of a
misaligned row is not. -/
private theorem signedBase_aligned_iff {s : SwamScenario} (regular : s.Regular)
    (accesses : s.opClass ≠ .memoryGrow) (stated : s.align ≠ .na)
    (noWrap : s.align = .misaligned → s.wrap = .noWrap) {bytes : Int} (paged : 65536 ∣ bytes) :
    (s.accessWidth : Int) ∣ s.signedBase bytes + s.staticOffset ↔ s.align = .aligned := by
  have width := regular.width accesses
  simp only [List.mem_cons, List.not_mem_nil, or_false] at width
  have misaligned := regular.misaligned
  unfold SwamScenario.signedBase SwamScenario.staticOffset
  cases align : s.align with
  | na => exact absurd align stated
  | misaligned =>
    -- the last step by one leaves an odd address, or one next to a multiple
    have wide := (misaligned align).2
    simp only [noWrap align, reduceCtorEq, if_false, false_and, if_true, iff_false]
    cases s.layout <;> simp only <;> rcases width with h | h | h | h | h <;> rw [h] at wide ⊢ <;>
      push_cast <;> omega
  | aligned =>
    simp only [reduceCtorEq, if_false, true_and, iff_true]
    cases s.wrap with
    | overflow =>
      rw [if_pos rfl, if_pos rfl, Int.add_left_neg]
      exact Int.dvd_zero _
    | noWrap =>
      cases s.layout <;> simp <;> rcases width with h | h | h | h | h <;> rw [h] <;>
        push_cast <;> omega

/-- The alignment law: at every page count of either index type, the address a
catalog row computes and its static offset sum modulo `2^N` to a multiple of the
accessed width when the row is aligned, and to no multiple when it is misaligned. -/
theorem effective_address_aligned_iff (R : Runtime) {s : SwamScenario}
    (member : s ∈ swamScenarioCatalog) (stated : s.align ≠ .na) (σ : State) (mem : String)
    (is64 : Bool) (idx : Nat) :
    ∃ v base access ptr,
      Yields R (swamBuildBaseAddress (some s) mem is64) σ v ∧ v.index = some base ∧
      memoryAccess (swamBuildTargetOp (some s) idx mem is64) = some (access, ptr) ∧
      ptr = .node (.localGet idx (if is64 then Ty.i64 else Ty.i32)) [] ∧
      access.bytes = s.accessWidth ∧
      ((base + access.offset) % (if is64 then 2 ^ 64 else 2 ^ 32) % s.accessWidth = 0 ↔
        s.align = .aligned) ∧
      ((base + access.offset) % (if is64 then 2 ^ 64 else 2 ^ 32) % s.accessWidth ≠ 0 ↔
        s.align = .misaligned) := by
  have regular := swamScenarioCatalog_regular s member
  obtain ⟨atomic, noWrap⟩ := swamScenarioCatalog_attribute s member stated
  have accesses : s.opClass ≠ .memoryGrow := by
    intro grows
    simp [grows, SwamOpClass.isAtomic] at atomic
  obtain ⟨positive, _, divides⟩ := regular.width_dvd accesses
  have inRange : s.accessWidth ∣ indexRange is64 :=
    Nat.dvd_trans divides (by cases is64 <;> decide)
  have paged : (65536 : Int) ∣ memoryBytes (σ.mems mem).pages is64 := by
    have whole : 65536 ∣ memoryBytes (σ.mems mem).pages is64 :=
      (Nat.dvd_mod_iff (by cases is64 <;> decide)).mpr (Nat.dvd_mul_left _ _)
    exact Int.natCast_dvd_natCast.mpr whole
  have aligned := (effective_mod inRange (by cases is64 <;> decide) _ _).trans
    (signedBase_aligned_iff regular accesses stated noWrap paged)
  refine ⟨_, _, _, _, yields_swamBuildBaseAddress accesses positive, indexVal_index _ _,
    memoryAccess_swamBuildTargetOp regular atomic idx mem is64, rfl, rfl, aligned, ?_⟩
  refine (not_congr aligned).trans ?_
  cases align : s.align with
  | na => exact absurd align stated
  | aligned => decide
  | misaligned => decide

/-- The misaligned boundary row of `i32.atomic.load16_u`, on an empty memory: the
address wraps below zero and stays odd. -/
theorem effective_address_empty_memory :
    ∃ v base access ptr,
      Yields .zeros (swamBuildBaseAddress (some ⟨116, .i32AtomicLoad16U, .atomicLoad, .boundary,
        .trap, 2, false, .i32, .noWrap, .misaligned⟩) "0" false) (.zeros 0) v ∧
      v.index = some base ∧
      memoryAccess (swamBuildTargetOp (some ⟨116, .i32AtomicLoad16U, .atomicLoad, .boundary,
        .trap, 2, false, .i32, .noWrap, .misaligned⟩) 0 "0" false) = some (access, ptr) ∧
      ptr = .node (.localGet 0 Ty.i32) [] ∧ access.bytes = 2 ∧
      ((base + access.offset) % 2 ^ 32 % 2 = 0 ↔ SwamAlign.misaligned = .aligned) ∧
      ((base + access.offset) % 2 ^ 32 % 2 ≠ 0 ↔ SwamAlign.misaligned = .misaligned) :=
  effective_address_aligned_iff .zeros (by decide +kernel) (by decide) (.zeros 0) "0" false 0

end Swam
