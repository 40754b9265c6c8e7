import Mathlib.Data.List.Nodup
import Swam.Binaryen.Typing
import Swam.Rand

/-!
# Helpers shared by the mutators

The mutators walk expressions through a hand-written enumeration of children; kinds
the enumeration does not list count as leaves. They take the labels they introduce from
a pool of names, and create the memory an instruction needs.
-/
namespace Swam

open Binaryen

/-! ## Children and types -/

/-- Kinds whose children `wasm_get_children_expr` lists. A `local.tee` is a
`local.set` that returns its value. -/
def Binaryen.Kind.isEnumerated : Kind → Bool
  | .block _ _ | .if_ | .loop _ | .break_ _ | .switch _ _ | .call _ _ | .callIndirect _ _ _
  | .localSet _ | .localTee _ _ | .globalSet _ | .load .. | .store .. | .unary _ | .binary _
  | .select _ | .drop | .return_ | .memoryGrow _ _ | .simdExtract _ _ | .simdReplace _ _
  | .simdShuffle _ | .simdTernary _ | .simdShift _ | .simdLoad .. | .simdLoadStoreLane ..
  | .memoryInit _ _ | .memoryCopy _ _ | .memoryFill _ | .refIsNull | .tableGet _ _
  | .tableSet _ | .tableGrow _ | .tupleMake | .tupleExtract _ => true
  | _ => false

def wasmGetChildrenExpr : Expr → List Expr
  | .null => []
  | .node k cs => if k.isEnumerated then cs else []

/-- Replace the child at a position that `wasmGetChildrenExpr` lists. -/
def wasmSetChildrenExpr (parent newChild : Expr) (index : Nat) : Expr :=
  match parent with
  | .null => .null
  | .node k cs => if k.isEnumerated then .node k (cs.set index newChild) else .node k cs

/-- Write the type that Binaryen keeps with a node into the kinds that carry one. -/
def Binaryen.Kind.retype (k : Kind) (ty : Ty) : Kind :=
  match k with
  | .block name _ => .block name ty
  | .try_ name _ tags delegate => .try_ name ty tags delegate
  | .select _ => .select ty
  | k => k

/-- How Binaryen derives the type of a node from its children. -/
abbrev Finalizer := Kind → List Expr → Ty

/-- `BinaryenExpressionFinalize`. -/
def binaryenExpressionFinalize (F : Finalizer) : Expr → Expr
  | .null => .null
  | .node k cs => .node (k.retype (F k cs)) cs

/-- Each value type is replaced by the declared type above it. -/
abbrev wasmSimplifyType (original : Ty) : Ty := original.top

/-! ## Random order -/

/-- The swaps of `fisher_yates_shuffle` from position `i` downwards. -/
def fisherYatesFrom : Nat → List Nat → Rand → List Nat × Rand
  | 0, arr, r => (arr, r)
  | i + 1, arr, r =>
    let (j, r) := randBelow (i + 2) r
    fisherYatesFrom i ((arr.set (i + 1) (arr.getD j 0)).set j (arr.getD (i + 1) 0)) r

def fisherYatesShuffle (arr : List Nat) (r : Rand) : List Nat × Rand :=
  fisherYatesFrom (arr.length - 1) arr r

/-! ## Names for new labels -/

/-- A name of the pool. -/
def fuzzName (n : Nat) : String := "fuzz_" ++ toString n

theorem toString_nat_injective {a b : Nat} (equal : toString a = toString b) : a = b := by
  have digits : Nat.toDigits 10 a = Nat.toDigits 10 b := by
    rw [← Nat.toList_repr, ← Nat.toList_repr]
    exact congrArg String.toList equal
  have read := congrArg (Nat.ofDigitChars 10 · 0) digits
  simpa using read

theorem fuzzName_injective {a b : Nat} (equal : fuzzName a = fuzzName b) : a = b := by
  apply toString_nat_injective
  have listed := congrArg String.toList equal
  simp only [fuzzName, String.toList_append, List.append_cancel_left_eq] at listed
  exact String.toList_inj.mp listed

/-- The pool of label names, with counters of its own: the `u32` of the names made and the `s32`
of each list's elements, which `list_append` and `list_remove` keep. -/
structure NamePool where
  nameCnt : BitVec 32
  freeNames : List String
  usedNames : List String

/-- `element_total_count` of a list. -/
def elementTotalCount (names : List String) : Int := (BitVec.ofNat 32 names.length).toInt

namespace NamePool

def wasmInitNameGrp : NamePool where
  nameCnt := 10
  freeNames := (List.range 10).map fuzzName
  usedNames := []

/-- Make a further name and use it. -/
def makeName (names : NamePool) : String × NamePool :=
  (fuzzName names.nameCnt.toNat,
    { names with
      nameCnt := names.nameCnt + 1
      usedNames := names.usedNames ++ [fuzzName names.nameCnt.toNat] })

/-- The count of an empty list is 0, so that the second branch always has a first element. -/
def wasmFindAvailableName (names : NamePool) : String × NamePool :=
  match names.freeNames with
  | [] => names.makeName
  | candidate :: rest =>
    if elementTotalCount names.freeNames ≤ 0 then names.makeName
    else
      (candidate, { names with freeNames := rest, usedNames := names.usedNames ++ [candidate] })

def wasmResetNameGrp (names : NamePool) : NamePool :=
  if 1 ≤ elementTotalCount names.usedNames then
    { names with freeNames := names.freeNames ++ names.usedNames, usedNames := [] }
  else names

end NamePool

/-- The pool as the mutators use it, which take few names between two resets: `nameCnt` names
have been made so far, and each of them is either free or used. Up to the limits of its
counters a `NamePool` is one. -/
structure NameGroup where
  nameCnt : Nat
  freeNames : List String
  usedNames : List String
  distinct : (freeNames ++ usedNames).Nodup
  made : ∀ name ∈ freeNames ++ usedNames, ∃ n < nameCnt, name = fuzzName n

def wasmInitNameGrp : NameGroup where
  nameCnt := 10
  freeNames := (List.range 10).map fuzzName
  usedNames := []
  distinct := by
    rw [List.append_nil]
    exact List.Nodup.map (fun _ _ => fuzzName_injective) List.nodup_range
  made := by
    intro name member
    obtain ⟨n, bound, rfl⟩ := List.mem_map.mp (List.append_nil _ ▸ member)
    exact ⟨n, List.mem_range.mp bound, rfl⟩

/-- The next name to make is not in the pool yet. -/
theorem NameGroup.unmade (names : NameGroup) :
    fuzzName names.nameCnt ∉ names.freeNames ++ names.usedNames := by
  intro member
  obtain ⟨n, bound, equal⟩ := names.made _ member
  have := fuzzName_injective equal
  omega

/-- Make a further name and use it. -/
def NameGroup.makeName (names : NameGroup) : NameGroup where
  nameCnt := names.nameCnt + 1
  freeNames := names.freeNames
  usedNames := names.usedNames ++ [fuzzName names.nameCnt]
  distinct := by
    rw [← List.append_assoc]
    exact List.Nodup.append names.distinct (List.nodup_singleton _)
      (List.disjoint_singleton.mpr names.unmade)
  made := by
    intro name member
    rw [← List.append_assoc] at member
    rcases List.mem_append.mp member with old | new
    · obtain ⟨n, bound, equal⟩ := names.made name old
      exact ⟨n, by omega, equal⟩
    · exact ⟨names.nameCnt, by omega, List.mem_singleton.mp new⟩

/-- Use the first of the free names. -/
def NameGroup.useName (names : NameGroup) {candidate : String} {rest : List String}
    (free : names.freeNames = candidate :: rest) : NameGroup where
  nameCnt := names.nameCnt
  freeNames := rest
  usedNames := names.usedNames ++ [candidate]
  distinct := by
    have distinct := names.distinct
    rw [free, List.cons_append, List.nodup_cons] at distinct
    rw [← List.append_assoc]
    exact List.Nodup.append distinct.2 (List.nodup_singleton _)
      (List.disjoint_singleton.mpr distinct.1)
  made := by
    intro name member
    apply names.made
    rw [free]
    simp only [List.mem_append, List.mem_cons, List.not_mem_nil, or_false] at member ⊢
    tauto

def wasmFindAvailableName (names : NameGroup) : String × NameGroup :=
  match free : names.freeNames with
  | [] => (fuzzName names.nameCnt, names.makeName)
  | candidate :: _ => (candidate, names.useName free)

def wasmResetNameGrp (names : NameGroup) : NameGroup where
  nameCnt := names.nameCnt
  freeNames := names.freeNames ++ names.usedNames
  usedNames := []
  distinct := by simpa using names.distinct
  made := by simpa using names.made

/-- A name that was not in use is taken into use. -/
theorem wasmFindAvailableName_spec (names : NameGroup) :
    (∃ n, (wasmFindAvailableName names).1 = fuzzName n) ∧
      (wasmFindAvailableName names).1 ∉ names.usedNames ∧
      (wasmFindAvailableName names).2.usedNames =
        names.usedNames ++ [(wasmFindAvailableName names).1] := by
  unfold wasmFindAvailableName
  split
  next empty =>
    refine ⟨⟨_, rfl⟩, ?_, rfl⟩
    intro used
    exact names.unmade (List.mem_append_right _ used)
  next candidate rest filled =>
    have first : candidate ∈ names.freeNames := by simp [filled]
    refine ⟨?_, ?_, rfl⟩
    · obtain ⟨n, _, equal⟩ := names.made candidate (List.mem_append_left _ first)
      exact ⟨n, equal⟩
    · exact (List.nodup_append.mp names.distinct).2.2 candidate first |> fun apart used =>
        apart candidate used rfl

/-! ## Memory set-up -/

/-- What is read of a data segment before the memory is replaced. -/
structure SegmentCopy where
  name : String
  passive : Bool
  offset : Option Nat
  data : List UInt8

/-- A data segment as read through its numeric name; an active segment needs a
constant offset. -/
def copySegment (m : Module) (ind : Nat) : Option SegmentCopy :=
  (m.getSegment (toString ind)).bind fun seg =>
    if seg.passive then some ⟨toString ind, true, none, seg.data⟩
    else seg.getByteOffset.map fun offset => ⟨toString ind, false, some offset, seg.data⟩

def copySegments (m : Module) : Option (List SegmentCopy) :=
  (List.range m.segments.length).mapM (copySegment m)

/-- The copy as a segment again, at an offset constant of either index type. -/
def SegmentCopy.place (memory64 : Bool) (copy : SegmentCopy) : Segment where
  name := copy.name
  passive := copy.passive
  offset := copy.offset.map fun offset =>
    if memory64 then .i64 (BitVec.ofNat 64 offset) else .i32 (BitVec.ofNat 32 offset)
  data := copy.data

/-- Up to five fresh segments with a fixed content. -/
def freshSegments : Nat → Nat → Rand → List Segment × Rand
  | 0, _, r => ([], r)
  | n + 1, ind, r =>
    let data := "WeMustKnowWeWillKnow".toUTF8.toList
    let (passive, r) := randBelow 2 r
    if passive ≠ 0 then
      let (rest, r) := freshSegments n (ind + 1) r
      (⟨toString ind, true, none, data⟩ :: rest, r)
    else
      let (offset, r) := randBelow (2 ^ 32 - 1) r
      let (rest, r) := freshSegments n (ind + 1) r
      (⟨toString ind, false, some (.i32 (BitVec.ofNat 32 offset)), data⟩ :: rest, r)

/-- The memory a `NULL` name stands for. -/
def soleMemory (m : Module) : Option Memory :=
  match m.memories with
  | [mem] => some mem
  | _ => none

/-- Initial size, maximum, sharing and index type a memory is set up with: those of
the present memory, or the defaults. -/
def memorySettings (m : Module) : Option (Nat × Nat × Bool × Bool) :=
  if m.hasMemory then
    (soleMemory m).map fun mem =>
      (mem.getInitial, mem.getMax.getD (2 ^ 32 - 1), mem.shared, mem.is64)
  else some (1, 2 ^ 32 - 1, false, false)

def wasmSetMemory (m : Module) (addSeg : Bool) (r : Rand) : Option (Module × Rand) :=
  (memorySettings m).bind fun (initial, maximum, shared, memory64) =>
    if m.segments.length > 0 then
      -- offsets become 32-bit constants, whatever the index type
      (copySegments m).map fun segments =>
        (m.setMemory initial maximum (segments.map (SegmentCopy.place false)) shared memory64 "0", r)
    else if addSeg then
      let (numSeg, r) := randBelow 5 r
      let (segments, r) := freshSegments (numSeg + 1) 0 r
      some (m.setMemory initial maximum segments shared memory64 "0", r)
    else
      some (m.setMemory initial maximum [] shared memory64 "0", r)

end Swam
