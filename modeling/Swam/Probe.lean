import Swam.Binaryen.Module
import Swam.Scenarios

/-!
# Probes

A probe is a block that sets the marker `__swam_marker_before`, computes an address
from the current memory size, runs the target instruction there, and sets the
marker `__swam_marker_after`.
-/
namespace Swam

open Binaryen

def swamMarkerBefore : String := "__swam_marker_before"
def swamMarkerAfter : String := "__swam_marker_after"
def swamBulkSegmentName : String := "__swam_bulk_seg"
def swamPageSizeBytes : Int := 65536

def swamMakeI32Const (value : Int) : Expr := .node (.const (.i32 (BitVec.ofInt 32 value))) []

def swamMakeIndexConst (value : Int) (isMemory64 : Bool) : Expr :=
  if isMemory64 then .node (.const (.i64 (BitVec.ofInt 64 value))) []
  else swamMakeI32Const value

def swamValtypeToBinaryen : SwamValType → ValTy
  | .i32 => .i32
  | .i64 => .i64
  | .f32 => .f32
  | .f64 => .f64
  | .v128 => .v128

def swamMakeV128Const : Expr := .node (.const (.v128 0)) []

/-- `0x42`, or the bit pattern of `1.0`. -/
def swamMakeDummyValue : SwamValType → Expr
  | .i32 => .node (.const (.i32 0x42)) []
  | .i64 => .node (.const (.i64 0x42)) []
  | .f32 => .node (.const (.f32 0x3F800000)) []
  | .f64 => .node (.const (.f64 0x3FF0000000000000)) []
  | .v128 => swamMakeV128Const

def swamSimdLoadOp : SwamOpKind → Op
  | .v128Load8x8S => .load8x8SVec128
  | .v128Load8x8U => .load8x8UVec128
  | .v128Load16x4S => .load16x4SVec128
  | .v128Load16x4U => .load16x4UVec128
  | .v128Load32x2S => .load32x2SVec128
  | .v128Load32x2U => .load32x2UVec128
  | .v128Load8Splat => .load8SplatVec128
  | .v128Load16Splat => .load16SplatVec128
  | .v128Load32Splat => .load32SplatVec128
  | .v128Load64Splat => .load64SplatVec128
  | .v128Load32Zero => .load32ZeroVec128
  | .v128Load64Zero => .load64ZeroVec128
  | _ => .load8SplatVec128

def swamSimdLaneOp : SwamOpKind → Op
  | .v128Load8Lane => .load8LaneVec128
  | .v128Load16Lane => .load16LaneVec128
  | .v128Load32Lane => .load32LaneVec128
  | .v128Load64Lane => .load64LaneVec128
  | .v128Store8Lane => .store8LaneVec128
  | .v128Store16Lane => .store16LaneVec128
  | .v128Store32Lane => .store32LaneVec128
  | .v128Store64Lane => .store64LaneVec128
  | _ => .load8LaneVec128

def swamRmwBinaryenOp : SwamOpKind → RmwOp
  | .i32AtomicRmwAdd | .i64AtomicRmwAdd | .i32AtomicRmw8AddU | .i32AtomicRmw16AddU
  | .i64AtomicRmw8AddU | .i64AtomicRmw16AddU | .i64AtomicRmw32AddU => .add
  | .i32AtomicRmwSub | .i64AtomicRmwSub | .i32AtomicRmw8SubU | .i32AtomicRmw16SubU
  | .i64AtomicRmw8SubU | .i64AtomicRmw16SubU | .i64AtomicRmw32SubU => .sub
  | .i32AtomicRmwAnd | .i64AtomicRmwAnd | .i32AtomicRmw8AndU | .i32AtomicRmw16AndU
  | .i64AtomicRmw8AndU | .i64AtomicRmw16AndU | .i64AtomicRmw32AndU => .and
  | .i32AtomicRmwOr | .i64AtomicRmwOr | .i32AtomicRmw8OrU | .i32AtomicRmw16OrU
  | .i64AtomicRmw8OrU | .i64AtomicRmw16OrU | .i64AtomicRmw32OrU => .or
  | .i32AtomicRmwXor | .i64AtomicRmwXor | .i32AtomicRmw8XorU | .i32AtomicRmw16XorU
  | .i64AtomicRmw8XorU | .i64AtomicRmw16XorU | .i64AtomicRmw32XorU => .xor
  | .i32AtomicRmwXchg | .i64AtomicRmwXchg | .i32AtomicRmw8XchgU | .i32AtomicRmw16XchgU
  | .i64AtomicRmw8XchgU | .i64AtomicRmw16XchgU | .i64AtomicRmw32XchgU => .xchg
  | _ => .add

def swamBuildMemoryBytes (memName : String) (isMemory64 : Bool) : Expr :=
  .node (.binary (if isMemory64 then .mulInt64 else .mulInt32))
    [.node (.memorySize memName isMemory64) [], swamMakeIndexConst swamPageSizeBytes isMemory64]

def swamBuildBaseAddress (scenario : Option SwamScenario) (memName : String)
    (isMemory64 : Bool) : Expr :=
  let addOp : Op := if isMemory64 then .addInt64 else .addInt32
  let divUOp : Op := if isMemory64 then .divUInt64 else .divUInt32
  let subOp : Op := if isMemory64 then .subInt64 else .subInt32
  let bytes := swamBuildMemoryBytes memName isMemory64
  match scenario with
  | none => swamMakeIndexConst 0 isMemory64
  | some scenario =>
    let width := swamMakeIndexConst scenario.accessWidth isMemory64
    let one := swamMakeIndexConst 1 isMemory64
    let two := swamMakeIndexConst 2 isMemory64
    if scenario.opClass = .memoryGrow ∨ scenario.accessWidth = 0 then
      swamMakeIndexConst 0 isMemory64
    -- the base is 2^N - W, written as a negative constant
    else if scenario.wrap = .overflow then
      if isMemory64 then swamMakeIndexConst (-scenario.accessWidth) true
      else swamMakeI32Const (-scenario.accessWidth)
    else if scenario.align = .aligned ∧ scenario.layout = .oob then bytes
    else if scenario.align = .misaligned then
      match scenario.layout with
      | .interior => .node (.binary addOp) [.node (.binary divUOp) [bytes, two], one]
      | .boundary => .node (.binary subOp) [.node (.binary subOp) [bytes, width], one]
      | .oob => .node (.binary addOp) [.node (.binary subOp) [bytes, width], one]
    else
      match scenario.layout with
      | .boundary => .node (.binary subOp) [bytes, width]
      | .oob => .node (.binary addOp) [.node (.binary subOp) [bytes, width], one]
      | .interior => .node (.binary divUOp) [bytes, two]

def swamBuildMarkerSet (markerName : String) (scenarioId : Nat) : Expr :=
  .node (.globalSet markerName) [swamMakeI32Const scenarioId]

def swamEnsureMarkerGlobal (m : Module) (markerName : String) : Module :=
  let m := if (m.getGlobal markerName).isNone then
    m.addGlobal ⟨markerName, Ty.i32, true, swamMakeI32Const 0⟩ else m
  if (m.getExport markerName).isNone then m.addGlobalExport markerName markerName else m

def swamBuildTargetOp (scenario : Option SwamScenario) (addrLocalIdx : Nat) (memName : String)
    (isMemory64 : Bool) : Expr :=
  let ptrType : Ty := if isMemory64 then Ty.i64 else Ty.i32
  let ptr : Expr := .node (.localGet addrLocalIdx ptrType) []
  let zero := swamMakeIndexConst 0 isMemory64
  let one := swamMakeIndexConst 1 isMemory64
  match scenario with
  | none => .node .nop []
  | some scenario =>
    let valueType := swamValtypeToBinaryen scenario.valueType
    let staticOffset := if scenario.wrap = .overflow then scenario.accessWidth else 0
    let width := scenario.accessWidth
    let dummy := swamMakeDummyValue scenario.valueType
    -- an alignment argument of 0 stands for the natural alignment
    match scenario.opClass with
    | .load => .node .drop
        [.node (.load width scenario.isSigned staticOffset width valueType false memName) [ptr]]
    | .store => .node (.store width staticOffset width valueType false memName) [ptr, dummy]
    | .atomicLoad => .node .drop
        [.node (.load width false staticOffset width valueType true memName) [ptr]]
    | .atomicStore => .node (.store width staticOffset width valueType true memName) [ptr, dummy]
    | .atomicRmw => .node .drop
        [.node (.atomicRMW (swamRmwBinaryenOp scenario.opKind) width staticOffset valueType
          memName) [ptr, dummy]]
    | .atomicCmpxchg => .node .drop
        [.node (.atomicCmpxchg width staticOffset valueType memName) [ptr, dummy, dummy]]
    | .atomicWait => .node .drop
        [.node (.atomicWait staticOffset valueType memName)
          [ptr, dummy, .node (.const (.i64 0)) []]]
    | .atomicNotify => .node .drop
        [.node (.atomicNotify staticOffset memName) [ptr, swamMakeI32Const 0]]
    | .memoryGrow => .node .drop [.node (.memoryGrow memName isMemory64) [one]]
    | .simdLoad =>
      if scenario.opKind = .v128Load then
        .node .drop [.node (.load 16 false staticOffset 16 .v128 false memName) [ptr]]
      else
        .node .drop
          [.node (.simdLoad (swamSimdLoadOp scenario.opKind) staticOffset width memName) [ptr]]
    | .simdLoadLane => .node .drop
        [.node (.simdLoadStoreLane (swamSimdLaneOp scenario.opKind) staticOffset width 0 memName)
          [ptr, swamMakeV128Const]]
    | .simdStore =>
      .node (.store 16 staticOffset 16 .v128 false memName) [ptr, swamMakeV128Const]
    | .simdStoreLane =>
      .node (.simdLoadStoreLane (swamSimdLaneOp scenario.opKind) staticOffset width 0 memName)
        [ptr, swamMakeV128Const]
    | .bulkCopy => .node (.memoryCopy memName memName) [ptr, zero, one]
    | .bulkFill => .node (.memoryFill memName) [ptr, swamMakeI32Const 0x42, one]
    | .bulkInit => .node (.memoryInit swamBulkSegmentName memName) [ptr, zero, one]

def swamAddMarkerGlobals (m : Module) : Module :=
  swamEnsureMarkerGlobal (swamEnsureMarkerGlobal m swamMarkerBefore) swamMarkerAfter

def swamBuildProbe (m : Module) (scenario : Option SwamScenario) (addrLocalIdx : Nat)
    (memName : String) (isMemory64 : Bool) : Module × Expr :=
  match scenario with
  | none => (m, .node .nop [])
  | some s =>
    (swamAddMarkerGlobals m,
      .node (.block none Ty.none) [
        swamBuildMarkerSet swamMarkerBefore s.id,
        .node (.localSet addrLocalIdx) [swamBuildBaseAddress scenario memName isMemory64],
        swamBuildTargetOp scenario addrLocalIdx memName isMemory64,
        swamBuildMarkerSet swamMarkerAfter s.id])

end Swam
