import Swam.SimpleExpr

/-!
# Instruction groups

Instructions that take their operands from the stack and leave their results there, grouped
by operand and result types. The generators draw from these groups.
-/
namespace Swam

open Binaryen

/-- Instructions of one stack-operating type. -/
structure InstrGrp where
  required : List ValTy
  produced : List ValTy
  groups : List InstrTy

def wasmInitInstrGrps : List InstrGrp :=
  [⟨[], [.i32], [.const .i32, .tableSize, .memorySize]⟩,
   ⟨[], [.i64], [.const .i64]⟩,
   ⟨[], [.f32], [.const .f32]⟩,
   ⟨[], [.f64], [.const .f64]⟩,
   ⟨[.i32], [.i32], [.unary .clzInt32, .unary .ctzInt32, .unary .popcntInt32,
      .unary .extendS8Int32, .unary .extendS16Int32, .unary .eqZInt32, .load .i32 4 false,
      .load .i32 1 false, .load .i32 1 true, .load .i32 2 false, .load .i32 2 true, .memoryGrow]⟩,
   ⟨[.i64], [.i64], [.unary .clzInt64, .unary .ctzInt64, .unary .popcntInt64,
      .unary .extendS8Int64, .unary .extendS16Int64, .unary .extendS32Int64]⟩,
   ⟨[.f32], [.f32], [.unary .absFloat32, .unary .negFloat32, .unary .sqrtFloat32,
      .unary .ceilFloat32, .unary .floorFloat32, .unary .truncFloat32, .unary .nearestFloat32]⟩,
   ⟨[.f64], [.f64], [.unary .absFloat64, .unary .negFloat64, .unary .sqrtFloat64,
      .unary .ceilFloat64, .unary .floorFloat64, .unary .truncFloat64, .unary .nearestFloat64]⟩,
   ⟨[.i32, .i32], [.i32], [.binary .addInt32, .binary .subInt32, .binary .mulInt32,
      .binary .divSInt32, .binary .divUInt32, .binary .remSInt32, .binary .remUInt32,
      .binary .andInt32, .binary .orInt32, .binary .xorInt32, .binary .shlInt32,
      .binary .shrUInt32, .binary .shrSInt32, .binary .rotLInt32, .binary .rotRInt32,
      .binary .eqInt32, .binary .neInt32, .binary .ltSInt32, .binary .ltUInt32, .binary .leSInt32,
      .binary .leUInt32, .binary .gtSInt32, .binary .gtUInt32, .binary .geSInt32,
      .binary .geUInt32]⟩,
   ⟨[.i64, .i64], [.i64], [.binary .addInt64, .binary .subInt64, .binary .mulInt64,
      .binary .divSInt64, .binary .divUInt64, .binary .remSInt64, .binary .remUInt64,
      .binary .andInt64, .binary .orInt64, .binary .xorInt64, .binary .shlInt64,
      .binary .shrUInt64, .binary .shrSInt64, .binary .rotLInt64, .binary .rotRInt64]⟩,
   ⟨[.f32, .f32], [.f32], [.binary .addFloat32, .binary .subFloat32, .binary .mulFloat32,
      .binary .divFloat32, .binary .minFloat32, .binary .maxFloat32, .binary .copySignFloat32]⟩,
   ⟨[.f64, .f64], [.f64], [.binary .addFloat64, .binary .subFloat64, .binary .mulFloat64,
      .binary .divFloat64, .binary .minFloat64, .binary .maxFloat64, .binary .copySignFloat64]⟩,
   ⟨[.i64], [.i32], [.unary .eqZInt64, .unary .wrapInt64]⟩,
   ⟨[.i64, .i64], [.i32], [.binary .eqInt64, .binary .neInt64, .binary .ltSInt64,
      .binary .ltUInt64, .binary .leSInt64, .binary .leUInt64, .binary .gtSInt64,
      .binary .gtUInt64, .binary .geSInt64, .binary .geUInt64]⟩,
   ⟨[.f32, .f32], [.i32], [.binary .eqFloat32, .binary .neFloat32, .binary .ltFloat32,
      .binary .leFloat32, .binary .gtFloat32, .binary .geFloat32]⟩,
   ⟨[.f64, .f64], [.i32], [.binary .eqFloat64, .binary .neFloat64, .binary .ltFloat64,
      .binary .leFloat64, .binary .gtFloat64, .binary .geFloat64]⟩,
   ⟨[.i32], [.i64], [.unary .extendSInt32, .unary .extendUInt32, .load .i64 8 false,
      .load .i64 1 false, .load .i64 1 true, .load .i64 2 false, .load .i64 2 true,
      .load .i64 4 false, .load .i64 4 true]⟩,
   ⟨[.f32], [.i32], [.unary .truncSFloat32ToInt32, .unary .truncUFloat32ToInt32,
      .unary .reinterpretFloat32, .unary .truncSatSFloat32ToInt32,
      .unary .truncSatUFloat32ToInt32]⟩,
   ⟨[.f32], [.i64], [.unary .truncSFloat32ToInt64, .unary .truncUFloat32ToInt64,
      .unary .truncSatSFloat32ToInt64, .unary .truncSatUFloat32ToInt64]⟩,
   ⟨[.f64], [.i32], [.unary .truncSFloat64ToInt32, .unary .truncUFloat64ToInt32,
      .unary .truncSatSFloat64ToInt32, .unary .truncSatUFloat64ToInt32]⟩,
   ⟨[.f64], [.i64], [.unary .truncSFloat64ToInt64, .unary .truncUFloat64ToInt64,
      .unary .reinterpretFloat64, .unary .truncSatSFloat64ToInt64,
      .unary .truncSatUFloat64ToInt64]⟩,
   ⟨[.i32], [.f32], [.unary .reinterpretInt32, .unary .convertSInt32ToFloat32,
      .unary .convertUInt32ToFloat32, .load .f32 4 false]⟩,
   ⟨[.i64], [.f64], [.unary .reinterpretInt64, .unary .convertSInt64ToFloat64,
      .unary .convertUInt64ToFloat64]⟩,
   ⟨[.i32], [.f64], [.unary .convertSInt32ToFloat64, .unary .convertUInt32ToFloat64,
      .load .f64 8 false]⟩,
   ⟨[.i64], [.f32], [.unary .convertSInt64ToFloat32, .unary .convertUInt64ToFloat32]⟩,
   ⟨[.f64], [.f32], [.unary .demoteFloat64]⟩,
   ⟨[.f32], [.f64], [.unary .promoteFloat32]⟩,
   ⟨[], [.funcref], [.refNull .funcref, .refFunc]⟩,
   ⟨[], [.externref], [.refNull .externref]⟩,
   ⟨[.funcref], [.i32], [.refIsNull .funcref]⟩,
   ⟨[.externref], [.i32], [.refIsNull .externref]⟩,
   ⟨[.i32], [], [.drop .i32]⟩,
   ⟨[.i64], [], [.drop .i64]⟩,
   ⟨[.f32], [], [.drop .f32]⟩,
   ⟨[.f64], [], [.drop .f64]⟩,
   ⟨[.funcref], [], [.drop .funcref]⟩,
   ⟨[.externref], [], [.drop .externref]⟩,
   ⟨[.i32, .i32, .i32], [.i32], [.select .i32]⟩,
   ⟨[.i64, .i64, .i32], [.i64], [.select .i64]⟩,
   ⟨[.f32, .f32, .i32], [.f32], [.select .f32]⟩,
   ⟨[.f64, .f64, .i32], [.f64], [.select .f64]⟩,
   ⟨[.funcref, .funcref, .i32], [.funcref], [.select .funcref]⟩,
   ⟨[.externref, .externref, .i32], [.externref], [.select .externref]⟩,
   ⟨[.i32], [.funcref], [.tableGet .funcref]⟩,
   ⟨[.i32], [.externref], [.tableGet .externref]⟩,
   ⟨[.i32, .funcref], [], [.tableSet .funcref]⟩,
   ⟨[.i32, .externref], [], [.tableSet .externref]⟩,
   ⟨[.funcref, .i32], [.i32], [.tableGrow .funcref]⟩,
   ⟨[.externref, .i32], [.i32], [.tableGrow .externref]⟩,
   ⟨[.i32, .i32], [], [.store .i32 4, .store .i32 1, .store .i32 2]⟩,
   ⟨[.i32, .i64], [], [.store .i64 8, .store .i64 1, .store .i64 2, .store .i64 4]⟩,
   ⟨[.i32, .f32], [], [.store .f32 4]⟩,
   ⟨[.i32, .f64], [], [.store .f64 8]⟩,
   ⟨[.i32, .i32, .i32], [], [.memoryFill, .memoryCopy, .memoryInit]⟩,
   ⟨[], [], [.dataDrop, .nop]⟩,
   ⟨[], [.v128], [.const .v128]⟩,
   ⟨[.v128], [.v128], [.unary .notVec128, .unary .absVecI8x16, .unary .negVecI8x16,
      .unary .absVecI16x8, .unary .negVecI16x8, .unary .absVecI32x4, .unary .negVecI32x4,
      .unary .absVecI64x2, .unary .negVecI64x2, .unary .absVecF32x4, .unary .negVecF32x4,
      .unary .sqrtVecF32x4, .unary .ceilVecF32x4, .unary .floorVecF32x4, .unary .truncVecF32x4,
      .unary .nearestVecF32x4, .unary .absVecF64x2, .unary .negVecF64x2, .unary .sqrtVecF64x2,
      .unary .ceilVecF64x2, .unary .floorVecF64x2, .unary .truncVecF64x2, .unary .nearestVecF64x2,
      .unary .popcntVecI8x16, .unary .extendLowSVecI8x16ToVecI16x8,
      .unary .extendLowUVecI8x16ToVecI16x8, .unary .extendHighSVecI8x16ToVecI16x8,
      .unary .extendHighUVecI8x16ToVecI16x8, .unary .extendLowSVecI16x8ToVecI32x4,
      .unary .extendLowUVecI16x8ToVecI32x4, .unary .extendHighSVecI16x8ToVecI32x4,
      .unary .extendHighUVecI16x8ToVecI32x4, .unary .extendLowSVecI32x4ToVecI64x2,
      .unary .extendLowUVecI32x4ToVecI64x2, .unary .extendHighSVecI32x4ToVecI64x2,
      .unary .extendHighUVecI32x4ToVecI64x2, .unary .truncSatSVecF32x4ToVecI32x4,
      .unary .truncSatUVecF32x4ToVecI32x4, .unary .truncSatZeroSVecF64x2ToVecI32x4,
      .unary .truncSatZeroUVecF64x2ToVecI32x4, .unary .convertSVecI32x4ToVecF32x4,
      .unary .convertUVecI32x4ToVecF32x4, .unary .convertLowSVecI32x4ToVecF64x2,
      .unary .convertLowUVecI32x4ToVecF64x2, .unary .demoteZeroVecF64x2ToVecF32x4,
      .unary .promoteLowVecF32x4ToVecF64x2, .unary .extAddPairwiseSVecI8x16ToI16x8,
      .unary .extAddPairwiseUVecI8x16ToI16x8, .unary .extAddPairwiseSVecI16x8ToI32x4,
      .unary .extAddPairwiseUVecI16x8ToI32x4]⟩,
   ⟨[.v128, .v128], [.v128], [.binary .andVec128, .binary .orVec128, .binary .xorVec128,
      .binary .andNotVec128, .binary .swizzleVecI8x16, .simdShuffle, .binary .addVecI8x16,
      .binary .subVecI8x16, .binary .addVecI16x8, .binary .subVecI16x8, .binary .addVecI32x4,
      .binary .subVecI32x4, .binary .addVecI64x2, .binary .subVecI64x2, .binary .addVecF32x4,
      .binary .subVecF32x4, .binary .mulVecF32x4, .binary .divVecF32x4, .binary .minVecF32x4,
      .binary .maxVecF32x4, .binary .pMinVecF32x4, .binary .pMaxVecF32x4, .binary .addVecF64x2,
      .binary .subVecF64x2, .binary .mulVecF64x2, .binary .divVecF64x2, .binary .minVecF64x2,
      .binary .maxVecF64x2, .binary .pMinVecF64x2, .binary .pMaxVecF64x2, .binary .minSVecI8x16,
      .binary .minUVecI8x16, .binary .maxSVecI8x16, .binary .maxUVecI8x16, .binary .minSVecI16x8,
      .binary .minUVecI16x8, .binary .maxSVecI16x8, .binary .maxUVecI16x8, .binary .minSVecI32x4,
      .binary .minUVecI32x4, .binary .maxSVecI32x4, .binary .maxUVecI32x4,
      .binary .addSatSVecI8x16, .binary .addSatUVecI8x16, .binary .subSatSVecI8x16,
      .binary .subSatUVecI8x16, .binary .addSatSVecI16x8, .binary .addSatUVecI16x8,
      .binary .subSatSVecI16x8, .binary .subSatUVecI16x8, .binary .mulVecI16x8,
      .binary .mulVecI32x4, .binary .mulVecI64x2, .binary .avgrUVecI8x16, .binary .avgrUVecI16x8,
      .binary .q15MulrSatSVecI16x8, .binary .eqVecI8x16, .binary .neVecI8x16, .binary .ltSVecI8x16,
      .binary .ltUVecI8x16, .binary .gtSVecI8x16, .binary .gtUVecI8x16, .binary .leSVecI8x16,
      .binary .leUVecI8x16, .binary .geSVecI8x16, .binary .geUVecI8x16, .binary .eqVecI16x8,
      .binary .neVecI16x8, .binary .ltSVecI16x8, .binary .ltUVecI16x8, .binary .gtSVecI16x8,
      .binary .gtUVecI16x8, .binary .leSVecI16x8, .binary .leUVecI16x8, .binary .geSVecI16x8,
      .binary .geUVecI16x8, .binary .eqVecI32x4, .binary .neVecI32x4, .binary .ltSVecI32x4,
      .binary .ltUVecI32x4, .binary .gtSVecI32x4, .binary .gtUVecI32x4, .binary .leSVecI32x4,
      .binary .leUVecI32x4, .binary .geSVecI32x4, .binary .geUVecI32x4, .binary .eqVecI64x2,
      .binary .neVecI64x2, .binary .ltSVecI64x2, .binary .gtSVecI64x2, .binary .leSVecI64x2,
      .binary .geSVecI64x2, .binary .eqVecF32x4, .binary .neVecF32x4, .binary .ltVecF32x4,
      .binary .gtVecF32x4, .binary .leVecF32x4, .binary .geVecF32x4, .binary .eqVecF64x2,
      .binary .neVecF64x2, .binary .ltVecF64x2, .binary .gtVecF64x2, .binary .leVecF64x2,
      .binary .geVecF64x2, .binary .narrowSVecI16x8ToVecI8x16, .binary .narrowUVecI16x8ToVecI8x16,
      .binary .narrowSVecI32x4ToVecI16x8, .binary .narrowUVecI32x4ToVecI16x8,
      .binary .dotSVecI16x8ToVecI32x4, .binary .extMulLowSVecI16x8, .binary .extMulHighSVecI16x8,
      .binary .extMulLowUVecI16x8, .binary .extMulHighUVecI16x8, .binary .extMulLowSVecI32x4,
      .binary .extMulHighSVecI32x4, .binary .extMulLowUVecI32x4, .binary .extMulHighUVecI32x4,
      .binary .extMulLowSVecI64x2, .binary .extMulHighSVecI64x2, .binary .extMulLowUVecI64x2,
      .binary .extMulHighUVecI64x2]⟩,
   ⟨[.v128, .v128, .v128], [.v128], [.simdTernary .bitselectVec128]⟩,
   ⟨[.v128], [.i32], [.unary .anyTrueVec128, .unary .bitmaskVecI8x16, .unary .bitmaskVecI16x8,
      .unary .bitmaskVecI32x4, .unary .bitmaskVecI64x2]⟩,
   ⟨[.i32], [.v128], [.unary .splatVecI8x16, .unary .splatVecI16x8, .unary .splatVecI32x4,
      .load .v128 16 false, .simdLoad .load8x8SVec128, .simdLoad .load8x8UVec128,
      .simdLoad .load16x4SVec128, .simdLoad .load16x4UVec128, .simdLoad .load32x2SVec128,
      .simdLoad .load32x2UVec128, .simdLoad .load8SplatVec128, .simdLoad .load16SplatVec128,
      .simdLoad .load32SplatVec128, .simdLoad .load64SplatVec128, .simdLoad .load32ZeroVec128,
      .simdLoad .load64ZeroVec128]⟩,
   ⟨[.i64], [.v128], [.unary .splatVecI64x2]⟩,
   ⟨[.f32], [.v128], [.unary .splatVecF32x4]⟩,
   ⟨[.f64], [.v128], [.unary .splatVecF64x2]⟩,
   ⟨[.v128], [.i32], [.simdExtract .extractLaneSVecI8x16, .simdExtract .extractLaneUVecI8x16,
      .simdExtract .extractLaneSVecI16x8, .simdExtract .extractLaneUVecI16x8,
      .simdExtract .extractLaneVecI32x4, .unary .allTrueVecI8x16, .unary .allTrueVecI16x8,
      .unary .allTrueVecI32x4, .unary .allTrueVecI64x2]⟩,
   ⟨[.v128], [.i64], [.simdExtract .extractLaneVecI64x2]⟩,
   ⟨[.v128], [.f32], [.simdExtract .extractLaneVecF32x4]⟩,
   ⟨[.v128], [.f64], [.simdExtract .extractLaneVecF64x2]⟩,
   ⟨[.v128, .i32], [.v128], [.simdReplace .replaceLaneVecI8x16, .simdReplace .replaceLaneVecI16x8,
      .simdReplace .replaceLaneVecI32x4, .simdShift .shlVecI8x16, .simdShift .shrSVecI8x16,
      .simdShift .shrUVecI8x16, .simdShift .shlVecI16x8, .simdShift .shrSVecI16x8,
      .simdShift .shrUVecI16x8, .simdShift .shlVecI32x4, .simdShift .shrSVecI32x4,
      .simdShift .shrUVecI32x4, .simdShift .shlVecI64x2, .simdShift .shrSVecI64x2,
      .simdShift .shrUVecI64x2]⟩,
   ⟨[.v128, .i64], [.v128], [.simdReplace .replaceLaneVecI64x2]⟩,
   ⟨[.v128, .f32], [.v128], [.simdReplace .replaceLaneVecF32x4]⟩,
   ⟨[.v128, .f64], [.v128], [.simdReplace .replaceLaneVecF64x2]⟩,
   ⟨[.v128], [], [.drop .v128]⟩,
   ⟨[.v128, .v128, .i32], [.v128], [.select .v128]⟩,
   ⟨[.i32, .v128], [], [.store .v128 16, .simdLoadStoreLane .store8LaneVec128,
      .simdLoadStoreLane .store16LaneVec128, .simdLoadStoreLane .store32LaneVec128,
      .simdLoadStoreLane .store64LaneVec128]⟩,
   ⟨[.i32, .v128], [.v128], [.simdLoadStoreLane .load8LaneVec128,
      .simdLoadStoreLane .load16LaneVec128, .simdLoadStoreLane .load32LaneVec128,
      .simdLoadStoreLane .load64LaneVec128]⟩]

end Swam
