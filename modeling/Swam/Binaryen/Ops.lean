import Swam.Binaryen.Types

/-!
# Binaryen operators

The operator constants the mutator draws from, with the operand and result types
the WebAssembly specification gives them. Pointers are those of a 32-bit memory.
-/
namespace Swam.Binaryen

inductive Op where
  -- unary
  | clzInt32 | ctzInt32 | popcntInt32 | extendS8Int32 | extendS16Int32 | eqZInt32 | clzInt64
  | ctzInt64 | popcntInt64 | extendS8Int64 | extendS16Int64 | extendS32Int64 | absFloat32
  | negFloat32 | sqrtFloat32 | ceilFloat32 | floorFloat32 | truncFloat32 | nearestFloat32
  | absFloat64 | negFloat64 | sqrtFloat64 | ceilFloat64 | floorFloat64 | truncFloat64
  | nearestFloat64 | eqZInt64 | wrapInt64 | extendSInt32 | extendUInt32 | truncSFloat32ToInt32
  | truncUFloat32ToInt32 | reinterpretFloat32 | truncSatSFloat32ToInt32 | truncSatUFloat32ToInt32
  | truncSFloat32ToInt64 | truncUFloat32ToInt64 | truncSatSFloat32ToInt64
  | truncSatUFloat32ToInt64 | truncSFloat64ToInt32 | truncUFloat64ToInt32
  | truncSatSFloat64ToInt32 | truncSatUFloat64ToInt32 | truncSFloat64ToInt64
  | truncUFloat64ToInt64 | reinterpretFloat64 | truncSatSFloat64ToInt64 | truncSatUFloat64ToInt64
  | reinterpretInt32 | convertSInt32ToFloat32 | convertUInt32ToFloat32 | reinterpretInt64
  | convertSInt64ToFloat64 | convertUInt64ToFloat64 | convertSInt32ToFloat64
  | convertUInt32ToFloat64 | convertSInt64ToFloat32 | convertUInt64ToFloat32 | demoteFloat64
  | promoteFloat32 | notVec128 | absVecI8x16 | negVecI8x16 | absVecI16x8 | negVecI16x8
  | absVecI32x4 | negVecI32x4 | absVecI64x2 | negVecI64x2 | absVecF32x4 | negVecF32x4
  | sqrtVecF32x4 | ceilVecF32x4 | floorVecF32x4 | truncVecF32x4 | nearestVecF32x4 | absVecF64x2
  | negVecF64x2 | sqrtVecF64x2 | ceilVecF64x2 | floorVecF64x2 | truncVecF64x2 | nearestVecF64x2
  | popcntVecI8x16 | extendLowSVecI8x16ToVecI16x8 | extendLowUVecI8x16ToVecI16x8
  | extendHighSVecI8x16ToVecI16x8 | extendHighUVecI8x16ToVecI16x8 | extendLowSVecI16x8ToVecI32x4
  | extendLowUVecI16x8ToVecI32x4 | extendHighSVecI16x8ToVecI32x4 | extendHighUVecI16x8ToVecI32x4
  | extendLowSVecI32x4ToVecI64x2 | extendLowUVecI32x4ToVecI64x2 | extendHighSVecI32x4ToVecI64x2
  | extendHighUVecI32x4ToVecI64x2 | truncSatSVecF32x4ToVecI32x4 | truncSatUVecF32x4ToVecI32x4
  | truncSatZeroSVecF64x2ToVecI32x4 | truncSatZeroUVecF64x2ToVecI32x4 | convertSVecI32x4ToVecF32x4
  | convertUVecI32x4ToVecF32x4 | convertLowSVecI32x4ToVecF64x2 | convertLowUVecI32x4ToVecF64x2
  | demoteZeroVecF64x2ToVecF32x4 | promoteLowVecF32x4ToVecF64x2 | extAddPairwiseSVecI8x16ToI16x8
  | extAddPairwiseUVecI8x16ToI16x8 | extAddPairwiseSVecI16x8ToI32x4
  | extAddPairwiseUVecI16x8ToI32x4 | anyTrueVec128 | bitmaskVecI8x16 | bitmaskVecI16x8
  | bitmaskVecI32x4 | bitmaskVecI64x2 | splatVecI8x16 | splatVecI16x8 | splatVecI32x4
  | splatVecI64x2 | splatVecF32x4 | splatVecF64x2 | allTrueVecI8x16 | allTrueVecI16x8
  | allTrueVecI32x4 | allTrueVecI64x2
  -- binary
  | addInt32 | subInt32 | mulInt32 | divSInt32 | divUInt32 | remSInt32 | remUInt32 | andInt32
  | orInt32 | xorInt32 | shlInt32 | shrUInt32 | shrSInt32 | rotLInt32 | rotRInt32 | eqInt32
  | neInt32 | ltSInt32 | ltUInt32 | leSInt32 | leUInt32 | gtSInt32 | gtUInt32 | geSInt32
  | geUInt32 | addInt64 | subInt64 | mulInt64 | divSInt64 | divUInt64 | remSInt64 | remUInt64
  | andInt64 | orInt64 | xorInt64 | shlInt64 | shrUInt64 | shrSInt64 | rotLInt64 | rotRInt64
  | addFloat32 | subFloat32 | mulFloat32 | divFloat32 | minFloat32 | maxFloat32 | copySignFloat32
  | addFloat64 | subFloat64 | mulFloat64 | divFloat64 | minFloat64 | maxFloat64 | copySignFloat64
  | eqInt64 | neInt64 | ltSInt64 | ltUInt64 | leSInt64 | leUInt64 | gtSInt64 | gtUInt64 | geSInt64
  | geUInt64 | eqFloat32 | neFloat32 | ltFloat32 | leFloat32 | gtFloat32 | geFloat32 | eqFloat64
  | neFloat64 | ltFloat64 | leFloat64 | gtFloat64 | geFloat64 | andVec128 | orVec128 | xorVec128
  | andNotVec128 | swizzleVecI8x16 | addVecI8x16 | subVecI8x16 | addVecI16x8 | subVecI16x8
  | addVecI32x4 | subVecI32x4 | addVecI64x2 | subVecI64x2 | addVecF32x4 | subVecF32x4
  | mulVecF32x4 | divVecF32x4 | minVecF32x4 | maxVecF32x4 | pMinVecF32x4 | pMaxVecF32x4
  | addVecF64x2 | subVecF64x2 | mulVecF64x2 | divVecF64x2 | minVecF64x2 | maxVecF64x2
  | pMinVecF64x2 | pMaxVecF64x2 | minSVecI8x16 | minUVecI8x16 | maxSVecI8x16 | maxUVecI8x16
  | minSVecI16x8 | minUVecI16x8 | maxSVecI16x8 | maxUVecI16x8 | minSVecI32x4 | minUVecI32x4
  | maxSVecI32x4 | maxUVecI32x4 | addSatSVecI8x16 | addSatUVecI8x16 | subSatSVecI8x16
  | subSatUVecI8x16 | addSatSVecI16x8 | addSatUVecI16x8 | subSatSVecI16x8 | subSatUVecI16x8
  | mulVecI16x8 | mulVecI32x4 | mulVecI64x2 | avgrUVecI8x16 | avgrUVecI16x8 | q15MulrSatSVecI16x8
  | eqVecI8x16 | neVecI8x16 | ltSVecI8x16 | ltUVecI8x16 | gtSVecI8x16 | gtUVecI8x16 | leSVecI8x16
  | leUVecI8x16 | geSVecI8x16 | geUVecI8x16 | eqVecI16x8 | neVecI16x8 | ltSVecI16x8 | ltUVecI16x8
  | gtSVecI16x8 | gtUVecI16x8 | leSVecI16x8 | leUVecI16x8 | geSVecI16x8 | geUVecI16x8 | eqVecI32x4
  | neVecI32x4 | ltSVecI32x4 | ltUVecI32x4 | gtSVecI32x4 | gtUVecI32x4 | leSVecI32x4 | leUVecI32x4
  | geSVecI32x4 | geUVecI32x4 | eqVecI64x2 | neVecI64x2 | ltSVecI64x2 | gtSVecI64x2 | leSVecI64x2
  | geSVecI64x2 | eqVecF32x4 | neVecF32x4 | ltVecF32x4 | gtVecF32x4 | leVecF32x4 | geVecF32x4
  | eqVecF64x2 | neVecF64x2 | ltVecF64x2 | gtVecF64x2 | leVecF64x2 | geVecF64x2
  | narrowSVecI16x8ToVecI8x16 | narrowUVecI16x8ToVecI8x16 | narrowSVecI32x4ToVecI16x8
  | narrowUVecI32x4ToVecI16x8 | dotSVecI16x8ToVecI32x4 | extMulLowSVecI16x8 | extMulHighSVecI16x8
  | extMulLowUVecI16x8 | extMulHighUVecI16x8 | extMulLowSVecI32x4 | extMulHighSVecI32x4
  | extMulLowUVecI32x4 | extMulHighUVecI32x4 | extMulLowSVecI64x2 | extMulHighSVecI64x2
  | extMulLowUVecI64x2 | extMulHighUVecI64x2
  -- lane extraction
  | extractLaneSVecI8x16 | extractLaneUVecI8x16 | extractLaneSVecI16x8 | extractLaneUVecI16x8
  | extractLaneVecI32x4 | extractLaneVecI64x2 | extractLaneVecF32x4 | extractLaneVecF64x2
  -- lane replacement
  | replaceLaneVecI8x16 | replaceLaneVecI16x8 | replaceLaneVecI32x4 | replaceLaneVecI64x2
  | replaceLaneVecF32x4 | replaceLaneVecF64x2
  -- ternary
  | bitselectVec128
  -- vector shifts
  | shlVecI8x16 | shrSVecI8x16 | shrUVecI8x16 | shlVecI16x8 | shrSVecI16x8 | shrUVecI16x8
  | shlVecI32x4 | shrSVecI32x4 | shrUVecI32x4 | shlVecI64x2 | shrSVecI64x2 | shrUVecI64x2
  -- vector loads
  | load8x8SVec128 | load8x8UVec128 | load16x4SVec128 | load16x4UVec128 | load32x2SVec128
  | load32x2UVec128 | load8SplatVec128 | load16SplatVec128 | load32SplatVec128 | load64SplatVec128
  | load32ZeroVec128 | load64ZeroVec128
  -- lane loads and stores
  | store8LaneVec128 | store16LaneVec128 | store32LaneVec128 | store64LaneVec128 | load8LaneVec128
  | load16LaneVec128 | load32LaneVec128 | load64LaneVec128
  deriving DecidableEq, Repr

/-- Operand types, first operand first. -/
def Op.operands : Op → List ValTy
  | .clzInt32 | .ctzInt32 | .popcntInt32 | .extendS8Int32 | .extendS16Int32 | .eqZInt32
  | .extendSInt32 | .extendUInt32 | .reinterpretInt32 | .convertSInt32ToFloat32
  | .convertUInt32ToFloat32 | .convertSInt32ToFloat64 | .convertUInt32ToFloat64 | .splatVecI8x16
  | .splatVecI16x8 | .splatVecI32x4 | .load8x8SVec128 | .load8x8UVec128 | .load16x4SVec128
  | .load16x4UVec128 | .load32x2SVec128 | .load32x2UVec128 | .load8SplatVec128
  | .load16SplatVec128 | .load32SplatVec128 | .load64SplatVec128 | .load32ZeroVec128
  | .load64ZeroVec128 =>
    [.i32]
  | .clzInt64 | .ctzInt64 | .popcntInt64 | .extendS8Int64 | .extendS16Int64 | .extendS32Int64
  | .eqZInt64 | .wrapInt64 | .reinterpretInt64 | .convertSInt64ToFloat64 | .convertUInt64ToFloat64
  | .convertSInt64ToFloat32 | .convertUInt64ToFloat32 | .splatVecI64x2 =>
    [.i64]
  | .absFloat32 | .negFloat32 | .sqrtFloat32 | .ceilFloat32 | .floorFloat32 | .truncFloat32
  | .nearestFloat32 | .truncSFloat32ToInt32 | .truncUFloat32ToInt32 | .reinterpretFloat32
  | .truncSatSFloat32ToInt32 | .truncSatUFloat32ToInt32 | .truncSFloat32ToInt64
  | .truncUFloat32ToInt64 | .truncSatSFloat32ToInt64 | .truncSatUFloat32ToInt64 | .promoteFloat32
  | .splatVecF32x4 =>
    [.f32]
  | .absFloat64 | .negFloat64 | .sqrtFloat64 | .ceilFloat64 | .floorFloat64 | .truncFloat64
  | .nearestFloat64 | .truncSFloat64ToInt32 | .truncUFloat64ToInt32 | .truncSatSFloat64ToInt32
  | .truncSatUFloat64ToInt32 | .truncSFloat64ToInt64 | .truncUFloat64ToInt64 | .reinterpretFloat64
  | .truncSatSFloat64ToInt64 | .truncSatUFloat64ToInt64 | .demoteFloat64 | .splatVecF64x2 =>
    [.f64]
  | .notVec128 | .absVecI8x16 | .negVecI8x16 | .absVecI16x8 | .negVecI16x8 | .absVecI32x4
  | .negVecI32x4 | .absVecI64x2 | .negVecI64x2 | .absVecF32x4 | .negVecF32x4 | .sqrtVecF32x4
  | .ceilVecF32x4 | .floorVecF32x4 | .truncVecF32x4 | .nearestVecF32x4 | .absVecF64x2
  | .negVecF64x2 | .sqrtVecF64x2 | .ceilVecF64x2 | .floorVecF64x2 | .truncVecF64x2
  | .nearestVecF64x2 | .popcntVecI8x16 | .extendLowSVecI8x16ToVecI16x8
  | .extendLowUVecI8x16ToVecI16x8 | .extendHighSVecI8x16ToVecI16x8
  | .extendHighUVecI8x16ToVecI16x8 | .extendLowSVecI16x8ToVecI32x4 | .extendLowUVecI16x8ToVecI32x4
  | .extendHighSVecI16x8ToVecI32x4 | .extendHighUVecI16x8ToVecI32x4
  | .extendLowSVecI32x4ToVecI64x2 | .extendLowUVecI32x4ToVecI64x2 | .extendHighSVecI32x4ToVecI64x2
  | .extendHighUVecI32x4ToVecI64x2 | .truncSatSVecF32x4ToVecI32x4 | .truncSatUVecF32x4ToVecI32x4
  | .truncSatZeroSVecF64x2ToVecI32x4 | .truncSatZeroUVecF64x2ToVecI32x4
  | .convertSVecI32x4ToVecF32x4 | .convertUVecI32x4ToVecF32x4 | .convertLowSVecI32x4ToVecF64x2
  | .convertLowUVecI32x4ToVecF64x2 | .demoteZeroVecF64x2ToVecF32x4 | .promoteLowVecF32x4ToVecF64x2
  | .extAddPairwiseSVecI8x16ToI16x8 | .extAddPairwiseUVecI8x16ToI16x8
  | .extAddPairwiseSVecI16x8ToI32x4 | .extAddPairwiseUVecI16x8ToI32x4 | .anyTrueVec128
  | .bitmaskVecI8x16 | .bitmaskVecI16x8 | .bitmaskVecI32x4 | .bitmaskVecI64x2 | .allTrueVecI8x16
  | .allTrueVecI16x8 | .allTrueVecI32x4 | .allTrueVecI64x2 | .extractLaneSVecI8x16
  | .extractLaneUVecI8x16 | .extractLaneSVecI16x8 | .extractLaneUVecI16x8 | .extractLaneVecI32x4
  | .extractLaneVecI64x2 | .extractLaneVecF32x4 | .extractLaneVecF64x2 =>
    [.v128]
  | .addInt32 | .subInt32 | .mulInt32 | .divSInt32 | .divUInt32 | .remSInt32 | .remUInt32
  | .andInt32 | .orInt32 | .xorInt32 | .shlInt32 | .shrUInt32 | .shrSInt32 | .rotLInt32
  | .rotRInt32 | .eqInt32 | .neInt32 | .ltSInt32 | .ltUInt32 | .leSInt32 | .leUInt32 | .gtSInt32
  | .gtUInt32 | .geSInt32 | .geUInt32 =>
    [.i32, .i32]
  | .addInt64 | .subInt64 | .mulInt64 | .divSInt64 | .divUInt64 | .remSInt64 | .remUInt64
  | .andInt64 | .orInt64 | .xorInt64 | .shlInt64 | .shrUInt64 | .shrSInt64 | .rotLInt64
  | .rotRInt64 | .eqInt64 | .neInt64 | .ltSInt64 | .ltUInt64 | .leSInt64 | .leUInt64 | .gtSInt64
  | .gtUInt64 | .geSInt64 | .geUInt64 =>
    [.i64, .i64]
  | .addFloat32 | .subFloat32 | .mulFloat32 | .divFloat32 | .minFloat32 | .maxFloat32
  | .copySignFloat32 | .eqFloat32 | .neFloat32 | .ltFloat32 | .leFloat32 | .gtFloat32 | .geFloat32 =>
    [.f32, .f32]
  | .addFloat64 | .subFloat64 | .mulFloat64 | .divFloat64 | .minFloat64 | .maxFloat64
  | .copySignFloat64 | .eqFloat64 | .neFloat64 | .ltFloat64 | .leFloat64 | .gtFloat64 | .geFloat64 =>
    [.f64, .f64]
  | .replaceLaneVecI8x16 | .replaceLaneVecI16x8 | .replaceLaneVecI32x4 | .shlVecI8x16
  | .shrSVecI8x16 | .shrUVecI8x16 | .shlVecI16x8 | .shrSVecI16x8 | .shrUVecI16x8 | .shlVecI32x4
  | .shrSVecI32x4 | .shrUVecI32x4 | .shlVecI64x2 | .shrSVecI64x2 | .shrUVecI64x2 =>
    [.v128, .i32]
  | .replaceLaneVecI64x2 =>
    [.v128, .i64]
  | .replaceLaneVecF32x4 =>
    [.v128, .f32]
  | .replaceLaneVecF64x2 =>
    [.v128, .f64]
  | .bitselectVec128 =>
    [.v128, .v128, .v128]
  | .store8LaneVec128 | .store16LaneVec128 | .store32LaneVec128 | .store64LaneVec128
  | .load8LaneVec128 | .load16LaneVec128 | .load32LaneVec128 | .load64LaneVec128 =>
    [.i32, .v128]
  | _ => [.v128, .v128]

/-- Result types; the lane stores have none. -/
def Op.results : Op → List ValTy
  | .clzInt32 | .ctzInt32 | .popcntInt32 | .extendS8Int32 | .extendS16Int32 | .eqZInt32
  | .eqZInt64 | .wrapInt64 | .truncSFloat32ToInt32 | .truncUFloat32ToInt32 | .reinterpretFloat32
  | .truncSatSFloat32ToInt32 | .truncSatUFloat32ToInt32 | .truncSFloat64ToInt32
  | .truncUFloat64ToInt32 | .truncSatSFloat64ToInt32 | .truncSatUFloat64ToInt32 | .anyTrueVec128
  | .bitmaskVecI8x16 | .bitmaskVecI16x8 | .bitmaskVecI32x4 | .bitmaskVecI64x2 | .allTrueVecI8x16
  | .allTrueVecI16x8 | .allTrueVecI32x4 | .allTrueVecI64x2 | .extractLaneSVecI8x16
  | .extractLaneUVecI8x16 | .extractLaneSVecI16x8 | .extractLaneUVecI16x8 | .extractLaneVecI32x4
  | .addInt32 | .subInt32 | .mulInt32 | .divSInt32 | .divUInt32 | .remSInt32 | .remUInt32
  | .andInt32 | .orInt32 | .xorInt32 | .shlInt32 | .shrUInt32 | .shrSInt32 | .rotLInt32
  | .rotRInt32 | .eqInt32 | .neInt32 | .ltSInt32 | .ltUInt32 | .leSInt32 | .leUInt32 | .gtSInt32
  | .gtUInt32 | .geSInt32 | .geUInt32 | .eqInt64 | .neInt64 | .ltSInt64 | .ltUInt64 | .leSInt64
  | .leUInt64 | .gtSInt64 | .gtUInt64 | .geSInt64 | .geUInt64 | .eqFloat32 | .neFloat32
  | .ltFloat32 | .leFloat32 | .gtFloat32 | .geFloat32 | .eqFloat64 | .neFloat64 | .ltFloat64
  | .leFloat64 | .gtFloat64 | .geFloat64 =>
    [.i32]
  | .clzInt64 | .ctzInt64 | .popcntInt64 | .extendS8Int64 | .extendS16Int64 | .extendS32Int64
  | .extendSInt32 | .extendUInt32 | .truncSFloat32ToInt64 | .truncUFloat32ToInt64
  | .truncSatSFloat32ToInt64 | .truncSatUFloat32ToInt64 | .truncSFloat64ToInt64
  | .truncUFloat64ToInt64 | .reinterpretFloat64 | .truncSatSFloat64ToInt64
  | .truncSatUFloat64ToInt64 | .addInt64 | .subInt64 | .mulInt64 | .divSInt64 | .divUInt64
  | .remSInt64 | .remUInt64 | .andInt64 | .orInt64 | .xorInt64 | .shlInt64 | .shrUInt64
  | .shrSInt64 | .rotLInt64 | .rotRInt64 | .extractLaneVecI64x2 =>
    [.i64]
  | .absFloat32 | .negFloat32 | .sqrtFloat32 | .ceilFloat32 | .floorFloat32 | .truncFloat32
  | .nearestFloat32 | .reinterpretInt32 | .convertSInt32ToFloat32 | .convertUInt32ToFloat32
  | .convertSInt64ToFloat32 | .convertUInt64ToFloat32 | .demoteFloat64 | .addFloat32 | .subFloat32
  | .mulFloat32 | .divFloat32 | .minFloat32 | .maxFloat32 | .copySignFloat32
  | .extractLaneVecF32x4 =>
    [.f32]
  | .absFloat64 | .negFloat64 | .sqrtFloat64 | .ceilFloat64 | .floorFloat64 | .truncFloat64
  | .nearestFloat64 | .reinterpretInt64 | .convertSInt64ToFloat64 | .convertUInt64ToFloat64
  | .convertSInt32ToFloat64 | .convertUInt32ToFloat64 | .promoteFloat32 | .addFloat64
  | .subFloat64 | .mulFloat64 | .divFloat64 | .minFloat64 | .maxFloat64 | .copySignFloat64
  | .extractLaneVecF64x2 =>
    [.f64]
  | .store8LaneVec128 | .store16LaneVec128 | .store32LaneVec128 | .store64LaneVec128 =>
    []
  | _ => [.v128]

end Swam.Binaryen
