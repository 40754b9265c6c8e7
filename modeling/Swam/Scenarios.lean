import Mathlib.Algebra.Order.Ring.Int
import Mathlib.Data.List.Basic

/-!
# The scenario catalog

Every scenario names a memory instruction, the place of the access relative to
the end of memory, and the outcome the WebAssembly specification prescribes.
-/
namespace Swam

/-- Target memory instruction kind. -/
inductive SwamOpKind where
  | i32Load | i32Load8U | i32Load8S | i32Load16U | i32Load16S | i32Store | i32Store8 | i32Store16
  | i64Load | i64Load8U | i64Load8S | i64Load16U | i64Load16S | i64Load32U | i64Load32S | i64Store
  | i64Store8 | i64Store16 | i64Store32 | f32Load | f32Store | f64Load | f64Store | i32AtomicLoad
  | i32AtomicLoad8U | i32AtomicLoad16U | i32AtomicStore | i32AtomicStore8 | i32AtomicStore16
  | i64AtomicLoad | i64AtomicLoad8U | i64AtomicLoad16U | i64AtomicLoad32U | i64AtomicStore
  | i64AtomicStore8 | i64AtomicStore16 | i64AtomicStore32 | i32AtomicRmwAdd | i64AtomicRmwAdd
  | i32AtomicRmw8AddU | i32AtomicRmw16AddU | i64AtomicRmw8AddU | i64AtomicRmw16AddU
  | i64AtomicRmw32AddU | i32AtomicRmwSub | i64AtomicRmwSub | i32AtomicRmw8SubU
  | i32AtomicRmw16SubU | i64AtomicRmw8SubU | i64AtomicRmw16SubU | i64AtomicRmw32SubU
  | i32AtomicRmwAnd | i64AtomicRmwAnd | i32AtomicRmw8AndU | i32AtomicRmw16AndU | i64AtomicRmw8AndU
  | i64AtomicRmw16AndU | i64AtomicRmw32AndU | i32AtomicRmwOr | i64AtomicRmwOr | i32AtomicRmw8OrU
  | i32AtomicRmw16OrU | i64AtomicRmw8OrU | i64AtomicRmw16OrU | i64AtomicRmw32OrU | i32AtomicRmwXor
  | i64AtomicRmwXor | i32AtomicRmw8XorU | i32AtomicRmw16XorU | i64AtomicRmw8XorU
  | i64AtomicRmw16XorU | i64AtomicRmw32XorU | i32AtomicRmwXchg | i64AtomicRmwXchg
  | i32AtomicRmw8XchgU | i32AtomicRmw16XchgU | i64AtomicRmw8XchgU | i64AtomicRmw16XchgU
  | i64AtomicRmw32XchgU | i32AtomicRmwCmpxchg | i64AtomicRmwCmpxchg | i32AtomicRmw8CmpxchgU
  | i32AtomicRmw16CmpxchgU | i64AtomicRmw8CmpxchgU | i64AtomicRmw16CmpxchgU
  | i64AtomicRmw32CmpxchgU | memoryAtomicWait32 | memoryAtomicWait64 | memoryAtomicNotify
  | v128Load | v128Load8x8S | v128Load8x8U | v128Load16x4S | v128Load16x4U | v128Load32x2S
  | v128Load32x2U | v128Load8Splat | v128Load16Splat | v128Load32Splat | v128Load64Splat
  | v128Load32Zero | v128Load64Zero | v128Load8Lane | v128Load16Lane | v128Load32Lane
  | v128Load64Lane | v128Store | v128Store8Lane | v128Store16Lane | v128Store32Lane
  | v128Store64Lane | memoryCopy | memoryFill | memoryInit | memoryGrow
  deriving DecidableEq, Repr

/-- Boundary layout dimension. -/
inductive SwamLayout where
  | interior | boundary | oob
  deriving DecidableEq, Repr

/-- Address arithmetic wrap dimension. -/
inductive SwamWrap where
  | noWrap | overflow
  deriving DecidableEq, Repr

/-- Alignment dimension, for atomic operations on shared memory. -/
inductive SwamAlign where
  | aligned | misaligned | na
  deriving DecidableEq, Repr

/-- Expected specification outcome. -/
inductive SwamExpected where
  | trap | noTrap | unknown
  deriving DecidableEq, Repr

/-- Value type operated on by the instruction. -/
inductive SwamValType where
  | i32 | i64 | f32 | f64 | v128
  deriving DecidableEq, Repr

/-- Probe-generation class for the target instruction. -/
inductive SwamOpClass where
  | load | store | memoryGrow | atomicLoad | atomicStore | atomicRmw | atomicCmpxchg | atomicWait
  | atomicNotify | simdLoad | simdLoadLane | simdStore | simdStoreLane | bulkCopy | bulkFill
  | bulkInit
  deriving DecidableEq, Repr

def SwamOpClass.isAtomic : SwamOpClass → Bool
  | .atomicLoad | .atomicStore | .atomicRmw | .atomicCmpxchg | .atomicWait | .atomicNotify => true
  | _ => false

def SwamOpClass.isSimd : SwamOpClass → Bool
  | .simdLoad | .simdLoadLane | .simdStore | .simdStoreLane => true
  | _ => false

def SwamOpClass.isBulk : SwamOpClass → Bool
  | .bulkCopy | .bulkFill | .bulkInit => true
  | _ => false

/-- A single boundary scenario. -/
structure SwamScenario where
  id : Nat
  opKind : SwamOpKind
  opClass : SwamOpClass
  layout : SwamLayout
  expected : SwamExpected
  accessWidth : Nat
  isSigned : Bool
  valueType : SwamValType
  wrap : SwamWrap
  align : SwamAlign
  deriving DecidableEq, Repr

/-! Row families of the catalog. -/

def swamLayoutScenarios (baseId : Nat) (op : SwamOpKind) (cls : SwamOpClass) (width : Nat)
    (signed : Bool) (type : SwamValType) : List SwamScenario :=
  [⟨baseId, op, cls, .interior, .noTrap, width, signed, type, .noWrap, .na⟩,
   ⟨baseId + 1, op, cls, .boundary, .noTrap, width, signed, type, .noWrap, .na⟩,
   ⟨baseId + 2, op, cls, .oob, .trap, width, signed, type, .noWrap, .na⟩]

def swamMemoryGrowScenarios (baseId : Nat) : List SwamScenario :=
  [⟨baseId, .memoryGrow, .memoryGrow, .interior, .unknown, 0, false, .i32, .noWrap, .na⟩,
   ⟨baseId + 1, .memoryGrow, .memoryGrow, .boundary, .unknown, 0, false, .i32, .noWrap, .na⟩,
   ⟨baseId + 2, .memoryGrow, .memoryGrow, .oob, .unknown, 0, false, .i32, .noWrap, .na⟩]

def swamOverflowScenario (id : Nat) (op : SwamOpKind) (cls : SwamOpClass) (width : Nat)
    (signed : Bool) (type : SwamValType) : List SwamScenario :=
  [⟨id, op, cls, .interior, .trap, width, signed, type, .overflow, .na⟩]

def swamBulkScenarios (baseId : Nat) (op : SwamOpKind) (cls : SwamOpClass) :
    List SwamScenario :=
  [⟨baseId, op, cls, .interior, .noTrap, 1, false, .i32, .noWrap, .na⟩,
   ⟨baseId + 1, op, cls, .boundary, .noTrap, 1, false, .i32, .noWrap, .na⟩,
   ⟨baseId + 2, op, cls, .oob, .trap, 1, false, .i32, .noWrap, .na⟩]

def swamAtomicW1Scenarios (baseId : Nat) (op : SwamOpKind) (cls : SwamOpClass)
    (type : SwamValType) : List SwamScenario :=
  [⟨baseId, op, cls, .interior, .noTrap, 1, false, type, .noWrap, .na⟩,
   ⟨baseId + 1, op, cls, .boundary, .noTrap, 1, false, type, .noWrap, .na⟩,
   ⟨baseId + 2, op, cls, .oob, .trap, 1, false, type, .noWrap, .na⟩,
   ⟨baseId + 3, op, cls, .interior, .trap, 1, false, type, .overflow, .na⟩]

def swamAtomicAlignScenarios (baseId : Nat) (op : SwamOpKind) (cls : SwamOpClass) (width : Nat)
    (type : SwamValType) : List SwamScenario :=
  [⟨baseId, op, cls, .interior, .noTrap, width, false, type, .noWrap, .aligned⟩,
   ⟨baseId + 1, op, cls, .boundary, .noTrap, width, false, type, .noWrap, .aligned⟩,
   ⟨baseId + 2, op, cls, .oob, .trap, width, false, type, .noWrap, .aligned⟩,
   ⟨baseId + 3, op, cls, .interior, .trap, width, false, type, .noWrap, .misaligned⟩,
   ⟨baseId + 4, op, cls, .boundary, .trap, width, false, type, .noWrap, .misaligned⟩,
   ⟨baseId + 5, op, cls, .oob, .trap, width, false, type, .noWrap, .misaligned⟩,
   ⟨baseId + 6, op, cls, .interior, .trap, width, false, type, .overflow, .aligned⟩]

def swamScenarioCatalog : List SwamScenario := List.flatten [
  swamLayoutScenarios 1 .i32Load .load 4 false .i32,
  swamLayoutScenarios 4 .i32Load8U .load 1 false .i32,
  swamLayoutScenarios 7 .i32Load8S .load 1 true .i32,
  swamLayoutScenarios 10 .i32Load16U .load 2 false .i32,
  swamLayoutScenarios 13 .i32Load16S .load 2 true .i32,
  swamLayoutScenarios 16 .i32Store .store 4 false .i32,
  swamLayoutScenarios 19 .i32Store8 .store 1 false .i32,
  swamLayoutScenarios 22 .i32Store16 .store 2 false .i32,
  swamLayoutScenarios 25 .i64Load .load 8 false .i64,
  swamLayoutScenarios 28 .i64Load8U .load 1 false .i64,
  swamLayoutScenarios 31 .i64Load8S .load 1 true .i64,
  swamLayoutScenarios 34 .i64Load16U .load 2 false .i64,
  swamLayoutScenarios 37 .i64Load16S .load 2 true .i64,
  swamLayoutScenarios 40 .i64Load32U .load 4 false .i64,
  swamLayoutScenarios 43 .i64Load32S .load 4 true .i64,
  swamLayoutScenarios 46 .i64Store .store 8 false .i64,
  swamLayoutScenarios 49 .i64Store8 .store 1 false .i64,
  swamLayoutScenarios 52 .i64Store16 .store 2 false .i64,
  swamLayoutScenarios 55 .i64Store32 .store 4 false .i64,
  swamLayoutScenarios 58 .f32Load .load 4 false .f32,
  swamLayoutScenarios 61 .f32Store .store 4 false .f32,
  swamLayoutScenarios 64 .f64Load .load 8 false .f64,
  swamLayoutScenarios 67 .f64Store .store 8 false .f64,
  swamMemoryGrowScenarios 70,
  -- OVERFLOW (wrap) scenarios: one per load/store op
  swamOverflowScenario 73 .i32Load .load 4 false .i32,
  swamOverflowScenario 74 .i32Load8U .load 1 false .i32,
  swamOverflowScenario 75 .i32Load8S .load 1 true .i32,
  swamOverflowScenario 76 .i32Load16U .load 2 false .i32,
  swamOverflowScenario 77 .i32Load16S .load 2 true .i32,
  swamOverflowScenario 78 .i32Store .store 4 false .i32,
  swamOverflowScenario 79 .i32Store8 .store 1 false .i32,
  swamOverflowScenario 80 .i32Store16 .store 2 false .i32,
  swamOverflowScenario 81 .i64Load .load 8 false .i64,
  swamOverflowScenario 82 .i64Load8U .load 1 false .i64,
  swamOverflowScenario 83 .i64Load8S .load 1 true .i64,
  swamOverflowScenario 84 .i64Load16U .load 2 false .i64,
  swamOverflowScenario 85 .i64Load16S .load 2 true .i64,
  swamOverflowScenario 86 .i64Load32U .load 4 false .i64,
  swamOverflowScenario 87 .i64Load32S .load 4 true .i64,
  swamOverflowScenario 88 .i64Store .store 8 false .i64,
  swamOverflowScenario 89 .i64Store8 .store 1 false .i64,
  swamOverflowScenario 90 .i64Store16 .store 2 false .i64,
  swamOverflowScenario 91 .i64Store32 .store 4 false .i64,
  swamOverflowScenario 92 .f32Load .load 4 false .f32,
  swamOverflowScenario 93 .f32Store .store 4 false .f32,
  swamOverflowScenario 94 .f64Load .load 8 false .f64,
  swamOverflowScenario 95 .f64Store .store 8 false .f64,
  -- Atomic ops with W=1: no alignment dimension (4 scenarios each)
  swamAtomicW1Scenarios 96 .i32AtomicLoad8U .atomicLoad .i32,
  swamAtomicW1Scenarios 100 .i32AtomicStore8 .atomicStore .i32,
  swamAtomicW1Scenarios 104 .i64AtomicLoad8U .atomicLoad .i64,
  swamAtomicW1Scenarios 108 .i64AtomicStore8 .atomicStore .i64,
  -- Atomic ops with W=2: layout x align + OVERFLOW (7 scenarios each)
  swamAtomicAlignScenarios 112 .i32AtomicLoad16U .atomicLoad 2 .i32,
  swamAtomicAlignScenarios 119 .i32AtomicStore16 .atomicStore 2 .i32,
  swamAtomicAlignScenarios 126 .i64AtomicLoad16U .atomicLoad 2 .i64,
  swamAtomicAlignScenarios 133 .i64AtomicStore16 .atomicStore 2 .i64,
  -- Atomic ops with W=4: layout x align + OVERFLOW (7 scenarios each)
  swamAtomicAlignScenarios 140 .i32AtomicLoad .atomicLoad 4 .i32,
  swamAtomicAlignScenarios 147 .i32AtomicStore .atomicStore 4 .i32,
  swamAtomicAlignScenarios 154 .i64AtomicLoad32U .atomicLoad 4 .i64,
  swamAtomicAlignScenarios 161 .i64AtomicStore32 .atomicStore 4 .i64,
  -- Atomic ops with W=8: layout x align + OVERFLOW (7 scenarios each)
  swamAtomicAlignScenarios 168 .i64AtomicLoad .atomicLoad 8 .i64,
  swamAtomicAlignScenarios 175 .i64AtomicStore .atomicStore 8 .i64,
  -- Atomic RMW ADD: W=1 (4 scenarios each)
  swamAtomicW1Scenarios 182 .i32AtomicRmw8AddU .atomicRmw .i32,
  swamAtomicW1Scenarios 186 .i64AtomicRmw8AddU .atomicRmw .i64,
  -- Atomic RMW ADD: W=2 (7 scenarios each)
  swamAtomicAlignScenarios 190 .i32AtomicRmw16AddU .atomicRmw 2 .i32,
  swamAtomicAlignScenarios 197 .i64AtomicRmw16AddU .atomicRmw 2 .i64,
  -- Atomic RMW ADD: W=4 (7 scenarios each)
  swamAtomicAlignScenarios 204 .i32AtomicRmwAdd .atomicRmw 4 .i32,
  swamAtomicAlignScenarios 211 .i64AtomicRmw32AddU .atomicRmw 4 .i64,
  -- Atomic RMW ADD: W=8 (7 scenarios each)
  swamAtomicAlignScenarios 218 .i64AtomicRmwAdd .atomicRmw 8 .i64,
  -- Atomic RMW SUB: W=1 (4 scenarios each)
  swamAtomicW1Scenarios 225 .i32AtomicRmw8SubU .atomicRmw .i32,
  swamAtomicW1Scenarios 229 .i64AtomicRmw8SubU .atomicRmw .i64,
  -- Atomic RMW SUB: W=2 (7 scenarios each)
  swamAtomicAlignScenarios 233 .i32AtomicRmw16SubU .atomicRmw 2 .i32,
  swamAtomicAlignScenarios 240 .i64AtomicRmw16SubU .atomicRmw 2 .i64,
  -- Atomic RMW SUB: W=4 (7 scenarios each)
  swamAtomicAlignScenarios 247 .i32AtomicRmwSub .atomicRmw 4 .i32,
  swamAtomicAlignScenarios 254 .i64AtomicRmw32SubU .atomicRmw 4 .i64,
  -- Atomic RMW SUB: W=8 (7 scenarios each)
  swamAtomicAlignScenarios 261 .i64AtomicRmwSub .atomicRmw 8 .i64,
  -- Atomic RMW AND: W=1 (4 scenarios each)
  swamAtomicW1Scenarios 268 .i32AtomicRmw8AndU .atomicRmw .i32,
  swamAtomicW1Scenarios 272 .i64AtomicRmw8AndU .atomicRmw .i64,
  -- Atomic RMW AND: W=2 (7 scenarios each)
  swamAtomicAlignScenarios 276 .i32AtomicRmw16AndU .atomicRmw 2 .i32,
  swamAtomicAlignScenarios 283 .i64AtomicRmw16AndU .atomicRmw 2 .i64,
  -- Atomic RMW AND: W=4 (7 scenarios each)
  swamAtomicAlignScenarios 290 .i32AtomicRmwAnd .atomicRmw 4 .i32,
  swamAtomicAlignScenarios 297 .i64AtomicRmw32AndU .atomicRmw 4 .i64,
  -- Atomic RMW AND: W=8 (7 scenarios each)
  swamAtomicAlignScenarios 304 .i64AtomicRmwAnd .atomicRmw 8 .i64,
  -- Atomic RMW OR: W=1 (4 scenarios each)
  swamAtomicW1Scenarios 311 .i32AtomicRmw8OrU .atomicRmw .i32,
  swamAtomicW1Scenarios 315 .i64AtomicRmw8OrU .atomicRmw .i64,
  -- Atomic RMW OR: W=2 (7 scenarios each)
  swamAtomicAlignScenarios 319 .i32AtomicRmw16OrU .atomicRmw 2 .i32,
  swamAtomicAlignScenarios 326 .i64AtomicRmw16OrU .atomicRmw 2 .i64,
  -- Atomic RMW OR: W=4 (7 scenarios each)
  swamAtomicAlignScenarios 333 .i32AtomicRmwOr .atomicRmw 4 .i32,
  swamAtomicAlignScenarios 340 .i64AtomicRmw32OrU .atomicRmw 4 .i64,
  -- Atomic RMW OR: W=8 (7 scenarios each)
  swamAtomicAlignScenarios 347 .i64AtomicRmwOr .atomicRmw 8 .i64,
  -- Atomic RMW XOR: W=1 (4 scenarios each)
  swamAtomicW1Scenarios 354 .i32AtomicRmw8XorU .atomicRmw .i32,
  swamAtomicW1Scenarios 358 .i64AtomicRmw8XorU .atomicRmw .i64,
  -- Atomic RMW XOR: W=2 (7 scenarios each)
  swamAtomicAlignScenarios 362 .i32AtomicRmw16XorU .atomicRmw 2 .i32,
  swamAtomicAlignScenarios 369 .i64AtomicRmw16XorU .atomicRmw 2 .i64,
  -- Atomic RMW XOR: W=4 (7 scenarios each)
  swamAtomicAlignScenarios 376 .i32AtomicRmwXor .atomicRmw 4 .i32,
  swamAtomicAlignScenarios 383 .i64AtomicRmw32XorU .atomicRmw 4 .i64,
  -- Atomic RMW XOR: W=8 (7 scenarios each)
  swamAtomicAlignScenarios 390 .i64AtomicRmwXor .atomicRmw 8 .i64,
  -- Atomic RMW XCHG: W=1 (4 scenarios each)
  swamAtomicW1Scenarios 397 .i32AtomicRmw8XchgU .atomicRmw .i32,
  swamAtomicW1Scenarios 401 .i64AtomicRmw8XchgU .atomicRmw .i64,
  -- Atomic RMW XCHG: W=2 (7 scenarios each)
  swamAtomicAlignScenarios 405 .i32AtomicRmw16XchgU .atomicRmw 2 .i32,
  swamAtomicAlignScenarios 412 .i64AtomicRmw16XchgU .atomicRmw 2 .i64,
  -- Atomic RMW XCHG: W=4 (7 scenarios each)
  swamAtomicAlignScenarios 419 .i32AtomicRmwXchg .atomicRmw 4 .i32,
  swamAtomicAlignScenarios 426 .i64AtomicRmw32XchgU .atomicRmw 4 .i64,
  -- Atomic RMW XCHG: W=8 (7 scenarios each)
  swamAtomicAlignScenarios 433 .i64AtomicRmwXchg .atomicRmw 8 .i64,
  -- Atomic Cmpxchg: W=1 (4 scenarios each)
  swamAtomicW1Scenarios 440 .i32AtomicRmw8CmpxchgU .atomicCmpxchg .i32,
  swamAtomicW1Scenarios 444 .i64AtomicRmw8CmpxchgU .atomicCmpxchg .i64,
  -- Atomic Cmpxchg: W=2 (7 scenarios each)
  swamAtomicAlignScenarios 448 .i32AtomicRmw16CmpxchgU .atomicCmpxchg 2 .i32,
  swamAtomicAlignScenarios 455 .i64AtomicRmw16CmpxchgU .atomicCmpxchg 2 .i64,
  -- Atomic Cmpxchg: W=4 (7 scenarios each)
  swamAtomicAlignScenarios 462 .i32AtomicRmwCmpxchg .atomicCmpxchg 4 .i32,
  swamAtomicAlignScenarios 469 .i64AtomicRmw32CmpxchgU .atomicCmpxchg 4 .i64,
  -- Atomic Cmpxchg: W=8 (7 scenarios each)
  swamAtomicAlignScenarios 476 .i64AtomicRmwCmpxchg .atomicCmpxchg 8 .i64,
  -- Wait/Notify scenarios
  swamAtomicAlignScenarios 483 .memoryAtomicWait32 .atomicWait 4 .i32,
  swamAtomicAlignScenarios 490 .memoryAtomicWait64 .atomicWait 8 .i64,
  swamAtomicAlignScenarios 497 .memoryAtomicNotify .atomicNotify 4 .i32,
  -- SIMD v128 non-lane loads: 13 ops x 4 = 52 scenarios
  swamLayoutScenarios 504 .v128Load .simdLoad 16 false .v128,
  swamOverflowScenario 507 .v128Load .simdLoad 16 false .v128,
  swamLayoutScenarios 508 .v128Load8x8S .simdLoad 8 false .v128,
  swamOverflowScenario 511 .v128Load8x8S .simdLoad 8 false .v128,
  swamLayoutScenarios 512 .v128Load8x8U .simdLoad 8 false .v128,
  swamOverflowScenario 515 .v128Load8x8U .simdLoad 8 false .v128,
  swamLayoutScenarios 516 .v128Load16x4S .simdLoad 8 false .v128,
  swamOverflowScenario 519 .v128Load16x4S .simdLoad 8 false .v128,
  swamLayoutScenarios 520 .v128Load16x4U .simdLoad 8 false .v128,
  swamOverflowScenario 523 .v128Load16x4U .simdLoad 8 false .v128,
  swamLayoutScenarios 524 .v128Load32x2S .simdLoad 8 false .v128,
  swamOverflowScenario 527 .v128Load32x2S .simdLoad 8 false .v128,
  swamLayoutScenarios 528 .v128Load32x2U .simdLoad 8 false .v128,
  swamOverflowScenario 531 .v128Load32x2U .simdLoad 8 false .v128,
  swamLayoutScenarios 532 .v128Load8Splat .simdLoad 1 false .v128,
  swamOverflowScenario 535 .v128Load8Splat .simdLoad 1 false .v128,
  swamLayoutScenarios 536 .v128Load16Splat .simdLoad 2 false .v128,
  swamOverflowScenario 539 .v128Load16Splat .simdLoad 2 false .v128,
  swamLayoutScenarios 540 .v128Load32Splat .simdLoad 4 false .v128,
  swamOverflowScenario 543 .v128Load32Splat .simdLoad 4 false .v128,
  swamLayoutScenarios 544 .v128Load64Splat .simdLoad 8 false .v128,
  swamOverflowScenario 547 .v128Load64Splat .simdLoad 8 false .v128,
  swamLayoutScenarios 548 .v128Load32Zero .simdLoad 4 false .v128,
  swamOverflowScenario 551 .v128Load32Zero .simdLoad 4 false .v128,
  swamLayoutScenarios 552 .v128Load64Zero .simdLoad 8 false .v128,
  swamOverflowScenario 555 .v128Load64Zero .simdLoad 8 false .v128,
  -- SIMD v128 lane loads: 4 ops x 4 = 16 scenarios
  swamLayoutScenarios 556 .v128Load8Lane .simdLoadLane 1 false .v128,
  swamOverflowScenario 559 .v128Load8Lane .simdLoadLane 1 false .v128,
  swamLayoutScenarios 560 .v128Load16Lane .simdLoadLane 2 false .v128,
  swamOverflowScenario 563 .v128Load16Lane .simdLoadLane 2 false .v128,
  swamLayoutScenarios 564 .v128Load32Lane .simdLoadLane 4 false .v128,
  swamOverflowScenario 567 .v128Load32Lane .simdLoadLane 4 false .v128,
  swamLayoutScenarios 568 .v128Load64Lane .simdLoadLane 8 false .v128,
  swamOverflowScenario 571 .v128Load64Lane .simdLoadLane 8 false .v128,
  -- SIMD v128 store: 1 op x 4 = 4 scenarios
  swamLayoutScenarios 572 .v128Store .simdStore 16 false .v128,
  swamOverflowScenario 575 .v128Store .simdStore 16 false .v128,
  -- SIMD v128 lane stores: 4 ops x 4 = 16 scenarios
  swamLayoutScenarios 576 .v128Store8Lane .simdStoreLane 1 false .v128,
  swamOverflowScenario 579 .v128Store8Lane .simdStoreLane 1 false .v128,
  swamLayoutScenarios 580 .v128Store16Lane .simdStoreLane 2 false .v128,
  swamOverflowScenario 583 .v128Store16Lane .simdStoreLane 2 false .v128,
  swamLayoutScenarios 584 .v128Store32Lane .simdStoreLane 4 false .v128,
  swamOverflowScenario 587 .v128Store32Lane .simdStoreLane 4 false .v128,
  swamLayoutScenarios 588 .v128Store64Lane .simdStoreLane 8 false .v128,
  swamOverflowScenario 591 .v128Store64Lane .simdStoreLane 8 false .v128,
  -- Bulk memory: 3 ops x 3 = 9 scenarios
  swamBulkScenarios 592 .memoryCopy .bulkCopy,
  swamBulkScenarios 595 .memoryFill .bulkFill,
  swamBulkScenarios 598 .memoryInit .bulkInit]

def swamScenarioCount : Nat := swamScenarioCatalog.length

def swamGetScenario (id : Nat) : Option SwamScenario :=
  if id < 1 ∨ id > swamScenarioCount then none else swamScenarioCatalog[id - 1]?

/-- Ids count the rows from one. -/
theorem swamScenarioCatalog_ids :
    swamScenarioCatalog.map (·.id) = List.range' 1 swamScenarioCount := by
  decide +kernel

theorem swamGetScenario_eq_some {id : Nat} {s : SwamScenario} (found : swamGetScenario id = some s) :
    s ∈ swamScenarioCatalog ∧ s.id = id ∧ 1 ≤ id ∧ id ≤ swamScenarioCount := by
  unfold swamGetScenario at found
  split at found
  · cases found
  next inside =>
    obtain ⟨bound, equal⟩ := List.getElem?_eq_some_iff.mp found
    refine ⟨equal ▸ List.getElem_mem bound, ?_, by omega, by omega⟩
    have ids := congrArg (·[id - 1]?) swamScenarioCatalog_ids
    simp only [List.getElem?_map, found, Option.map_some] at ids
    rw [swamScenarioCount, List.getElem?_range' bound, Option.some.injEq] at ids
    omega

theorem swamGetScenario_of_mem {s : SwamScenario} (member : s ∈ swamScenarioCatalog) :
    swamGetScenario s.id = some s := by
  obtain ⟨i, bound, rfl⟩ := List.getElem_of_mem member
  have ids := congrArg (·[i]?) swamScenarioCatalog_ids
  simp only [List.getElem?_map, List.getElem?_eq_getElem bound, Option.map_some] at ids
  rw [swamScenarioCount, List.getElem?_range' bound, Option.some.injEq] at ids
  have inside : ¬ (1 + 1 * i < 1 ∨ 1 + 1 * i > swamScenarioCount) := by
    rw [swamScenarioCount]
    omega
  rw [ids, swamGetScenario, if_neg inside, Nat.one_mul, Nat.add_sub_cancel_left]
  exact List.getElem?_eq_getElem bound

end Swam
