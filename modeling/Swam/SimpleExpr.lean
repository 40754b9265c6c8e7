import Swam.Binaryen.Semantics
import Swam.Helpers

/-!
# Generating one instruction

`wasmGenerateOneSimpleExpr` builds an instruction of a given kind over operands that
are already there, with random immediates. It creates the memory or the table that the
instruction needs. `none` stands for Binaryen ending the process on a request it
rejects as fatal.
-/
namespace Swam

open Binaryen

/-- What an instruction is built from: its expression kind, its operand type or its
operator, and the bytes a memory instruction moves. -/
inductive InstrTy where
  | load (ty : ValTy) (memBytes : Nat) (memSigned : Bool)
  | store (ty : ValTy) (memBytes : Nat)
  | const (ty : ValTy)
  | unary (op : Op)
  | binary (op : Op)
  | select (ty : ValTy)
  | drop (ty : ValTy)
  | memorySize
  | memoryGrow
  | nop
  | simdExtract (op : Op)
  | simdReplace (op : Op)
  | simdShuffle
  | simdTernary (op : Op)
  | simdShift (op : Op)
  | simdLoad (op : Op)
  | simdLoadStoreLane (op : Op)
  | memoryInit
  | dataDrop
  | memoryCopy
  | memoryFill
  | refNull (ty : ValTy)
  | refIsNull (ty : ValTy)
  | refFunc
  | tableGet (ty : ValTy)
  | tableSet (ty : ValTy)
  | tableSize
  | tableGrow (ty : ValTy)
  deriving DecidableEq, Repr

/-! ## Operands -/

def presentChildren (child : List Expr) : List Expr := child.filter fun c => !c.isNull

/-- The last of the present children. -/
def pickOne (child : List Expr) : Expr := (presentChildren child).getLastD .null

/-- The first of the present children and the last of the others. -/
def pickTwo (child : List Expr) : List Expr :=
  match presentChildren child with
  | [] => [.null, .null]
  | a :: rest => [a, rest.getLastD .null]

/-- The first two of the present children and the last of the others. -/
def pickThree (child : List Expr) : List Expr :=
  match presentChildren child with
  | [] => [.null, .null, .null]
  | [a] => [a, .null, .null]
  | a :: b :: rest => [a, b, rest.getLastD .null]

/-! ## Immediates -/

/-- Random bytes, the least significant first. -/
def randBytes : Nat → Rand → Nat × Rand
  | 0, r => (0, r)
  | n + 1, r =>
    let (low, r) := randBelow 256 r
    let (rest, r) := randBytes n r
    (low + 256 * rest, r)

/-- A 64-bit number from two draws. -/
def randLong (r : Rand) : Nat × Rand :=
  let (high, r) := randBelow (2 ^ 32 - 1) r
  let (low, r) := randBelow (2 ^ 32 - 1) r
  (high <<< 32 + low, r)

/-- A constant of a numeric type. -/
def randLiteral (ty : ValTy) (r : Rand) : Option Literal × Rand :=
  match ty with
  | .i32 =>
    let (bits, r) := randBelow (2 ^ 32 - 1) r
    (some (.i32 (BitVec.ofNat 32 bits)), r)
  | .i64 =>
    let (bits, r) := randLong r
    (some (.i64 (BitVec.ofNat 64 bits)), r)
  | .f32 =>
    let (bits, r) := randBelow (2 ^ 32 - 1) r
    (some (.f32 (BitVec.ofNat 32 bits)), r)
  | .f64 =>
    let (bits, r) := randLong r
    (some (.f64 (BitVec.ofNat 64 bits)), r)
  | .v128 =>
    let (bits, r) := randBytes 16 r
    (some (.v128 (BitVec.ofNat 128 bits)), r)
  | _ => (none, r)

/-- The sixteen lane numbers of a shuffle. -/
def randMask : Nat → Rand → List Nat × Rand
  | 0, r => ([], r)
  | n + 1, r =>
    let (lane, r) := randBelow 32 r
    let (rest, r) := randMask n r
    (lane :: rest, r)

/-- A power of two up to the given number of bytes. -/
def randAlign (bytes : Nat) (r : Rand) : Nat × Rand :=
  let (shift, r) := randBelow (Nat.log2 bytes + 1) r
  (1 <<< shift, r)

/-- Number of lanes of the vector a lane operator works on. -/
def Binaryen.Op.lanes : Op → Nat
  | .extractLaneSVecI8x16 | .extractLaneUVecI8x16 | .replaceLaneVecI8x16 | .load8LaneVec128
  | .store8LaneVec128 => 16
  | .extractLaneSVecI16x8 | .extractLaneUVecI16x8 | .replaceLaneVecI16x8 | .load16LaneVec128
  | .store16LaneVec128 => 8
  | .extractLaneVecI32x4 | .extractLaneVecF32x4 | .replaceLaneVecI32x4 | .replaceLaneVecF32x4
  | .load32LaneVec128 | .store32LaneVec128 => 4
  | .extractLaneVecI64x2 | .extractLaneVecF64x2 | .replaceLaneVecI64x2 | .replaceLaneVecF64x2
  | .load64LaneVec128 | .store64LaneVec128 => 2
  | _ => 1

/-! ## What the instruction refers to -/

/-- The name a `NULL` memory stands for. -/
def memoryName (m : Module) : String := ((soleMemory m).map (·.name)).getD ""

def ensureMemory (m : Module) (r : Rand) : Option (Module × Rand) :=
  if m.hasMemory then some (m, r) else wasmSetMemory m false r

/-- Binaryen ends the process on a second table of one name. -/
def addNumberedTable (m : Module) (ty : ValTy) : Option (Table × Module) :=
  let table : Table := ⟨toString m.tables.length, 0x10, none, ty⟩
  if m.tables.any (·.name = table.name) then none else some (table, m.addTable table)

/-- The first table of a type, given up for each later one with one chance in two. -/
def chooseTable (ty : ValTy) : List Table → Option Table → Rand → Option Table × Rand
  | [], target, r => (target, r)
  | table :: rest, target, r =>
    if table.ty = ty then
      if target.isNone then chooseTable ty rest (some table) r
      else
        let (coin, r) := randBelow 2 r
        chooseTable ty rest (if coin ≠ 0 then some table else target) r
    else chooseTable ty rest target r

def findTable (m : Module) (ty : ValTy) (r : Rand) : Option (Table × Module × Rand) :=
  match chooseTable ty m.tables none r with
  | (some table, r) => some (table, m, r)
  | (none, r) => (addNumberedTable m ty).map fun (table, m) => (table, m, r)

def anyTable (m : Module) (r : Rand) : Option (Table × Module × Rand) :=
  if m.tables.length = 0 then
    let (coin, r) := randBelow 2 r
    (addNumberedTable m (if coin ≠ 0 then .funcref else .externref)).map
      fun (table, m) => (table, m, r)
  else
    let (index, r) := randBelow m.tables.length r
    m.tables[index]?.map fun table => (table, m, r)

/-- The number of a segment of the module as a name. -/
def randSegment (m : Module) (r : Rand) : String × Rand :=
  let (index, r) := randBelow m.segments.length r
  (toString index, r)

/-! ## The instruction -/

def wasmGenerateOneSimpleExpr (m : Module) (newInstr : InstrTy) (child : List Expr) (r : Rand) :
    Option (Expr × Module × Rand) :=
  match newInstr with
  | .load ty memBytes memSigned =>
    (ensureMemory m r).map fun (m, r) =>
      let (align, r) := randAlign memBytes r
      let (offset, r) := randBelow (2 ^ 32 - 1) r
      (.node (.load memBytes memSigned offset align ty false (memoryName m)) [pickOne child], m, r)
  | .store ty memBytes =>
    (ensureMemory m r).map fun (m, r) =>
      let (align, r) := randAlign memBytes r
      let (offset, r) := randBelow (2 ^ 32 - 1) r
      (.node (.store memBytes offset align ty false (memoryName m)) (pickTwo child), m, r)
  | .const ty =>
    let (value, r) := randLiteral ty r
    value.map fun value => (.node (.const value) [], m, r)
  | .unary op => some (.node (.unary op) [pickOne child], m, r)
  | .binary op => some (.node (.binary op) (pickTwo child), m, r)
  | .select ty => some (.node (.select (.one ty)) (pickThree child), m, r)
  | .drop _ => some (.node .drop [pickOne child], m, r)
  | .memorySize =>
    (ensureMemory m r).map fun (m, r) => (.node (.memorySize (memoryName m) false) [], m, r)
  | .memoryGrow =>
    (ensureMemory m r).map fun (m, r) =>
      (.node (.memoryGrow (memoryName m) false) [pickOne child], m, r)
  | .nop => some (.node .nop [], m, r)
  | .simdExtract op =>
    let (lane, r) := randBelow op.lanes r
    some (.node (.simdExtract op lane) [pickOne child], m, r)
  | .simdReplace op =>
    let (lane, r) := randBelow op.lanes r
    some (.node (.simdReplace op lane) (pickTwo child), m, r)
  | .simdShuffle =>
    let (mask, r) := randMask 16 r
    some (.node (.simdShuffle mask) (pickTwo child), m, r)
  | .simdTernary op => some (.node (.simdTernary op) (pickThree child), m, r)
  | .simdShift op => some (.node (.simdShift op) (pickTwo child), m, r)
  | .simdLoad op =>
    (ensureMemory m r).map fun (m, r) =>
      let (align, r) := randAlign op.bytes r
      let (offset, r) := randBelow (2 ^ 32 - 1) r
      (.node (.simdLoad op offset align (memoryName m)) [pickOne child], m, r)
  | .simdLoadStoreLane op =>
    (ensureMemory m r).map fun (m, r) =>
      let (align, r) := randAlign op.bytes r
      let (lane, r) := randBelow op.lanes r
      let (offset, r) := randBelow (2 ^ 32 - 1) r
      (.node (.simdLoadStoreLane op offset align lane (memoryName m)) (pickTwo child), m, r)
  | .memoryInit =>
    (if !m.hasMemory || m.segments.length = 0 then wasmSetMemory m true r else some (m, r)).map
      fun (m, r) =>
        let (segment, r) := randSegment m r
        (.node (.memoryInit segment (memoryName m)) (pickThree child), m, r)
  | .dataDrop =>
    (if m.segments.length = 0 then wasmSetMemory m true r else some (m, r)).map fun (m, r) =>
      let (segment, r) := randSegment m r
      (.node (.dataDrop segment) [], m, r)
  | .memoryCopy =>
    (ensureMemory m r).map fun (m, r) =>
      (.node (.memoryCopy (memoryName m) (memoryName m)) (pickThree child), m, r)
  | .memoryFill =>
    (ensureMemory m r).map fun (m, r) =>
      (.node (.memoryFill (memoryName m)) (pickThree child), m, r)
  | .refNull ty =>
    let ty := if ty = .funcref then .nullFuncref
      else if ty = .externref then .nullExternref else ty
    some (.node (.refNull ty) [], m, r)
  | .refIsNull _ => some (.node .refIsNull [pickOne child], m, r)
  | .refFunc =>
    let (index, r) := randBelow m.functions.length r
    m.functions[index]?.map fun func => (.node (.refFunc func.name .funcref) [], m, r)
  | .tableGet ty =>
    (findTable m ty r).map fun (table, m, r) =>
      (.node (.tableGet table.name ty) [pickOne child], m, r)
  | .tableSet ty =>
    (findTable m ty r).map fun (table, m, r) => (.node (.tableSet table.name) (pickTwo child), m, r)
  | .tableSize =>
    (anyTable m r).map fun (table, m, r) => (.node (.tableSize table.name) [], m, r)
  | .tableGrow ty =>
    (findTable m ty r).map fun (table, m, r) =>
      (.node (.tableGrow table.name) (pickTwo child), m, r)

end Swam
