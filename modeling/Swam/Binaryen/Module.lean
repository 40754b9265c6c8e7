import Swam.Binaryen.Syntax

/-! # Binaryen modules and the part of the module API in use -/
namespace Swam.Binaryen

/-- A function. An imported function has the body `null`. -/
structure Func where
  name : String
  params : Ty
  results : Ty
  vars : List Ty
  body : Expr

structure Global where
  name : String
  ty : Ty
  mutable_ : Bool
  init : Expr

inductive ExternalKind where
  | function
  | table
  | memory
  | global
  | tag
  deriving DecidableEq, Repr

/-- An export: `value` is the internal name of the exported entity. -/
structure Export where
  name : String
  kind : ExternalKind
  value : String
  deriving DecidableEq, Repr

/-- A memory, with its sizes in pages. -/
structure Memory where
  name : String
  initial : Nat
  max : Option Nat
  shared : Bool
  is64 : Bool
  deriving DecidableEq, Repr

/-- A data segment. `offset` is the constant an active segment is placed at, `none`
where it is no constant. -/
structure Segment where
  name : String
  passive : Bool
  offset : Option Literal
  data : List UInt8
  deriving DecidableEq, Repr

structure Table where
  name : String
  initial : Nat
  max : Option Nat
  ty : ValTy
  deriving DecidableEq, Repr

inductive Feature where
  | mvp | atomics | simd128 | bulkMemory | signExt | mutableGlobals | nontrappingFPToInt
  | referenceTypes | multivalue
  deriving DecidableEq, Repr

structure Module where
  functions : List Func
  globals : List Global
  exports : List Export
  memories : List Memory
  segments : List Segment
  tables : List Table
  features : List Feature

namespace Module

def getFunction (m : Module) (name : String) : Option Func :=
  m.functions.find? (·.name = name)

def getGlobal (m : Module) (name : String) : Option Global :=
  m.globals.find? (·.name = name)

def getExport (m : Module) (name : String) : Option Export :=
  m.exports.find? (·.name = name)

def getMemory (m : Module) (name : String) : Option Memory :=
  m.memories.find? (·.name = name)

def hasMemory (m : Module) : Bool := !m.memories.isEmpty

def addGlobal (m : Module) (g : Global) : Module :=
  { m with globals := m.globals ++ [g] }

def addGlobalExport (m : Module) (internal external : String) : Module :=
  { m with exports := m.exports ++ [⟨external, .global, internal⟩] }

def addTable (m : Module) (t : Table) : Module :=
  { m with tables := m.tables ++ [t] }

def setFeatures (m : Module) (features : List Feature) : Module :=
  { m with features }

def addFeature (m : Module) (feature : Feature) : Module :=
  { m with features := feature :: m.features }

def setFunction (m : Module) (index : Nat) (f : Func) : Module :=
  { m with functions := m.functions.set index f }

/-- Replace the body of the function at an index. -/
def setBody (m : Module) (index : Nat) (body : Expr) : Module :=
  { m with functions := m.functions.modify index ({ · with body }) }

def getSegment (m : Module) (name : String) : Option Segment :=
  m.segments.find? (·.name = name)

/-- `BinaryenSetMemory`: the given memory replaces every memory of the module, the
given segments every segment. The 32-bit maximum is sign-extended, and `-1` means
no maximum. -/
def setMemory (m : Module) (initial maximum : Nat) (segments : List Segment)
    (shared memory64 : Bool) (name : String) : Module :=
  { m with
    memories := [{
      name, initial, shared
      max := if maximum = 2 ^ 32 - 1 then none
        else if maximum < 2 ^ 31 then some maximum else some (2 ^ 64 - 2 ^ 32 + maximum)
      is64 := memory64 }]
    segments }

end Module

/-- Values of the 32-bit `BinaryenIndex` a size is read through. -/
def toIndex (n : Nat) : Nat := n % 2 ^ 32

/-- `BinaryenGetMemorySegmentByteOffset`, of an integer constant: its 32 low bits. -/
def Segment.getByteOffset (seg : Segment) : Option Nat :=
  seg.offset.bind fun
    | .i32 bits => some bits.toNat
    | .i64 bits => some (toIndex bits.toNat)
    | _ => none

/-- `BinaryenMemoryGetInitial`. -/
def Memory.getInitial (mem : Memory) : Nat := toIndex mem.initial

/-- `BinaryenMemoryGetMax`, where there is one. -/
def Memory.getMax (mem : Memory) : Option Nat := mem.max.map toIndex

end Swam.Binaryen
