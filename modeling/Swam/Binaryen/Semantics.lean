import Swam.Binaryen.Syntax

/-!
# Execution of expressions

A big-step semantics in the sense of the WebAssembly specification. Control,
variables, address arithmetic and the bounds and alignment checks of every memory
instruction are fixed here. A `Runtime` supplies the rest: the arithmetic no
address goes through, the bytes an access moves, and the call environment.
-/
namespace Swam.Binaryen

inductive Val where
  | num (value : Literal)
  | nullRef
  | funcRef (name : String)
  | externRef (id : Nat)
  deriving DecidableEq, Repr

@[match_pattern] abbrev Val.i32 (bits : BitVec 32) : Val := .num (.i32 bits)
@[match_pattern] abbrev Val.i64 (bits : BitVec 64) : Val := .num (.i64 bits)

/-- An address operand as an unbounded number. -/
def Val.index : Val → Option Nat
  | .i32 b => some b.toNat
  | .i64 b => some b.toNat
  | _ => none

structure MemInst where
  pages : Nat
  bytes : Nat → UInt8

def pageSize : Nat := 65536

def MemInst.size (m : MemInst) : Nat := m.pages * pageSize

/-- Overwrite `n` bytes from `dest` on. -/
def MemInst.write (m : MemInst) (dest n : Nat) (source : Nat → UInt8) : MemInst :=
  { m with bytes := fun i => if dest ≤ i ∧ i < dest + n then source (i - dest) else m.bytes i }

/-- The store together with the locals of the running function. A local may hold a
tuple; a dropped segment is empty. -/
structure State where
  locals : Nat → List Val
  globals : String → List Val
  mems : String → MemInst
  segments : String → List UInt8
  tables : String → List Val

namespace State

def setLocal (σ : State) (i : Nat) (vs : List Val) : State :=
  { σ with locals := fun j => if j = i then vs else σ.locals j }

def setGlobal (σ : State) (name : String) (vs : List Val) : State :=
  { σ with globals := fun n => if n = name then vs else σ.globals n }

def setMem (σ : State) (name : String) (m : MemInst) : State :=
  { σ with mems := fun n => if n = name then m else σ.mems n }

def dropSegment (σ : State) (name : String) : State :=
  { σ with segments := fun n => if n = name then [] else σ.segments n }

@[simp] theorem setLocal_globals (σ : State) (i : Nat) (vs : List Val) :
    (σ.setLocal i vs).globals = σ.globals := rfl

@[simp] theorem setLocal_mems (σ : State) (i : Nat) (vs : List Val) :
    (σ.setLocal i vs).mems = σ.mems := rfl

@[simp] theorem setLocal_segments (σ : State) (i : Nat) (vs : List Val) :
    (σ.setLocal i vs).segments = σ.segments := rfl

@[simp] theorem setLocal_self (σ : State) (i : Nat) (vs : List Val) :
    (σ.setLocal i vs).locals i = vs := by
  simp [setLocal]

@[simp] theorem setGlobal_locals (σ : State) (name : String) (vs : List Val) :
    (σ.setGlobal name vs).locals = σ.locals := rfl

@[simp] theorem setGlobal_mems (σ : State) (name : String) (vs : List Val) :
    (σ.setGlobal name vs).mems = σ.mems := rfl

@[simp] theorem setGlobal_segments (σ : State) (name : String) (vs : List Val) :
    (σ.setGlobal name vs).segments = σ.segments := rfl

@[simp] theorem setGlobal_self (σ : State) (name : String) (vs : List Val) :
    (σ.setGlobal name vs).globals name = vs := by
  simp [setGlobal]

theorem setGlobal_of_ne (σ : State) {name other : String} (vs : List Val)
    (differ : other ≠ name) : (σ.setGlobal name vs).globals other = σ.globals other := by
  simp [setGlobal, differ]

/-- The globals and data segments are as before. -/
def Keeps (σ σ' : State) : Prop := σ'.globals = σ.globals ∧ σ'.segments = σ.segments

theorem Keeps.refl (σ : State) : σ.Keeps σ := ⟨rfl, rfl⟩

theorem Keeps.setGlobal {σ σ' : State} (keeps : σ.Keeps σ') (name : String) (vs : List Val) :
    (σ.setGlobal name vs).Keeps (σ'.setGlobal name vs) := by
  obtain ⟨globals, segments⟩ := keeps
  simp [Keeps, State.setGlobal, globals, segments]

end State

/-- Why control left an expression other than by completing it. -/
inductive Abrupt where
  | br (label : String) (values : List Val)
  | ret (values : List Val)
  | trap
  | exn (tag : String) (values : List Val)
  deriving DecidableEq, Repr

/-- `done` lists the values of each of the executed expressions. -/
inductive Res where
  | done (values : List (List Val))
  | stop (reason : Abrupt)
  deriving DecidableEq, Repr

/-- How an instruction outside this semantics may end: it never branches. -/
inductive HostRes where
  | done (values : List Val)
  | trap
  | exn (tag : String) (values : List Val)

def HostRes.res : HostRes → Res
  | .done vs => .done [vs]
  | .trap => .stop .trap
  | .exn tag vs => .stop (.exn tag vs)

/-- Bytes a vector load or lane instruction accesses. -/
def Op.bytes : Op → Nat
  | .load8SplatVec128 | .load8LaneVec128 | .store8LaneVec128 => 1
  | .load16SplatVec128 | .load16LaneVec128 | .store16LaneVec128 => 2
  | .load32SplatVec128 | .load32ZeroVec128 | .load32LaneVec128 | .store32LaneVec128 => 4
  | _ => 8

/-- What a single-address memory instruction accesses. -/
structure Access where
  mem : String
  bytes : Nat
  offset : Nat
  atomic : Bool

def Kind.access : Kind → Option Access
  | .load bytes _ offset _ _ atomic mem => some ⟨mem, bytes, offset, atomic⟩
  | .store bytes offset _ _ atomic mem => some ⟨mem, bytes, offset, atomic⟩
  | .atomicRMW _ bytes offset _ mem => some ⟨mem, bytes, offset, true⟩
  | .atomicCmpxchg bytes offset _ mem => some ⟨mem, bytes, offset, true⟩
  | .atomicWait offset ty mem => some ⟨mem, if ty = .i32 then 4 else 8, offset, true⟩
  | .atomicNotify offset mem => some ⟨mem, 4, offset, true⟩
  | .simdLoad op offset _ mem => some ⟨mem, op.bytes, offset, false⟩
  | .simdLoadStoreLane op offset _ _ mem => some ⟨mem, op.bytes, offset, false⟩
  | _ => none

/-- The access at a base address is in bounds and, when atomic, aligned. The
effective address is an unbounded sum. -/
def Access.Fits (a : Access) (base : Nat) (size : Nat) : Prop :=
  base + a.offset + a.bytes ≤ size ∧ (a.atomic → (base + a.offset) % a.bytes = 0)

instance (a : Access) (base size : Nat) : Decidable (a.Fits base size) :=
  inferInstanceAs (Decidable (_ ∧ _))

/-- The integer arithmetic of addresses, `none` for every other operator. -/
def arith : Op → Val → Val → Option Res
  | .addInt32, .i32 a, .i32 b => some (.done [[.i32 (a + b)]])
  | .subInt32, .i32 a, .i32 b => some (.done [[.i32 (a - b)]])
  | .mulInt32, .i32 a, .i32 b => some (.done [[.i32 (a * b)]])
  | .divUInt32, .i32 a, .i32 b =>
    some (if b = 0 then .stop .trap else .done [[.i32 (a / b)]])
  | .addInt64, .i64 a, .i64 b => some (.done [[.i64 (a + b)]])
  | .subInt64, .i64 a, .i64 b => some (.done [[.i64 (a - b)]])
  | .mulInt64, .i64 a, .i64 b => some (.done [[.i64 (a * b)]])
  | .divUInt64, .i64 a, .i64 b =>
    some (if b = 0 then .stop .trap else .done [[.i64 (a / b)]])
  | _, _, _ => none

/-- A size in pages as an index value. -/
def pagesVal (is64 : Bool) (n : Nat) : Val :=
  if is64 then .i64 (BitVec.ofNat 64 n) else .i32 (BitVec.ofNat 32 n)

/-- Kinds whose execution is not a function of the values of their children and
that are left to the runtime as a whole. -/
def Kind.isControl : Kind → Bool
  | .try_ .. | .rethrow _ | .pop _ | .other _ _ => true
  | _ => false

/-- Kinds that evaluate all their children in order and then act on the values. -/
def Kind.isStrict : Kind → Bool
  | .block _ _ | .if_ | .loop _ => false
  | k => !k.isControl

/-- Pure instructions whose arithmetic the runtime supplies. -/
def Kind.isPure : Kind → Bool
  | .unary _ | .binary _ | .simdExtract _ _ | .simdReplace _ _ | .simdShuffle _
  | .simdTernary _ | .simdShift _ => true
  | _ => false

/-- Instructions that run other functions or touch tables. -/
def Kind.isHost : Kind → Bool
  | .call _ _ | .callIndirect _ _ _ | .tableGet _ _ | .tableSet _ | .tableSize _
  | .tableGrow _ => true
  | _ => false

structure Runtime where
  /-- Arithmetic; `none` is a trap. -/
  compute : Kind → List (List Val) → Option (List Val)
  /-- Results and new memory contents of an access that is in bounds. -/
  transfer : Kind → List (List Val) → (Nat → UInt8) → List Val × (Nat → UInt8)
  /-- The call environment. -/
  host : Kind → List (List Val) → State → HostRes → State → Prop
  /-- Exception handling and unsupported proposals. -/
  control : Kind → List Expr → State → Res → State → Prop
  /-- Control nodes branch to labels they name. -/
  control_br : ∀ {k cs σ l vs σ'}, control k cs σ (.stop (.br l vs)) σ' →
    l ∈ (Expr.node k cs).targets
  /-- A control node is one expression. -/
  control_done : ∀ {k cs σ vss σ'}, control k cs σ (.done vss) σ' → ∃ vs, vss = [vs]

/-- A runtime without callable functions, on memories that hold zeros. -/
def Runtime.zeros : Runtime where
  compute := fun _ _ => none
  transfer := fun k _ bytes => match k with
    | .load .. => ([.i32 0], bytes)
    | _ => ([], bytes)
  host := fun _ _ _ _ _ => False
  control := fun _ _ _ _ _ => False
  control_br := fun impossible => impossible.elim
  control_done := fun impossible => impossible.elim

/-- A store whose memories have a given size. -/
def State.zeros (pages : Nat) : State where
  locals := fun _ => [.i32 0]
  globals := fun _ => [.i32 0]
  mems := fun _ => ⟨pages, fun _ => 0⟩
  segments := fun _ => [0]
  tables := fun _ => []

/-- One instruction applied to the values of its operands. -/
inductive Prim (R : Runtime) : Kind → List (List Val) → State → Res → State → Prop
  | const {l σ} : Prim R (.const l) [] σ (.done [[.num l]]) σ
  | nop {σ} : Prim R .nop [] σ (.done [[]]) σ
  | fence {σ} : Prim R .atomicFence [] σ (.done [[]]) σ
  | drop {vs σ} : Prim R .drop [vs] σ (.done [[]]) σ
  | unreachable {σ} : Prim R .unreachable [] σ (.stop .trap) σ
  | localGet {i ty σ} : Prim R (.localGet i ty) [] σ (.done [σ.locals i]) σ
  | localSet {i vs σ} : Prim R (.localSet i) [vs] σ (.done [[]]) (σ.setLocal i vs)
  | localTee {i ty vs σ} : Prim R (.localTee i ty) [vs] σ (.done [vs]) (σ.setLocal i vs)
  | globalGet {g ty σ} : Prim R (.globalGet g ty) [] σ (.done [σ.globals g]) σ
  | globalSet {g vs σ} : Prim R (.globalSet g) [vs] σ (.done [[]]) (σ.setGlobal g vs)
  | select {ty vs ws b σ} :
      Prim R (.select ty) [vs, ws, [.i32 b]] σ (.done [if b ≠ 0 then vs else ws]) σ
  | tupleMake {vss σ} : Prim R .tupleMake vss σ (.done [vss.flatten]) σ
  | tupleExtract {i vs v σ} (at_ : vs[i]? = some v) :
      Prim R (.tupleExtract i) [vs] σ (.done [[v]]) σ
  | refNull {ty σ} : Prim R (.refNull ty) [] σ (.done [[.nullRef]]) σ
  | refFunc {f ty σ} : Prim R (.refFunc f ty) [] σ (.done [[.funcRef f]]) σ
  | refIsNull {v σ} :
      Prim R .refIsNull [[v]] σ (.done [[.i32 (if v = .nullRef then 1 else 0)]]) σ
  -- a break without a condition has an absent, hence valueless, second operand
  | break_ {l vs σ} : Prim R (.break_ l) [vs, []] σ (.stop (.br l vs)) σ
  | breakIf {l vs b σ} (taken : b ≠ 0) :
      Prim R (.break_ l) [vs, [.i32 b]] σ (.stop (.br l vs)) σ
  | breakSkip {l vs b σ} (skipped : b = 0) :
      Prim R (.break_ l) [vs, [.i32 b]] σ (.done [vs]) σ
  | switch {ls d vs b σ} :
      Prim R (.switch ls d) [vs, [.i32 b]] σ (.stop (.br (ls.getD b.toNat d) vs)) σ
  | return_ {vs σ} : Prim R .return_ [vs] σ (.stop (.ret vs)) σ
  | throw {tag vss σ} : Prim R (.throw tag) vss σ (.stop (.exn tag vss.flatten)) σ
  | arith {op v w r σ} (known : arith op v w = some r) :
      Prim R (.binary op) [[v], [w]] σ r σ
  | compute {k vss vs σ} (pure : k.isPure)
      (foreign : ∀ op v w, k = .binary op → vss = [[v], [w]] → Binaryen.arith op v w = none)
      (value : R.compute k vss = some vs) : Prim R k vss σ (.done [vs]) σ
  | computeTrap {k vss σ} (pure : k.isPure)
      (foreign : ∀ op v w, k = .binary op → vss = [[v], [w]] → Binaryen.arith op v w = none)
      (value : R.compute k vss = none) : Prim R k vss σ (.stop .trap) σ
  | memorySize {mem is64 σ} :
      Prim R (.memorySize mem is64) [] σ (.done [[pagesVal is64 (σ.mems mem).pages]]) σ
  | memoryGrow {mem is64 v n σ} (delta : Val.index v = some n)
      (room : (σ.mems mem).pages + n ≤ if is64 then 2 ^ 48 else 2 ^ 16) :
      Prim R (.memoryGrow mem is64) [[v]] σ (.done [[pagesVal is64 (σ.mems mem).pages]])
        (σ.setMem mem { σ.mems mem with pages := (σ.mems mem).pages + n })
  | memoryGrowFail {mem is64 v σ} :
      Prim R (.memoryGrow mem is64) [[v]] σ
        (.done [[if is64 then .i64 (-1) else .i32 (-1)]]) σ
  | access {k a v base vss σ} (of : k.access = some a) (address : Val.index v = some base)
      (fits : a.Fits base (σ.mems a.mem).size) :
      Prim R k ([v] :: vss) σ (.done [(R.transfer k ([v] :: vss) (σ.mems a.mem).bytes).1])
        (σ.setMem a.mem { σ.mems a.mem with
          bytes := (R.transfer k ([v] :: vss) (σ.mems a.mem).bytes).2 })
  | accessTrap {k a v base vss σ} (of : k.access = some a) (address : Val.index v = some base)
      (outside : ¬ a.Fits base (σ.mems a.mem).size) :
      Prim R k ([v] :: vss) σ (.stop .trap) σ
  | memoryCopy {d s v w u dest source n σ} (hd : Val.index v = some dest)
      (hs : Val.index w = some source) (hn : Val.index u = some n)
      (fits : dest + n ≤ (σ.mems d).size ∧ source + n ≤ (σ.mems s).size) :
      Prim R (.memoryCopy d s) [[v], [w], [u]] σ (.done [[]])
        (σ.setMem d ((σ.mems d).write dest n fun i => (σ.mems s).bytes (source + i)))
  | memoryCopyTrap {d s v w u dest source n σ} (hd : Val.index v = some dest)
      (hs : Val.index w = some source) (hn : Val.index u = some n)
      (outside : ¬ (dest + n ≤ (σ.mems d).size ∧ source + n ≤ (σ.mems s).size)) :
      Prim R (.memoryCopy d s) [[v], [w], [u]] σ (.stop .trap) σ
  | memoryFill {m v b u dest n σ} (hd : Val.index v = some dest) (hn : Val.index u = some n)
      (fits : dest + n ≤ (σ.mems m).size) :
      Prim R (.memoryFill m) [[v], [.i32 b], [u]] σ (.done [[]])
        (σ.setMem m ((σ.mems m).write dest n fun _ => UInt8.ofNat b.toNat))
  | memoryFillTrap {m v b u dest n σ} (hd : Val.index v = some dest)
      (hn : Val.index u = some n) (outside : ¬ dest + n ≤ (σ.mems m).size) :
      Prim R (.memoryFill m) [[v], [.i32 b], [u]] σ (.stop .trap) σ
  | memoryInit {seg m v w u dest source n σ} (hd : Val.index v = some dest)
      (hs : Val.index w = some source) (hn : Val.index u = some n)
      (fits : dest + n ≤ (σ.mems m).size ∧ source + n ≤ (σ.segments seg).length) :
      Prim R (.memoryInit seg m) [[v], [w], [u]] σ (.done [[]])
        (σ.setMem m ((σ.mems m).write dest n fun i => (σ.segments seg).getD (source + i) 0))
  | memoryInitTrap {seg m v w u dest source n σ} (hd : Val.index v = some dest)
      (hs : Val.index w = some source) (hn : Val.index u = some n)
      (outside : ¬ (dest + n ≤ (σ.mems m).size ∧ source + n ≤ (σ.segments seg).length)) :
      Prim R (.memoryInit seg m) [[v], [w], [u]] σ (.stop .trap) σ
  | dataDrop {seg σ} : Prim R (.dataDrop seg) [] σ (.done [[]]) (σ.dropSegment seg)
  | host {k vss σ r σ'} (isHost : k.isHost) (run : R.host k vss σ r σ') :
      Prim R k vss σ r.res σ'

/-- Execution of one expression, or of a sequence of operands. -/
inductive Task where
  | one (e : Expr)
  | many (es : List Expr)

/-- The outcome of a block from the outcome of its children: the value of the last
one, or the branch that was aimed at it. -/
def Res.ofBlock (name : Option String) : Res → Res
  | .done vss => .done [vss.getLastD []]
  | .stop (.br l vs) => if name = some l then .done [vs] else .stop (.br l vs)
  | .stop a => .stop a

/-- The outcome goes back to the head of the loop with this name. -/
def Res.IsBackEdge (name : Option String) : Res → Prop
  | .stop (.br l _) => name = some l
  | _ => False

inductive Exec (R : Runtime) : Task → State → Res → State → Prop
  | null {σ} : Exec R (.one .null) σ (.done [[]]) σ
  | nil {σ} : Exec R (.many []) σ (.done []) σ
  | cons {e es σ vs σ₁ vss σ₂} (head : Exec R (.one e) σ (.done [vs]) σ₁)
      (tail : Exec R (.many es) σ₁ (.done vss) σ₂) :
      Exec R (.many (e :: es)) σ (.done (vs :: vss)) σ₂
  | consStop {e es σ a σ₁} (head : Exec R (.one e) σ (.stop a) σ₁) :
      Exec R (.many (e :: es)) σ (.stop a) σ₁
  | consStopTail {e es σ vs σ₁ a σ₂} (head : Exec R (.one e) σ (.done [vs]) σ₁)
      (tail : Exec R (.many es) σ₁ (.stop a) σ₂) : Exec R (.many (e :: es)) σ (.stop a) σ₂
  | strict {k cs σ vss σ₁ r σ₂} (isStrict : k.isStrict)
      (operands : Exec R (.many cs) σ (.done vss) σ₁) (act : Prim R k vss σ₁ r σ₂) :
      Exec R (.one (.node k cs)) σ r σ₂
  | strictStop {k cs σ a σ₁} (isStrict : k.isStrict)
      (operands : Exec R (.many cs) σ (.stop a) σ₁) :
      Exec R (.one (.node k cs)) σ (.stop a) σ₁
  | block {name ty cs σ r σ₁} (body : Exec R (.many cs) σ r σ₁) :
      Exec R (.one (.node (.block name ty) cs)) σ (r.ofBlock name) σ₁
  | ifTrue {c t f σ b σ₁ r σ₂} (cond : Exec R (.one c) σ (.done [[.i32 b]]) σ₁)
      (holds : b ≠ 0) (arm : Exec R (.one t) σ₁ r σ₂) :
      Exec R (.one (.node .if_ [c, t, f])) σ r σ₂
  | ifFalse {c t f σ b σ₁ r σ₂} (cond : Exec R (.one c) σ (.done [[.i32 b]]) σ₁)
      (fails : b = 0) (arm : Exec R (.one f) σ₁ r σ₂) :
      Exec R (.one (.node .if_ [c, t, f])) σ r σ₂
  | ifStop {c t f σ a σ₁} (cond : Exec R (.one c) σ (.stop a) σ₁) :
      Exec R (.one (.node .if_ [c, t, f])) σ (.stop a) σ₁
  | loop {name body σ r σ₁} (pass : Exec R (.one body) σ r σ₁) (leaves : ¬ r.IsBackEdge name) :
      Exec R (.one (.node (.loop name) [body])) σ r σ₁
  | loopBack {name body σ r σ₁ r' σ₂} (pass : Exec R (.one body) σ r σ₁)
      (back : r.IsBackEdge name)
      (again : Exec R (.one (.node (.loop name) [body])) σ₁ r' σ₂) :
      Exec R (.one (.node (.loop name) [body])) σ r' σ₂
  | control {k cs σ r σ'} (isControl : k.isControl) (run : R.control k cs σ r σ') :
      Exec R (.one (.node k cs)) σ r σ'

namespace Exec

variable {R : Runtime}

theorem many_nil_iff {σ σ' : State} {r : Res} :
    Exec R (.many []) σ r σ' ↔ r = .done [] ∧ σ' = σ := by
  constructor
  · intro h
    cases h
    exact ⟨rfl, rfl⟩
  · rintro ⟨rfl, rfl⟩
    exact .nil

theorem many_cons_done {e : Expr} {es : List Expr} {σ σ' : State} {vss : List (List Val)} :
    Exec R (.many (e :: es)) σ (.done vss) σ' ↔
      ∃ vs rest σ₁, vss = vs :: rest ∧ Exec R (.one e) σ (.done [vs]) σ₁ ∧
        Exec R (.many es) σ₁ (.done rest) σ' := by
  constructor
  · intro h
    cases h with
    | cons head tail => exact ⟨_, _, _, rfl, head, tail⟩
  · rintro ⟨vs, rest, σ₁, rfl, head, tail⟩
    exact .cons head tail

theorem many_cons_stop {e : Expr} {es : List Expr} {σ σ' : State} {a : Abrupt} :
    Exec R (.many (e :: es)) σ (.stop a) σ' ↔
      Exec R (.one e) σ (.stop a) σ' ∨
        ∃ vs σ₁, Exec R (.one e) σ (.done [vs]) σ₁ ∧ Exec R (.many es) σ₁ (.stop a) σ' := by
  constructor
  · intro h
    cases h with
    | consStop head => exact .inl head
    | consStopTail head tail => exact .inr ⟨_, _, head, tail⟩
  · rintro (head | ⟨vs, σ₁, head, tail⟩)
    · exact .consStop head
    · exact .consStopTail head tail

theorem many_append_done {es fs : List Expr} {σ σ' : State} {vss : List (List Val)} :
    Exec R (.many (es ++ fs)) σ (.done vss) σ' ↔
      ∃ us ws σ₁, vss = us ++ ws ∧ Exec R (.many es) σ (.done us) σ₁ ∧
        Exec R (.many fs) σ₁ (.done ws) σ' := by
  induction es generalizing σ vss with
  | nil =>
    constructor
    · intro run
      exact ⟨[], vss, σ, rfl, .nil, run⟩
    · rintro ⟨us, ws, σ₁, rfl, first, second⟩
      obtain ⟨equal, rfl⟩ := many_nil_iff.mp first
      cases equal
      exact second
  | cons e es ih =>
    rw [List.cons_append, many_cons_done]
    constructor
    · rintro ⟨vs, rest, σ₁, rfl, head, tail⟩
      obtain ⟨us, ws, σ₂, rfl, first, second⟩ := ih.mp tail
      exact ⟨vs :: us, ws, σ₂, rfl, .cons head first, second⟩
    · rintro ⟨us, ws, σ₂, rfl, first, second⟩
      obtain ⟨vs, rest, σ₁, rfl, head, tail⟩ := many_cons_done.mp first
      exact ⟨vs, rest ++ ws, σ₁, rfl, head, ih.mpr ⟨rest, ws, σ₂, rfl, tail, second⟩⟩

theorem many_append_stop {es fs : List Expr} {σ σ' : State} {a : Abrupt} :
    Exec R (.many (es ++ fs)) σ (.stop a) σ' ↔
      Exec R (.many es) σ (.stop a) σ' ∨
        ∃ us σ₁, Exec R (.many es) σ (.done us) σ₁ ∧ Exec R (.many fs) σ₁ (.stop a) σ' := by
  induction es generalizing σ with
  | nil =>
    constructor
    · intro run
      exact .inr ⟨[], σ, .nil, run⟩
    · rintro (first | ⟨us, σ₁, first, second⟩)
      · cases first
      · obtain ⟨_, rfl⟩ := many_nil_iff.mp first
        exact second
  | cons e es ih =>
    rw [List.cons_append, many_cons_stop]
    constructor
    · rintro (head | ⟨vs, σ₁, head, tail⟩)
      · exact .inl (.consStop head)
      · rcases ih.mp tail with first | ⟨us, σ₂, first, second⟩
        · exact .inl (.consStopTail head first)
        · exact .inr ⟨vs :: us, σ₂, .cons head first, second⟩
    · rintro (first | ⟨us, σ₂, first, second⟩)
      · rcases many_cons_stop.mp first with head | ⟨vs, σ₁, head, tail⟩
        · exact .inl head
        · exact .inr ⟨vs, σ₁, head, ih.mpr (.inl tail)⟩
      · obtain ⟨vs, rest, σ₁, rfl, head, tail⟩ := many_cons_done.mp first
        exact .inr ⟨vs, σ₁, head, ih.mpr (.inr ⟨rest, σ₂, tail, second⟩)⟩

/-- A strict node runs its operands and then its instruction. -/
theorem strict_iff {k : Kind} (isStrict : k.isStrict) {cs : List Expr} {σ σ' : State} {r : Res} :
    Exec R (.one (.node k cs)) σ r σ' ↔
      (∃ vss σ₁, Exec R (.many cs) σ (.done vss) σ₁ ∧ Prim R k vss σ₁ r σ') ∨
        ∃ a, r = .stop a ∧ Exec R (.many cs) σ (.stop a) σ' := by
  constructor
  · intro h
    cases h with
    | strict _ operands act => exact .inl ⟨_, _, operands, act⟩
    | strictStop _ operands => exact .inr ⟨_, rfl, operands⟩
    | control isControl _ => cases k <;> simp_all [Kind.isStrict, Kind.isControl]
    | block _ => simp [Kind.isStrict] at isStrict
    | ifTrue _ _ _ => simp [Kind.isStrict] at isStrict
    | ifFalse _ _ _ => simp [Kind.isStrict] at isStrict
    | ifStop _ => simp [Kind.isStrict] at isStrict
    | loop _ _ => simp [Kind.isStrict] at isStrict
    | loopBack _ _ _ => simp [Kind.isStrict] at isStrict
  · rintro (⟨vss, σ₁, operands, act⟩ | ⟨a, rfl, operands⟩)
    · exact .strict isStrict operands act
    · exact .strictStop isStrict operands

/-- Execution of a childless strict node is its instruction. -/
theorem leaf_iff {k : Kind} (isStrict : k.isStrict) {σ σ' : State} {r : Res} :
    Exec R (.one (.node k [])) σ r σ' ↔ Prim R k [] σ r σ' := by
  rw [strict_iff isStrict]
  constructor
  · rintro (⟨vss, σ₁, operands, act⟩ | ⟨a, rfl, operands⟩)
    · obtain ⟨equal, rfl⟩ := many_nil_iff.mp operands
      cases equal
      exact act
    · cases operands
  · intro act
    exact .inl ⟨[], σ, .nil, act⟩

theorem block_iff {name : Option String} {ty : Ty} {cs : List Expr} {σ σ' : State} {r : Res} :
    Exec R (.one (.node (.block name ty) cs)) σ r σ' ↔
      ∃ s, Exec R (.many cs) σ s σ' ∧ r = s.ofBlock name := by
  constructor
  · intro h
    cases h with
    | block body => exact ⟨_, body, rfl⟩
    | strict isStrict _ _ => simp [Kind.isStrict] at isStrict
    | strictStop isStrict _ => simp [Kind.isStrict] at isStrict
    | control isControl _ => simp [Kind.isControl] at isControl
  · rintro ⟨s, body, rfl⟩
    exact .block body

end Exec

end Swam.Binaryen
