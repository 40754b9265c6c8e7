import Swam.Binaryen.Ops

/-!
# Binaryen IR

An expression is a node of some kind with an ordered list of children. `null`
stands for an absent child (the else arm of an `if`, the value of a `break`) and
for the `NULL` an API call may return. Children are listed in the order in which
they are evaluated.
-/
namespace Swam.Binaryen

inductive Literal where
  | i32 (bits : BitVec 32)
  | i64 (bits : BitVec 64)
  | f32 (bits : BitVec 32)
  | f64 (bits : BitVec 64)
  | v128 (bits : BitVec 128)
  deriving DecidableEq, Repr

def Literal.ty : Literal → ValTy
  | .i32 _ => .i32
  | .i64 _ => .i64
  | .f32 _ => .f32
  | .f64 _ => .f64
  | .v128 _ => .v128

inductive RmwOp where
  | add | sub | and | or | xor | xchg
  deriving DecidableEq, Repr

/-- Expression kinds with their immediates. Atomic loads and stores are loads and
stores carrying a flag; `other` collects the kinds of proposals that no module
in use here enables. -/
inductive Kind where
  | block (name : Option String) (ty : Ty)
  | if_
  | loop (name : Option String)
  | break_ (target : String)
  | switch (targets : List String) (fallback : String)
  | call (target : String) (ty : Ty)
  | callIndirect (table : String) (params results : Ty)
  | localGet (index : Nat) (ty : Ty)
  | localSet (index : Nat)
  | localTee (index : Nat) (ty : Ty)
  | globalGet (name : String) (ty : Ty)
  | globalSet (name : String)
  | load (bytes : Nat) (signed : Bool) (offset align : Nat) (ty : ValTy) (atomic : Bool)
      (mem : String)
  | store (bytes offset align : Nat) (ty : ValTy) (atomic : Bool) (mem : String)
  | const (value : Literal)
  | unary (op : Op)
  | binary (op : Op)
  | select (ty : Ty)
  | drop
  | return_
  | memorySize (mem : String) (is64 : Bool)
  | memoryGrow (mem : String) (is64 : Bool)
  | nop
  | unreachable
  | atomicRMW (op : RmwOp) (bytes offset : Nat) (ty : ValTy) (mem : String)
  | atomicCmpxchg (bytes offset : Nat) (ty : ValTy) (mem : String)
  | atomicWait (offset : Nat) (ty : ValTy) (mem : String)
  | atomicNotify (offset : Nat) (mem : String)
  | atomicFence
  | simdExtract (op : Op) (lane : Nat)
  | simdReplace (op : Op) (lane : Nat)
  | simdShuffle (mask : List Nat)
  | simdTernary (op : Op)
  | simdShift (op : Op)
  | simdLoad (op : Op) (offset align : Nat) (mem : String)
  | simdLoadStoreLane (op : Op) (offset align lane : Nat) (mem : String)
  | memoryInit (segment mem : String)
  | dataDrop (segment : String)
  | memoryCopy (dest source : String)
  | memoryFill (mem : String)
  | refNull (ty : ValTy)
  | refIsNull
  | refFunc (func : String) (ty : ValTy)
  | tableGet (table : String) (ty : ValTy)
  | tableSet (table : String)
  | tableSize (table : String)
  | tableGrow (table : String)
  | tupleMake
  | tupleExtract (index : Nat)
  | try_ (name : Option String) (ty : Ty) (tags : List String) (delegate : Option String)
  | throw (tag : String)
  | rethrow (target : String)
  | pop (ty : Ty)
  | other (id : Nat) (ty : Ty)
  deriving DecidableEq, Repr

inductive Expr where
  | null
  | node (kind : Kind) (children : List Expr)
  deriving Repr

namespace Expr

/-- Structural induction with one hypothesis for all children. -/
@[induction_eliminator]
theorem induct {P : Expr → Prop} (null : P .null)
    (node : ∀ k cs, (∀ c ∈ cs, P c) → P (.node k cs)) (e : Expr) : P e := by
  refine @Expr.rec P (fun cs => ∀ c ∈ cs, P c) null node ?_ ?_ e
  · simp
  · intro c cs hc hcs d member
    rcases List.mem_cons.mp member with rfl | rest
    · exact hc
    · exact hcs d rest

def isNull : Expr → Bool
  | .null => true
  | .node _ _ => false

mutual
/-- All nodes of an expression, parents first. -/
def nodes : Expr → List Expr
  | .null => []
  | .node k cs => .node k cs :: nodesAll cs

def nodesAll : List Expr → List Expr
  | [] => []
  | c :: cs => nodes c ++ nodesAll cs
end

theorem nodesAll_eq (cs : List Expr) : nodesAll cs = cs.flatMap nodes := by
  induction cs with
  | nil => rfl
  | cons c cs ih => simp [nodesAll, ih]

@[simp] theorem nodes_null : nodes .null = [] := rfl

theorem nodes_node (k : Kind) (cs : List Expr) :
    nodes (.node k cs) = .node k cs :: cs.flatMap nodes := by
  simp [nodes, nodesAll_eq]

/-- Number of nodes. -/
def size (e : Expr) : Nat := e.nodes.length

def children : Expr → List Expr
  | .null => []
  | .node _ cs => cs

/-- The expression at a path of child positions. -/
def at? : Expr → List Nat → Option Expr
  | e, [] => some e
  | .null, _ :: _ => none
  | .node _ cs, i :: path => cs[i]?.bind (at? · path)

/-- Change the expression at a path, if the path leads anywhere. -/
def modifyAt : Expr → List Nat → (Expr → Expr) → Expr
  | e, [], f => f e
  | .null, _ :: _, _ => .null
  | .node k cs, i :: path, f => .node k (cs.modify i (modifyAt · path f))

end Expr

/-- Labels a node introduces. A `try` label is a target of `delegate` and
`rethrow` only. -/
def Kind.labels : Kind → List String
  | .block (some name) _ => [name]
  | .loop (some name) => [name]
  | .try_ (some name) _ _ _ => [name]
  | _ => []

/-- Labels a node refers to. -/
def Kind.targets : Kind → List String
  | .break_ target => [target]
  | .switch targets fallback => fallback :: targets
  | .try_ _ _ _ (some target) => [target]
  | .rethrow target => [target]
  | _ => []

namespace Expr

def ownLabels : Expr → List String
  | .null => []
  | .node k _ => k.labels

def ownTargets : Expr → List String
  | .null => []
  | .node k _ => k.targets

/-- Labels bound anywhere in an expression. -/
def labels (e : Expr) : List String := e.nodes.flatMap ownLabels

/-- Labels referred to anywhere in an expression. -/
def targets (e : Expr) : List String := e.nodes.flatMap ownTargets

@[simp] theorem labels_null : labels .null = [] := rfl

@[simp] theorem targets_null : targets .null = [] := rfl

theorem labels_node (k : Kind) (cs : List Expr) :
    labels (.node k cs) = k.labels ++ cs.flatMap labels := by
  simp only [labels, nodes_node, List.flatMap_cons, List.flatMap_assoc]
  rfl

theorem targets_node (k : Kind) (cs : List Expr) :
    targets (.node k cs) = k.targets ++ cs.flatMap targets := by
  simp only [targets, nodes_node, List.flatMap_cons, List.flatMap_assoc]
  rfl

end Expr

namespace Expr

theorem at?_append (e : Expr) (p q : List Nat) : e.at? (p ++ q) = (e.at? p).bind (at? · q) := by
  induction p generalizing e with
  | nil => simp [at?]
  | cons i p ih =>
    cases e with
    | null => rfl
    | node k cs =>
      simp only [List.cons_append, at?]
      cases cs[i]? with
      | none => rfl
      | some c => exact ih c

theorem at?_child {root e : Expr} {k : Kind} {cs : List Expr} {path : List Nat} {i : Nat}
    (here : root.at? path = some (.node k cs)) (child : cs[i]? = some e) :
    root.at? (path ++ [i]) = some e := by
  simp [at?_append, here, at?, child]

theorem mem_nodes_self (k : Kind) (cs : List Expr) : .node k cs ∈ nodes (.node k cs) := by
  simp [nodes_node]

theorem mem_nodes_child {x c : Expr} {k : Kind} {cs : List Expr} (member : c ∈ cs)
    (inside : x ∈ c.nodes) : x ∈ nodes (.node k cs) := by
  simp only [nodes_node, List.mem_cons, List.mem_flatMap]
  exact .inr ⟨c, member, inside⟩

/-- What is put at a path is among the nodes of the whole. -/
theorem mem_nodes_modifyAt {e x y : Expr} {path : List Nat} {f : Expr → Expr}
    (here : e.at? path = some x) (inside : y ∈ (f x).nodes) : y ∈ (e.modifyAt path f).nodes := by
  induction path generalizing e with
  | nil =>
    cases here
    simpa [modifyAt] using inside
  | cons i path ih =>
    cases e with
    | null => cases here
    | node k cs =>
      simp only [at?, Option.bind_eq_some_iff] at here
      obtain ⟨c, child, here⟩ := here
      refine mem_nodes_child ?_ (ih here)
      refine List.mem_of_getElem? (i := i) ?_
      simp [child]

end Expr

end Swam.Binaryen
