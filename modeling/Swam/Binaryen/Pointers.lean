import Swam.Binaryen.Syntax

/-!
# Expressions in memory

The mutators change nodes in place and hold on to references while they do so. An `ExprRef`
is a reference together with everything that can be reached from it, each node with its
address. A node that can be reached in two ways occurs twice with one address, and a write
goes to every occurrence.
-/
namespace Swam.Binaryen

/-- `BinaryenExpressionRef`. -/
inductive ExprRef where
  | null
  | node (addr : Nat) (kind : Kind) (children : List ExprRef)
  deriving Repr

namespace ExprRef

/-- Structural induction with one hypothesis for all children. -/
@[induction_eliminator]
theorem induct {P : ExprRef → Prop} (null : P .null)
    (node : ∀ a k cs, (∀ c ∈ cs, P c) → P (.node a k cs)) (e : ExprRef) : P e := by
  refine @ExprRef.rec P (fun cs => ∀ c ∈ cs, P c) null node ?_ ?_ e
  · simp
  · intro c cs head tail d member
    rcases List.mem_cons.mp member with rfl | rest
    · exact head
    · exact tail d rest

def addr? : ExprRef → Option Nat
  | .null => none
  | .node a _ _ => some a

def children : ExprRef → List ExprRef
  | .null => []
  | .node _ _ cs => cs

mutual
/-- The expression without the addresses. -/
def expr : ExprRef → Expr
  | .null => .null
  | .node _ k cs => .node k (exprs cs)

def exprs : List ExprRef → List Expr
  | [] => []
  | c :: cs => expr c :: exprs cs
end

mutual
/-- The addresses of all nodes, parents first. -/
def addrs : ExprRef → List Nat
  | .null => []
  | .node a _ cs => a :: addrsAll cs

def addrsAll : List ExprRef → List Nat
  | [] => []
  | c :: cs => addrs c ++ addrsAll cs
end

mutual
/-- The node at an address. -/
def find? (target : Nat) : ExprRef → Option ExprRef
  | .null => none
  | .node a k cs => if a = target then some (.node a k cs) else findAll? target cs

def findAll? (target : Nat) : List ExprRef → Option ExprRef
  | [] => none
  | c :: cs => (find? target c).or (findAll? target cs)
end

mutual
/-- Every node has the property. -/
def Everywhere (P : Kind → List ExprRef → Prop) : ExprRef → Prop
  | .null => True
  | .node _ k cs => P k cs ∧ EverywhereAll P cs

def EverywhereAll (P : Kind → List ExprRef → Prop) : List ExprRef → Prop
  | [] => True
  | c :: cs => Everywhere P c ∧ EverywhereAll P cs
end

/-- A change of what is stored in a node. -/
abbrev Write := Kind → List ExprRef → Kind × List ExprRef

mutual
/-- Change the node at an address wherever it occurs. -/
def write (target : Nat) (change : Write) : ExprRef → ExprRef
  | .null => .null
  | .node a k cs =>
    if a = target then .node a (change k cs).1 (change k cs).2
    else .node a k (writeAll target change cs)

def writeAll (target : Nat) (change : Write) : List ExprRef → List ExprRef
  | [] => []
  | c :: cs => write target change c :: writeAll target change cs
end

mutual
/-- A copy of an expression at the addresses from `next` on, and the next free address. -/
def place : Expr → Nat → ExprRef × Nat
  | .null, next => (.null, next)
  | .node k cs, next =>
    let placed := placeAll cs (next + 1)
    (.node next k placed.1, placed.2)

def placeAll : List Expr → Nat → List ExprRef × Nat
  | [], next => ([], next)
  | c :: cs, next =>
    let first := place c next
    let rest := placeAll cs first.2
    (first.1 :: rest.1, rest.2)
end

end ExprRef

end Swam.Binaryen
