import Swam.Rewriting
import Swam.SimpleExpr

/-!
# Recursive mutation

`wasmRecursiveMutate` nests structured instructions deeper. It walks each function body
breadth first and puts blocks, loops and `if`s around some of the structured
instructions it meets.
-/
namespace Swam

open Binaryen

def recurseMutationMax : Nat := 7

/-! ## The arm that is never taken -/

/-- Any value of a simplified type. -/
def dummyExpr (m : Module) (ty : ValTy) (r : Rand) : Option (Expr × Module × Rand) :=
  if ty = .externref then wasmGenerateOneSimpleExpr m (.refNull ty) [] r
  else if ty = .funcref then
    let (coin, r) := randBelow 2 r
    wasmGenerateOneSimpleExpr m (if coin ≠ 0 then .refNull ty else .refFunc) [] r
  else wasmGenerateOneSimpleExpr m (.const ty) [] r

def dummyExprs (m : Module) : List ValTy → Rand → Option (List Expr × Module × Rand)
  | [], r => some ([], m, r)
  | ty :: rest, r =>
    (dummyExpr m ty r).bind fun (e, m, r) =>
      (dummyExprs m rest r).map fun (es, m, r) => (e :: es, m, r)

/-- Several values make a tuple. -/
def tupleOf : List Expr → Expr
  | [e] => e
  | es => .node .tupleMake es

/-- An expression of a simplified type. Without room for the arrays of a value type
there is none. -/
def falseExpr (m : Module) (ty : Ty) (room : Bool) (r : Rand) :
    Option (Option Expr × Module × Rand) :=
  match ty with
  | .unreachable => some (some (.node .unreachable []), m, r)
  | .vals [] => some (some (.node .nop []), m, r)
  | .vals types =>
    if room then
      (dummyExprs m types r).map fun (exprs, m, r) => (some (tupleOf exprs), m, r)
    else some (none, m, r)

/-! ## The walk -/

/-- What the walk carries along. `stopped` is set where the source leaves for its end. -/
structure RecurseState where
  mod : Module
  body : Expr
  names : NameGroup
  rand : Rand
  curCnt : Nat
  stopped : Bool

def isStructured : Expr → Bool
  | .node (.block _ _) _ | .node (.loop _) _ | .node .if_ _ => true
  | _ => false

/-- Decide on a wrapper for a node. `room` tells whether the arrays that the next wrapper
needs can be allocated. -/
def chooseWrapper (room : Nat → Bool) (el : Expr) (st : RecurseState) :
    Option (Option Wrapper × RecurseState) :=
  if isStructured el then
    let (coin, r) := randBelow 8 st.rand
    if coin = 0 then
      let (wrapper, r) := randBelow 3 r
      if wrapper = 0 ∨ wrapper = 1 then
        let (label, names) := wasmFindAvailableName st.names
        some (some (if wrapper = 0 then .block label el.ty else .loop label),
          { st with names, rand := r })
      else
        (falseExpr st.mod (wasmSimplifyType el.ty) (room st.curCnt) r).map fun (arm, mod, r) =>
          (arm.map .ifOne, { st with mod, rand := r, stopped := arm.isNone })
    else some (none, { st with rand := r })
  else some (none, st)

/-- A node waiting for its turn: its place in the body, and the node itself, which does
not change before. -/
structure Queued where
  path : List Nat
  el : Expr

/-- The loop over the children of the node at `path`, from position `ind` on. The answer
lists what it appends to the queue. -/
def visitChildren (room : Nat → Bool) (path : List Nat) :
    List Expr → Nat → RecurseState → Option (List Queued × RecurseState)
  | [], _, st => some ([], st)
  | child :: rest, ind, st =>
    if child.isNull then visitChildren room path rest (ind + 1) st
    else
      (chooseWrapper room child st).bind fun (wrapper, st) =>
        if st.stopped then some ([], st)
        else
          match wrapper with
          | none =>
            (visitChildren room path rest (ind + 1) st).map fun (queued, st) =>
              (⟨path ++ [ind], child⟩ :: queued, st)
          | some w =>
            let body := st.body.modifyAt path (wasmSetChildrenExpr · (w.wrap child) ind)
            (visitChildren room path rest (ind + 1)
              { st with body, curCnt := st.curCnt + 1 }).map fun (queued, st) =>
              (⟨path ++ [ind, w.position], child⟩ :: queued, st)

/-- Number of nodes still to be visited. -/
def queueSize (queue : List Queued) : Nat := (queue.map (·.el.size)).sum

theorem queueSize_visitChildren {room : Nat → Bool} {path : List Nat} {children : List Expr}
    {ind : Nat} {st st' : RecurseState} {queued : List Queued}
    (visited : visitChildren room path children ind st = some (queued, st')) :
    queueSize queued ≤ (children.map Expr.size).sum := by
  induction children generalizing ind st st' queued with
  | nil =>
    cases visited
    exact Nat.le_refl _
  | cons child rest ih =>
    simp only [visitChildren] at visited
    split at visited
    · have := ih visited
      simp only [List.map_cons, List.sum_cons]
      omega
    · simp only [Option.bind_eq_some_iff, Prod.exists] at visited
      obtain ⟨wrapper, st₁, _, visited⟩ := visited
      split at visited
      · cases visited
        exact Nat.zero_le _
      · cases wrapper with
        | none =>
          simp only [Option.map_eq_some_iff, Prod.exists, Prod.mk.injEq] at visited
          obtain ⟨more, _, visited, rfl, _⟩ := visited
          have := ih visited
          simp only [queueSize, List.map_cons, List.sum_cons] at this ⊢
          omega
        | some w =>
          simp only [Option.map_eq_some_iff, Prod.exists, Prod.mk.injEq] at visited
          obtain ⟨more, _, visited, rfl, _⟩ := visited
          have := ih visited
          simp only [queueSize, List.map_cons, List.sum_cons] at this ⊢
          omega

theorem size_children (e : Expr) : ((wasmGetChildrenExpr e).map Expr.size).sum ≤ e.size - 1 := by
  cases e with
  | null => exact Nat.le_refl _
  | node k cs =>
    simp only [wasmGetChildrenExpr]
    split
    · rw [Expr.size, Expr.nodes_node, List.length_cons, List.length_flatMap, Nat.add_sub_cancel]
      exact Nat.le_refl _
    · exact Nat.zero_le _

/-- The loop over the queue. -/
def walk (room : Nat → Bool) (maxCnt : Nat) (queue : List Queued) (st : RecurseState) :
    Option RecurseState :=
  match queue with
  | [] => some st
  | ⟨path, el⟩ :: rest =>
    match _visited : visitChildren room path (wasmGetChildrenExpr el) 0 st with
    | none => none
    | some (queued, st) =>
      if st.stopped then some st
      else if st.curCnt ≥ maxCnt then some { st with stopped := true }
      else walk room maxCnt (rest ++ queued) st
termination_by (queueSize queue, queue.length)
decreasing_by
  cases el with
  | null =>
    cases _visited
    simp [queueSize, Prod.lex_def, Expr.size]
  | node k cs =>
    have bound := queueSize_visitChildren _visited
    have children := size_children (.node k cs)
    have positive : 0 < (Expr.node k cs).size := by simp [Expr.size, Expr.nodes_node]
    apply Prod.Lex.left
    simp only [queueSize, List.map_append, List.sum_append, List.map_cons, List.sum_cons] at bound ⊢
    omega

/-- The mutation of one function body: the root first, then the walk. -/
def mutateBody (room : Nat → Bool) (maxCnt : Nat) (st : RecurseState) : Option RecurseState :=
  let root := st.body
  (chooseWrapper room root st).bind fun (wrapper, st) =>
    if st.stopped then some st
    else
      match wrapper with
      | none => walk room maxCnt [⟨[], root⟩] st
      | some w =>
        walk room maxCnt [⟨[w.position], root⟩]
          { st with body := w.wrap root, curCnt := st.curCnt + 1 }

/-- The loop over the functions. -/
def mutateFunctions (room : Nat → Bool) (maxCnt : Nat) :
    List Nat → Module → NameGroup → Rand → Nat → Option (Nat × Module × NameGroup × Rand)
  | [], m, names, r, curCnt => some (curCnt, m, names, r)
  | idx :: rest, m, names, r, curCnt =>
    m.functions[idx]?.bind fun func =>
      if func.body.isNull then mutateFunctions room maxCnt rest m names r curCnt
      else
        (mutateBody room maxCnt ⟨m, func.body, names, r, curCnt, false⟩).bind fun st =>
          let m := st.mod.setBody idx st.body
          if st.stopped then some (st.curCnt, m, st.names, st.rand)
          else mutateFunctions room maxCnt rest m st.names st.rand st.curCnt

/-- The mutated module and the number of wrappers. `shuffle` and `room` tell which
allocations succeed; functions are visited in index order without the first. -/
def wasmRecursiveMutate (shuffle : Bool) (room : Nat → Bool) (m : Module) (names : NameGroup)
    (r : Rand) : Option (Nat × Module × NameGroup × Rand) :=
  let (extra, r) := randBelow recurseMutationMax r
  let indices := List.range m.functions.length
  let (funcShuffle, r) := if shuffle then fisherYatesShuffle indices r else (indices, r)
  mutateFunctions room (extra + 1) funcShuffle m names r 0

end Swam
