import Swam.Admissible

/-!
# The probes that failed attempts leave

Every attempt of an instantiation changes the module it is given, and what a rejected
attempt has put there stays for the next one. A module that is accepted therefore
carries one probe for each module that was submitted for validation.
-/
namespace Swam

open Binaryen

def Binaryen.Module.bodies (m : Module) : List Expr := m.functions.map (·.body)

/-- One body gained a probe of the scenario. -/
def ProbeInserted (env : ExploitEnv) (s : SwamScenario) (memName : String) (is64 : Bool)
    (bs bs' : List Expr) : Prop :=
  ∃ m addrLocal idx b b', bs[idx]? = some b ∧
    ProbePlaced env (swamBuildProbe m (some s) addrLocal memName is64).2 b b' ∧
    bs' = bs.set idx b'

/-- The modules `ms` submitted for validation from `m` on, each with one probe more than
the one before, of which the last is accepted. -/
structure Submitted (env : ExploitEnv) (s : SwamScenario) (memName : String) (is64 : Bool)
    (m : Module) (ms : List Module) (m' : Module) : Prop where
  chain : (m :: ms).IsChain fun a b => ProbeInserted env s memName is64 a.bodies b.bodies
  last : ms.getLast? = some m'
  rejected : ∀ x ∈ ms.dropLast, env.validate x = false
  accepted : env.validate m' = true

/-! ## Counting probes -/

/-- A store that marks a probe as entered. -/
def setsMarkerBefore : Expr → Bool
  | .node (.globalSet name) _ => name = swamMarkerBefore
  | _ => false

def markersBefore (e : Expr) : Nat := e.nodes.countP setsMarkerBefore

def markersBeforeAll (bs : List Expr) : Nat := (bs.map markersBefore).sum

theorem markersBefore_node (k : Kind) (cs : List Expr) :
    markersBefore (.node k cs) =
      markersBeforeAll cs + if setsMarkerBefore (.node k cs) then 1 else 0 := by
  have children : (cs.flatMap Expr.nodes).countP setsMarkerBefore = markersBeforeAll cs := by
    simp only [List.countP_flatMap, markersBeforeAll]
    rfl
  rw [markersBefore, Expr.nodes_node, List.countP_cons, children]

/-- The store itself, not its operands, is what counts. -/
theorem setsMarkerBefore_children (k : Kind) (cs cs' : List Expr) :
    setsMarkerBefore (.node k cs) = setsMarkerBefore (.node k cs') := by
  cases k <;> rfl

theorem markersBeforeAll_set {bs : List Expr} {i : Nat} {b b' : Expr} {n : Nat}
    (at_ : bs[i]? = some b) (more : markersBefore b' = markersBefore b + n) :
    markersBeforeAll (bs.set i b') = markersBeforeAll bs + n := by
  induction bs generalizing i with
  | nil => simp at at_
  | cons first rest ih =>
    cases i with
    | zero =>
      simp only [List.getElem?_cons_zero, Option.some.injEq] at at_
      subst at_
      simp only [markersBeforeAll, List.set_cons_zero, List.map_cons, List.sum_cons, more]
      omega
    | succ i =>
      have := ih (by simpa using at_)
      simp only [markersBeforeAll, List.set_cons_succ, List.map_cons, List.sum_cons] at this ⊢
      omega

theorem markersBefore_modifyAt {e x : Expr} {path : List Nat} {f : Expr → Expr} {n : Nat}
    (here : e.at? path = some x) (more : markersBefore (f x) = markersBefore x + n) :
    markersBefore (e.modifyAt path f) = markersBefore e + n := by
  induction path generalizing e with
  | nil =>
    simp only [Expr.at?, Option.some.injEq] at here
    subst here
    exact more
  | cons i path ih =>
    cases e with
    | null => simp [Expr.at?] at here
    | node k cs =>
      simp only [Expr.at?, Option.bind_eq_some_iff] at here
      obtain ⟨c, at_, here⟩ := here
      have child : cs.modify i (Expr.modifyAt · path f) = cs.set i (c.modifyAt path f) := by
        rw [List.modify_eq_set_getElem?, at_]
        rfl
      rw [Expr.modifyAt, child, markersBefore_node, markersBefore_node,
        markersBeforeAll_set at_ (ih here), setsMarkerBefore_children k _ cs]
      omega

theorem markersBeforeAll_insertIdx {cs : List Expr} {pos : Nat} (probe : Expr)
    (inside : pos ≤ cs.length) :
    markersBeforeAll (cs.insertIdx pos probe) = markersBeforeAll cs + markersBefore probe := by
  have moved : (cs.insertIdx pos probe).Perm (probe :: cs) := List.perm_insertIdx probe cs inside
  rw [markersBeforeAll, (moved.map markersBefore).sum_nat]
  simp [markersBeforeAll, Nat.add_comm]

theorem markersBefore_placed {env : ExploitEnv} {probe b b' : Expr}
    (placed : ProbePlaced env probe b b') :
    markersBefore b' = markersBefore b + markersBefore probe := by
  cases placed with
  | inBlock block inside =>
    refine markersBefore_modifyAt block ?_
    unfold insertChild binaryenExpressionFinalize
    rw [markersBefore_node, markersBefore_node, markersBeforeAll_insertIdx probe inside]
    simp [setsMarkerBefore, Kind.retype]
  | wrapped =>
    rw [markersBefore_node]
    simp [setsMarkerBefore, markersBeforeAll, Nat.add_comm]

/-! ## What one attempt leaves -/

section Probe

variable (s : SwamScenario) (memName : String) (is64 : Bool)

private theorem markersBefore_indexConst (value : Int) :
    markersBefore (swamMakeIndexConst value is64) = 0 := by
  cases is64 <;> rfl

private theorem markersBefore_baseAddress :
    markersBefore (swamBuildBaseAddress (some s) memName is64) = 0 := by
  have bytes : markersBefore (swamBuildMemoryBytes memName is64) = 0 := by cases is64 <;> rfl
  unfold swamBuildBaseAddress
  dsimp only
  repeat' split
  all_goals simp [markersBefore_node, markersBeforeAll, setsMarkerBefore,
    markersBefore_indexConst, bytes, swamMakeI32Const]

private theorem markersBefore_targetOp (addrLocal : Nat) :
    markersBefore (swamBuildTargetOp (some s) addrLocal memName is64) = 0 := by
  have dummy : markersBefore (swamMakeDummyValue s.valueType) = 0 := by
    cases s.valueType <;> rfl
  unfold swamBuildTargetOp
  dsimp only
  repeat' split
  all_goals simp [markersBefore_node, markersBeforeAll, setsMarkerBefore,
    markersBefore_indexConst, dummy, swamMakeI32Const, swamMakeV128Const]

/-- A probe marks its entry once. -/
theorem markersBefore_probe (m : Module) (addrLocal : Nat) :
    markersBefore (swamBuildProbe m (some s) addrLocal memName is64).2 = 1 := by
  simp [swamBuildProbe, markersBefore_node, markersBeforeAll, setsMarkerBefore,
    markersBefore_baseAddress, markersBefore_targetOp, swamBuildMarkerSet, swamMakeI32Const,
    swamMarkerBefore, swamMarkerAfter]

end Probe

theorem ProbeInserted.markers {env : ExploitEnv} {s : SwamScenario} {memName : String}
    {is64 : Bool} {bs bs' : List Expr} (inserted : ProbeInserted env s memName is64 bs bs') :
    markersBeforeAll bs' = markersBeforeAll bs + 1 := by
  obtain ⟨m, addrLocal, idx, b, b', at_, placed, rfl⟩ := inserted
  refine markersBeforeAll_set at_ ?_
  rw [markersBefore_placed placed, markersBefore_probe]

section Attempts

variable {env : ExploitEnv} {reached : Nat} {s : SwamScenario} {memName : String} {is64 : Bool}

end Attempts

/-- The probes of the accepted module are counted by the modules submitted. -/
theorem Submitted.markers {env : ExploitEnv} {s : SwamScenario} {memName : String} {is64 : Bool}
    {m m' : Module} {ms : List Module} (submitted : Submitted env s memName is64 m ms m') :
    markersBeforeAll m'.bodies = markersBeforeAll m.bodies + ms.length := by
  obtain ⟨chain, last, -, -⟩ := submitted
  induction ms generalizing m with
  | nil => cases last
  | cons next rest ih =>
    have ⟨first, chain⟩ := List.isChain_cons_cons.mp chain
    cases rest with
    | nil =>
      cases last
      exact first.markers
    | cons after rest =>
      have one := first.markers
      have more := ih chain (by simpa using last)
      simp only [List.length_cons] at more ⊢
      omega

end Swam
