import Mathlib.Data.List.Forall2
import Swam.Binaryen.Evaluation

/-!
# Equivalent expressions

Two expressions are equivalent when they have the same executions under every runtime
and from every state. Equivalence is a congruence of the kinds whose execution is a
function of the executions of their children.
-/
namespace Swam.Binaryen

section Outcomes

variable {R : Runtime}

theorem Prim.done_single {k : Kind} {vss wss : List (List Val)} {σ σ' : State}
    (act : Prim R k vss σ (.done wss) σ') : ∃ ws, wss = [ws] := by
  generalize outcome : Res.done wss = r at act
  cases act with
  | arith known =>
    subst outcome
    unfold Binaryen.arith at known
    split at known <;> (try split at known) <;> cases known <;> exact ⟨_, rfl⟩
  | host _ _ =>
    rename_i result _ _
    cases result <;> cases outcome
    exact ⟨_, rfl⟩
  | _ => cases outcome <;> exact ⟨_, rfl⟩

theorem Prim.br_mem_targets {k : Kind} {vss : List (List Val)} {σ σ' : State} {l : String}
    {vs : List Val} (act : Prim R k vss σ (.stop (.br l vs)) σ') : l ∈ k.targets := by
  generalize outcome : Res.stop (.br l vs) = r at act
  cases act with
  | arith known =>
    subst outcome
    unfold Binaryen.arith at known
    split at known <;> (try split at known) <;> cases known
  | host _ _ =>
    rename_i result _ _
    cases result <;> cases outcome
  | @switch ls d ws b =>
    cases outcome
    simp only [Kind.targets, List.mem_cons, List.getD_eq_getElem?_getD]
    cases found : ls[b.toNat]? with
    | none => exact .inl rfl
    | some target => exact .inr (List.mem_of_getElem? found)
  | _ => cases outcome <;> simp [Kind.targets]

/-- What is known of the outcome of a task: one expression has one list of values, and a
branch goes to a label that is referred to. -/
def Task.Bounds : Task → Res → Prop
  | .one _, .done vss => ∃ vs, vss = [vs]
  | .one e, .stop (.br l _) => l ∈ e.targets
  | .many es, .stop (.br l _) => l ∈ es.flatMap Expr.targets
  | _, _ => True

theorem Task.Bounds.child {c : Expr} {k : Kind} {cs : List Expr} {a : Abrupt} (member : c ∈ cs)
    (bounds : (Task.one c).Bounds (.stop a)) : (Task.one (.node k cs)).Bounds (.stop a) := by
  cases a with
  | br l vs =>
    simp only [Task.Bounds, Expr.targets_node, List.mem_append, List.mem_flatMap] at bounds ⊢
    exact .inr ⟨c, member, bounds⟩
  | _ => trivial

theorem Task.Bounds.arm {c : Expr} {k : Kind} {cs : List Expr} {r : Res} (member : c ∈ cs)
    (bounds : (Task.one c).Bounds r) : (Task.one (.node k cs)).Bounds r := by
  cases r with
  | done vss => exact bounds
  | stop a => exact bounds.child member

theorem Task.Bounds.children {k : Kind} {cs : List Expr} {a : Abrupt}
    (bounds : (Task.many cs).Bounds (.stop a)) : (Task.one (.node k cs)).Bounds (.stop a) := by
  cases a with
  | br l vs =>
    simp only [Task.Bounds, Expr.targets_node, List.mem_append] at bounds ⊢
    exact .inr bounds
  | _ => trivial

theorem Exec.bounds {t : Task} {σ σ' : State} {r : Res} (run : Exec R t σ r σ') : t.Bounds r := by
  induction run with
  | null => exact ⟨_, rfl⟩
  | nil => trivial
  | cons _ _ _ _ => trivial
  | @consStop e es _ a _ _ ih =>
    cases a with
    | br l vs => exact List.mem_flatMap.mpr ⟨e, List.mem_cons_self, ih⟩
    | _ => trivial
  | @consStopTail e es _ _ _ a _ _ _ _ ih =>
    cases a with
    | br l vs => exact List.mem_append_right _ ih
    | _ => trivial
  | @strict k cs _ _ _ r _ _ _ act _ =>
    cases r with
    | done vss => exact act.done_single
    | stop a =>
      cases a with
      | br l vs =>
        simp only [Task.Bounds, Expr.targets_node, List.mem_append]
        exact .inl act.br_mem_targets
      | _ => trivial
  | strictStop _ _ ih => exact ih.children
  | @block name _ cs _ r _ _ ih =>
    cases r with
    | done vss => exact ⟨_, rfl⟩
    | stop a =>
      cases a with
      | br l vs =>
        simp only [Res.ofBlock]
        split
        · exact ⟨_, rfl⟩
        · exact ih.children
      | _ => trivial
  | ifTrue _ _ _ _ ih => exact ih.arm (by simp)
  | ifFalse _ _ _ _ ih => exact ih.arm (by simp)
  | ifStop _ ih => exact ih.child (by simp)
  | loop _ _ ih => exact ih.arm (by simp)
  | loopBack _ _ _ _ ih => exact ih
  | @control k cs _ r _ _ run =>
    cases r with
    | done vss => exact R.control_done run
    | stop a =>
      cases a with
      | br l vs => exact R.control_br run
      | _ => trivial

/-- A sequence of one expression is that expression. -/
theorem Exec.many_single_iff {e : Expr} {σ σ' : State} {r : Res} :
    Exec R (.many [e]) σ r σ' ↔ Exec R (.one e) σ r σ' := by
  constructor
  · intro run
    cases run with
    | cons head tail =>
      cases tail
      exact head
    | consStop head => exact head
    | consStopTail _ tail => cases tail
  · intro run
    cases r with
    | done vss =>
      obtain ⟨vs, rfl⟩ := run.bounds
      exact .cons run .nil
    | stop a => exact .consStop run

end Outcomes

/-- The same executions, under every runtime and from every state. -/
def Equivalent (e e' : Expr) : Prop :=
  ∀ (R : Runtime) (σ : State) (r : Res) (σ' : State),
    Exec R (.one e) σ r σ' ↔ Exec R (.one e') σ r σ'

namespace Equivalent

theorem refl (e : Expr) : Equivalent e e := fun _ _ _ _ => Iff.rfl

theorem symm {e e' : Expr} (h : Equivalent e e') : Equivalent e' e :=
  fun R σ r σ' => (h R σ r σ').symm

theorem trans {e e' e'' : Expr} (h : Equivalent e e') (h' : Equivalent e' e'') :
    Equivalent e e'' :=
  fun R σ r σ' => (h R σ r σ').trans (h' R σ r σ')

variable {R : Runtime} {σ σ' : State} {r : Res}

/-- Equivalent operands run alike. -/
theorem many {cs ds : List Expr} (children : List.Forall₂ Equivalent cs ds)
    (run : Exec R (.many cs) σ r σ') : Exec R (.many ds) σ r σ' := by
  induction children generalizing σ r with
  | nil => exact run
  | cons head _ ih =>
    cases run with
    | cons first rest => exact .cons ((head _ _ _ _).mp first) (ih rest)
    | consStop first => exact .consStop ((head _ _ _ _).mp first)
    | consStopTail first rest => exact .consStopTail ((head _ _ _ _).mp first) (ih rest)

private theorem loop_forth {name : Option String} {body body' : Expr} (h : Equivalent body body')
    (run : Exec R (.one (.node (.loop name) [body])) σ r σ') :
    Exec R (.one (.node (.loop name) [body'])) σ r σ' := by
  -- the derivation repeats the loop itself, so the loop is kept as an index
  generalize task : Task.one (.node (.loop name) [body]) = t at run
  induction run with
  | loop pass leaves _ =>
    cases task
    exact .loop ((h _ _ _ _).mp pass) leaves
  | loopBack pass back _ _ ih =>
    cases task
    exact .loopBack ((h _ _ _ _).mp pass) back (ih rfl)
  | strict isStrict _ _ _ =>
    cases task
    simp [Kind.isStrict] at isStrict
  | strictStop isStrict _ _ =>
    cases task
    simp [Kind.isStrict] at isStrict
  | control isControl _ =>
    cases task
    simp [Kind.isControl] at isControl
  | _ => cases task

private theorem node_forth {k : Kind} (plain : k.isControl = false) {cs ds : List Expr}
    (children : List.Forall₂ Equivalent cs ds) (run : Exec R (.one (.node k cs)) σ r σ') :
    Exec R (.one (.node k ds)) σ r σ' := by
  cases run with
  | strict isStrict operands act => exact .strict isStrict (many children operands) act
  | strictStop isStrict operands => exact .strictStop isStrict (many children operands)
  | block body => exact .block (many children body)
  | ifTrue cond holds arm =>
    obtain _ | ⟨hc, _ | ⟨ht, _ | ⟨hf, _ | _⟩⟩⟩ := children
    exact .ifTrue ((hc _ _ _ _).mp cond) holds ((ht _ _ _ _).mp arm)
  | ifFalse cond fails arm =>
    obtain _ | ⟨hc, _ | ⟨ht, _ | ⟨hf, _ | _⟩⟩⟩ := children
    exact .ifFalse ((hc _ _ _ _).mp cond) fails ((hf _ _ _ _).mp arm)
  | ifStop cond =>
    obtain _ | ⟨hc, _ | ⟨ht, _ | ⟨hf, _ | _⟩⟩⟩ := children
    exact .ifStop ((hc _ _ _ _).mp cond)
  | loop pass leaves =>
    obtain _ | ⟨hb, _ | _⟩ := children
    exact loop_forth hb (.loop pass leaves)
  | loopBack pass back again =>
    obtain _ | ⟨hb, _ | _⟩ := children
    exact loop_forth hb (.loopBack pass back again)
  | control isControl _ => simp [plain] at isControl

/-- Equivalent children make equivalent nodes. -/
theorem node {k : Kind} (plain : k.isControl = false) {cs ds : List Expr}
    (children : List.Forall₂ Equivalent cs ds) : Equivalent (.node k cs) (.node k ds) := by
  intro R σ r σ'
  constructor
  · exact node_forth plain children
  · exact node_forth plain (List.Forall₂.flip (children.imp fun _ _ h => h.symm))

/-! ## Wrapping -/

/-- A block around an expression that does not branch to it. -/
theorem block {e : Expr} {label : String} (ty : Ty) (fresh : label ∉ e.targets) :
    Equivalent e (.node (.block (some label) ty) [e]) := by
  have passes : ∀ {R σ σ' r}, Exec R (.one e) σ r σ' → r.ofBlock (some label) = r := by
    intro R σ σ' r run
    cases r with
    | done vss =>
      obtain ⟨vs, rfl⟩ := run.bounds
      rfl
    | stop a =>
      cases a with
      | br l vs =>
        have away : label ≠ l := fun equal => fresh (equal ▸ run.bounds)
        simp [Res.ofBlock, away]
      | _ => rfl
  intro R σ r σ'
  simp only [Exec.block_iff, Exec.many_single_iff]
  constructor
  · intro run
    exact ⟨r, run, (passes run).symm⟩
  · rintro ⟨s, run, rfl⟩
    rwa [passes run]

/-- A loop around an expression that does not branch to its head. -/
theorem loop {e : Expr} {label : String} (fresh : label ∉ e.targets) :
    Equivalent e (.node (.loop (some label)) [e]) := by
  have leaves : ∀ {R σ σ' r}, Exec R (.one e) σ r σ' → ¬ r.IsBackEdge (some label) := by
    intro R σ σ' r run back
    cases r with
    | done vss => exact back
    | stop a =>
      cases a with
      | br l vs =>
        cases back
        exact fresh run.bounds
      | _ => exact back
  intro R σ r σ'
  constructor
  · intro run
    exact .loop run (leaves run)
  · intro run
    cases run with
    | loop pass _ => exact pass
    | loopBack pass back _ => exact absurd back (leaves pass)
    | strict isStrict _ _ => simp [Kind.isStrict] at isStrict
    | strictStop isStrict _ => simp [Kind.isStrict] at isStrict
    | control isControl _ => simp [Kind.isControl] at isControl

/-- An `if` whose condition is the constant one runs its first arm. -/
theorem ifOne (e f : Expr) :
    Equivalent e (.node .if_ [.node (.const (.i32 1)) [], e, f]) := by
  intro R σ r σ'
  have cond (s : Res) (σ₁ : State) := yields_const (R := R) (σ := σ) (.i32 1) s σ₁
  constructor
  · intro run
    exact .ifTrue ((cond _ _).mpr ⟨rfl, rfl⟩) (by decide) run
  · intro run
    cases run with
    | ifTrue one _ arm =>
      obtain ⟨_, rfl⟩ := (cond _ _).mp one
      exact arm
    | ifFalse one fails _ =>
      have value := ((cond _ _).mp one).1
      simp_all
    | ifStop one => cases ((cond _ _).mp one).1
    | strict isStrict _ _ => simp [Kind.isStrict] at isStrict
    | strictStop isStrict _ => simp [Kind.isStrict] at isStrict
    | control isControl _ => simp [Kind.isControl] at isControl

end Equivalent

end Swam.Binaryen
