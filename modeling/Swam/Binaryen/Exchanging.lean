import Swam.Binaryen.Trees
import Swam.Binaryen.Validity

/-!
# Exchanging nodes

A relation between expressions that goes from the operands of a node to the node holds of every
tree before and after a write, as long as it holds of the node that is written to. Two such
relations are of use: that nodes were exchanged for others of their type, and that what was well
typed in one module is well typed in the next.
-/
namespace Swam.Binaryen

open ExprRef

/-- The relation goes from operands to nodes. -/
structure Congruent (R : Expr → Expr → Prop) : Prop where
  refl : ∀ e, R e e
  node : ∀ (k : Kind) {cs ds : List Expr}, List.Forall₂ R cs ds → R (.node k cs) (.node k ds)

/-! ## Trees before and after a write -/

namespace Congruent

variable {R : Expr → Expr → Prop} (congruent : Congruent R)
include congruent

theorem all (es : List Expr) : List.Forall₂ R es es :=
  List.forall₂_same.mpr fun e _ => congruent.refl e

/-- One operand is exchanged. -/
theorem set {cs : List ExprRef} {i : Nat} {old new : ExprRef} (here : cs[i]? = some old)
    (related : R old.expr new.expr) :
    List.Forall₂ R (cs.map expr) ((cs.set i new).map expr) := by
  induction cs generalizing i with
  | nil => cases here
  | cons c cs ih =>
    cases i with
    | zero =>
      cases here
      exact .cons related (congruent.all _)
    | succ i => exact .cons (congruent.refl _) (ih here)

section
variable {a : Nat} {change : Write} {k : Kind} {cs : List ExprRef}

private theorem writeAll_of {es : List ExprRef} (unique : occAll a es ≤ 1)
    (each : ∀ e ∈ es, occ a e ≤ 1 → find? a e = some (.node a k cs) →
      R e.expr (write a change e).expr)
    (found : findAll? a es = some (.node a k cs)) :
    List.Forall₂ R (es.map expr) ((writeAll a change es).map expr) := by
  rw [writeAll_eq_map, List.map_map, List.forall₂_map_left_iff, List.forall₂_map_right_iff]
  apply List.forall₂_same.mpr
  intro e member
  have part := occ_le_occAll member a
  cases missing : find? a e with
  | none =>
    rw [Function.comp_apply, write_of_absent ((find?_eq_none e).mp missing)]
    exact congruent.refl _
  | some n =>
    have same := findAll?_of_mem unique member missing
    rw [found] at same
    cases same
    exact each e member (by omega) missing

variable (related : R (ExprRef.node a k cs).expr (ExprRef.node a (change k cs).1 (change k cs).2).expr)
include related

theorem write {e : ExprRef} (unique : occ a e ≤ 1) (found : find? a e = some (.node a k cs)) :
    R e.expr (ExprRef.write a change e).expr := by
  induction e with
  | null => cases found
  | node b kb bs ih =>
    rw [find?_node] at found
    rw [occ_node] at unique
    rw [write_node]
    split at found
    next here =>
      cases found
      rw [if_pos here]
      exact related
    next other =>
      rw [if_neg other, expr_node, expr_node]
      exact congruent.node kb
        (congruent.writeAll_of (by omega) (fun e member one here => ih e member one here) found)

/-- The bodies of a module before and after one node was written to. -/
theorem writeAll {es : List ExprRef} (unique : occAll a es ≤ 1)
    (found : findAll? a es = some (.node a k cs)) :
    List.Forall₂ R (es.map expr) ((ExprRef.writeAll a change es).map expr) :=
  congruent.writeAll_of unique (fun _ _ one here => congruent.write related one here) found

end

end Congruent

/-- What is found in a well-typed expression is well typed in some scope of the same module. -/
theorem Valid.find? {S : Scope} {e n : ExprRef} {a : Nat} (valid : Valid S e.expr)
    (found : ExprRef.find? a e = some n) : ∃ S' : Scope, S'.sig = S.sig ∧ Valid S' n.expr := by
  induction e generalizing S with
  | null => cases found
  | node b k cs ih =>
    rw [find?_node] at found
    split at found
    next here =>
      cases found
      exact ⟨S, rfl, valid⟩
    next other =>
      obtain ⟨c, member, inside⟩ := exists_find? found
      rw [expr_node, valid_node_iff] at valid
      exact ih c member (S := S.enter k) (valid.2 c.expr (List.mem_map_of_mem member)) inside

/-! ## Nodes of the same type -/

/-- The second expression has nodes of the same type where the first has nodes, over the same
operands, and no node is missing. -/
inductive Exchanged : Expr → Expr → Prop
  | null : Exchanged .null .null
  | node {k k' : Kind} {cs ds : List Expr}
      (type : Expr.top? (.node k' ds) = Expr.top? (.node k cs))
      (operands : List.Forall₂ Exchanged cs ds) : Exchanged (.node k cs) (.node k' ds)

namespace Exchanged

theorem top?_eq {e e' : Expr} (exchanged : Exchanged e e') : e'.top? = e.top? := by
  cases exchanged with
  | null => rfl
  | node type operands => exact type

theorem refl (e : Expr) : Exchanged e e := by
  induction e with
  | null => exact .null
  | node k cs ih => exact .node rfl (List.forall₂_same.mpr ih)

private theorem trans_all {cs ds fs : List Expr}
    (each : ∀ c ∈ cs, ∀ d f, Exchanged c d → Exchanged d f → Exchanged c f)
    (first : List.Forall₂ Exchanged cs ds) (second : List.Forall₂ Exchanged ds fs) :
    List.Forall₂ Exchanged cs fs := by
  induction first generalizing fs with
  | nil => exact second
  | @cons c d cs ds here rest ih =>
    cases second with
    | cons here' rest' =>
      have later := ih (fun c member => each c (List.mem_cons_of_mem _ member)) rest'
      exact .cons (each c List.mem_cons_self d _ here here') later

theorem trans {e f g : Expr} (first : Exchanged e f) (second : Exchanged f g) : Exchanged e g := by
  induction e generalizing f g with
  | null =>
    cases first
    exact second
  | node k cs ih =>
    cases first with
    | node type operands =>
      cases second with
      | node type' operands' =>
        refine .node (type'.trans type) (trans_all ?_ operands operands')
        exact fun c member _ _ here there => ih c member here there

theorem transAll {cs ds fs : List Expr} (first : List.Forall₂ Exchanged cs ds)
    (second : List.Forall₂ Exchanged ds fs) : List.Forall₂ Exchanged cs fs :=
  trans_all (fun _ _ _ _ here there => here.trans there) first second

private theorem tops {cs ds : List Expr} (operands : List.Forall₂ Exchanged cs ds) :
    ds.map Expr.top? = cs.map Expr.top? := by
  induction operands with
  | nil => rfl
  | cons here _ ih => rw [List.map_cons, List.map_cons, here.top?_eq, ih]

theorem congruent : Congruent Exchanged where
  refl := refl
  node := fun k _ _ operands => .node (Expr.top?_congr k (tops operands)) operands

/-- A node that has taken over the operands of another one. -/
theorem takeOver {k k' : Kind} {cs : List Expr}
    (type : Expr.top? (.node k' cs) = Expr.top? (.node k cs)) :
    Exchanged (.node k cs) (.node k' cs) :=
  .node type (congruent.all cs)

end Exchanged

/-! ## Well typed in the next module -/

/-- What one signature types, the other types after the exchange, and nothing else shows. -/
structure Retypes (sig sig' : Signature) (e e' : Expr) : Prop where
  type : e'.top? = e.top?
  labels : e'.labels = e.labels
  valid : ∀ S : Scope, S.sig = sig → Valid S e → Valid { S with sig := sig' } e'

/-- The scope with another signature is a larger one. -/
theorem Scope.le_sig {S : Scope} {sig sig' : Signature} (le : sig.Le sig') (same : S.sig = sig)
    (targets : List String) : S.Le { S with sig := sig' } targets where
  sig := same ▸ le
  locals := id
  results := rfl
  labels := fun _ found => found
  tries := fun _ found => found

namespace Retypes

variable {sig sig' : Signature} (le : sig.Le sig')
include le

theorem refl (e : Expr) : Retypes sig sig' e e :=
  ⟨rfl, rfl, fun _ same valid => valid.mono (Scope.le_sig le same _)⟩

theorem congruent : Congruent (Retypes sig sig') where
  refl := refl le
  node := by
    intro k cs ds operands
    have tops : ds.map Expr.top? = cs.map Expr.top? := by
      induction operands with
      | nil => rfl
      | cons here _ ih => rw [List.map_cons, List.map_cons, here.type, ih]
    refine ⟨Expr.top?_congr k tops, ?_, ?_⟩
    · rw [Expr.labels_node, Expr.labels_node]
      congr 1
      induction operands with
      | nil => rfl
      | cons here _ ih =>
        rw [List.flatMap_cons, List.flatMap_cons, here.labels, ih (List.cons.inj tops).2]
    · intro S same valid
      obtain ⟨typed, children⟩ := valid_node_iff.mp valid
      refine .node ?_ ?_
      · rw [tops]
        exact typed.mono (Scope.le_sig le same _)
      · intro d member
        obtain ⟨c, inside, related⟩ := exists_of_mem_right operands member
        exact related.valid (S.enter k) same (children c inside)

/-- A node that has taken over the operands of another one. -/
theorem takeOver {k k' : Kind} {cs : List Expr}
    (type : Expr.top? (.node k' cs) = Expr.top? (.node k cs)) (labels : k'.labels = k.labels)
    (enter : ∀ S : Scope, S.enter k' = S.enter k)
    (typed : ∀ S : Scope, S.sig = sig → k.Typed S (cs.map Expr.top?) →
      k'.Typed { S with sig := sig' } (cs.map Expr.top?)) :
    Retypes sig sig' (.node k cs) (.node k' cs) := by
  refine ⟨type, ?_, ?_⟩
  · rw [Expr.labels_node, Expr.labels_node, labels]
  · intro S same valid
    obtain ⟨here, children⟩ := valid_node_iff.mp valid
    refine .node (typed S same here) ?_
    intro c member
    have inside := (children c member).mono (Scope.le_sig le (S := S.enter k) same _)
    rw [enter]
    exact inside

end Retypes

/-! ## Functions -/

/-- A function stays well typed when its body is exchanged. -/
theorem Func.Valid.retypes {f : Func} {sig sig' : Signature} {body : Expr} (valid : f.Valid sig)
    (related : Retypes sig sig' f.body body) : Func.Valid { f with body } sig' where
  typed := related.valid (f.scope sig) rfl valid.typed
  results := by
    rcases valid.results with imported | fits
    · have absent := related.type
      rw [imported] at absent
      cases body with
      | null => exact .inl rfl
      | node k cs =>
        rw [Expr.top?_node] at absent
        cases absent
    · exact .inr (related.type ▸ fits)
  labels := related.labels ▸ valid.labels

end Swam.Binaryen
