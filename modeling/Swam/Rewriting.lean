import Swam.Binaryen.Equivalence
import Swam.Binaryen.Validity
import Swam.Helpers

/-!
# Rewriting a node in place

The mutators replace single nodes of a function body. A node is named by its path from
the root through enumerated children. A replacement that keeps type, validity and
executions of the node keeps those of the whole body.
-/
namespace Swam

open Binaryen

/-! ## Paths -/

/-- The node at the end of a path of child positions the enumeration lists. -/
def reach? : Expr → List Nat → Option Expr
  | e, [] => some e
  | e, i :: path => (wasmGetChildrenExpr e)[i]?.bind (reach? · path)

theorem reach?_append (e : Expr) (p q : List Nat) :
    reach? e (p ++ q) = (reach? e p).bind (reach? · q) := by
  induction p generalizing e with
  | nil => rfl
  | cons i p ih =>
    simp only [List.cons_append, reach?]
    cases (wasmGetChildrenExpr e)[i]? with
    | none => rfl
    | some c => exact ih c

/-- A step of a path goes through an enumerated node. -/
theorem reach?_cons {e x : Expr} {i : Nat} {path : List Nat} (here : reach? e (i :: path) = some x) :
    ∃ k cs c, e = .node k cs ∧ k.isEnumerated = true ∧ cs[i]? = some c ∧
      reach? c path = some x := by
  simp only [reach?, Option.bind_eq_some_iff] at here
  obtain ⟨c, child, here⟩ := here
  cases e with
  | null => cases child
  | node k cs =>
    by_cases enumerated : k.isEnumerated = true
    · refine ⟨k, cs, c, rfl, enumerated, ?_, here⟩
      simpa [wasmGetChildrenExpr, enumerated] using child
    · simp [wasmGetChildrenExpr, enumerated] at child

theorem reach?_child {k : Kind} {cs : List Expr} (enumerated : k.isEnumerated = true) (i : Nat)
    (path : List Nat) : reach? (.node k cs) (i :: path) = cs[i]?.bind (reach? · path) := by
  simp [reach?, wasmGetChildrenExpr, enumerated]

theorem reach?_modifyAt {e x : Expr} {path : List Nat} (f : Expr → Expr)
    (here : reach? e path = some x) : reach? (e.modifyAt path f) path = some (f x) := by
  induction path generalizing e with
  | nil =>
    cases here
    rfl
  | cons i path ih =>
    obtain ⟨k, cs, c, rfl, enumerated, child, here⟩ := reach?_cons here
    rw [Expr.modifyAt, reach?_child enumerated]
    simpa [child] using ih here

/-- Neither path leads through the node the other leads to. -/
def Apart (p q : List Nat) : Prop := ¬ p <+: q ∧ ¬ q <+: p

theorem Apart.symm {p q : List Nat} (apart : Apart p q) : Apart q p := ⟨apart.2, apart.1⟩

theorem Apart.append {p q : List Nat} (apart : Apart p q) (s : List Nat) : Apart (p ++ s) q := by
  constructor
  · intro longer
    exact apart.1 ((List.prefix_append p s).trans longer)
  · intro within
    rcases List.prefix_or_prefix_of_prefix within (List.prefix_append p s) with h | h
    · exact apart.2 h
    · exact apart.1 h

/-- Below different children. -/
theorem Apart.siblings (p : List Nat) {i j : Nat} (differ : i ≠ j) (s t : List Nat) :
    Apart (p ++ i :: s) (p ++ j :: t) := by
  constructor <;> intro h <;> rw [List.prefix_append_right_inj, List.cons_prefix_cons] at h
  · exact differ h.1
  · exact differ h.1.symm

theorem reach?_modifyAt_apart {p q : List Nat} (apart : Apart p q) (e : Expr) (f : Expr → Expr) :
    reach? (e.modifyAt p f) q = reach? e q := by
  induction p generalizing e q with
  | nil => exact absurd List.nil_prefix apart.1
  | cons i p ih =>
    cases q with
    | nil => exact absurd List.nil_prefix apart.2
    | cons j q =>
      cases e with
      | null => rfl
      | node k cs =>
        by_cases enumerated : k.isEnumerated = true
        · rw [Expr.modifyAt, reach?_child enumerated, reach?_child enumerated]
          by_cases same : i = j
          · subst same
            have below : Apart p q :=
              ⟨fun h => apart.1 (List.cons_prefix_cons.mpr ⟨rfl, h⟩),
                fun h => apart.2 (List.cons_prefix_cons.mpr ⟨rfl, h⟩)⟩
            cases child : cs[i]? with
            | none => simp [child]
            | some c => simpa [child] using ih below c
          · simp [same]
        · simp [Expr.modifyAt, reach?, wasmGetChildrenExpr, enumerated]

/-- Setting an enumerated child is a replacement one step further down. -/
theorem modifyAt_setChild {e c : Expr} {path : List Nat} {i : Nat} (new : Expr)
    (here : reach? e (path ++ [i]) = some c) :
    e.modifyAt path (wasmSetChildrenExpr · new i) = e.modifyAt (path ++ [i]) fun _ => new := by
  induction path generalizing e with
  | nil =>
    obtain ⟨k, cs, _, rfl, enumerated, _, _⟩ := reach?_cons here
    simp [Expr.modifyAt, wasmSetChildrenExpr, enumerated, List.set_eq_modify]
  | cons j path ih =>
    obtain ⟨k, cs, d, rfl, _, child, here⟩ := reach?_cons here
    simp only [List.cons_append, Expr.modifyAt]
    congr 1
    apply List.ext_getElem?
    intro n
    simp only [List.getElem?_modify]
    by_cases same : j = n
    · subst same
      simp [child, ih here]
    · simp [same]

/-! ## Replacements that do not show -/

/-- The second expression can stand for the first anywhere in a module of this
signature. -/
structure Rewrites (sig : Signature) (e e' : Expr) : Prop where
  top : e'.top? = e.top?
  targets : e'.targets ⊆ e.targets
  valid : ∀ S : Scope, S.sig = sig → Valid S e → Valid S e'
  equivalent : Equivalent e e'

namespace Rewrites

variable {sig : Signature}

theorem refl (e : Expr) : Rewrites sig e e where
  top := rfl
  targets := List.Subset.refl _
  valid := fun _ _ valid => valid
  equivalent := Equivalent.refl e

theorem trans {e e' e'' : Expr} (h : Rewrites sig e e') (h' : Rewrites sig e' e'') :
    Rewrites sig e e'' where
  top := h'.top.trans h.top
  targets := List.Subset.trans h'.targets h.targets
  valid := fun S same valid => h'.valid S same (h.valid S same valid)
  equivalent := h.equivalent.trans h'.equivalent

theorem node {k : Kind} (plain : k.isControl = false) {cs ds : List Expr}
    (children : List.Forall₂ (Rewrites sig) cs ds) :
    Rewrites sig (.node k cs) (.node k ds) := by
  have tops : ds.map Expr.top? = cs.map Expr.top? := by
    induction children with
    | nil => rfl
    | cons head _ ih => simp [head.top, ih]
  refine ⟨Expr.top?_congr k tops, ?_, ?_, ?_⟩
  · intro label
    simp only [Expr.targets_node, List.mem_append, List.mem_flatMap]
    refine Or.imp_right ?_
    rintro ⟨d, member, inside⟩
    obtain ⟨c, child, rewrites⟩ := exists_of_mem_right children member
    exact ⟨c, child, rewrites.targets inside⟩
  · intro S same valid
    obtain ⟨typed, each⟩ := valid_node_iff.mp valid
    refine .node (tops ▸ typed) ?_
    intro d member
    obtain ⟨c, child, rewrites⟩ := exists_of_mem_right children member
    exact rewrites.valid _ same (each c child)
  · exact Equivalent.node plain (children.imp fun _ _ h => h.equivalent)

private theorem isControl_of_isEnumerated {k : Kind} (enumerated : k.isEnumerated = true) :
    k.isControl = false := by
  cases k <;> first | rfl | cases enumerated

/-- Replacing a node inside an expression. -/
theorem modifyAt {e x x' : Expr} {path : List Nat} (here : reach? e path = some x)
    (h : Rewrites sig x x') : Rewrites sig e (e.modifyAt path fun _ => x') := by
  induction path generalizing e with
  | nil =>
    cases here
    exact h
  | cons i path ih =>
    obtain ⟨k, cs, c, rfl, enumerated, child, here⟩ := reach?_cons here
    refine node (isControl_of_isEnumerated enumerated) ?_
    refine List.forall₂_iff_get.mpr ⟨by simp, ?_⟩
    intro n _ _
    simp only [List.get_eq_getElem, List.getElem_modify]
    split
    next same =>
      subst same
      obtain ⟨_, equal⟩ := List.getElem?_eq_some_iff.mp child
      rw [equal]
      exact ih here
    · exact refl _

end Rewrites

/-! ## Wrappers -/

/-- An instruction put around a node. -/
inductive Wrapper where
  | block (label : String) (ty : Ty)
  | loop (label : String)
  | ifOne (falseExpr : Expr)

namespace Wrapper

def wrap : Wrapper → Expr → Expr
  | .block label ty, el => .node (.block (some label) ty) [el]
  | .loop label, el => .node (.loop (some label)) [el]
  | .ifOne falseExpr, el => .node .if_ [.node (.const (.i32 1)) [], el, falseExpr]

/-- The position of the node among the children of its wrapper. -/
def position : Wrapper → Nat
  | .block _ _ | .loop _ => 0
  | .ifOne _ => 1

def labels : Wrapper → List String
  | .block label _ | .loop label => [label]
  | .ifOne _ => []

/-- The wrapper does not capture a branch of the node and has its type. -/
def Suits (w : Wrapper) (sig : Signature) (el : Expr) : Prop :=
  match w with
  | .block label ty => label ∉ el.targets ∧ el.top? = some ty.top
  | .loop label => label ∉ el.targets ∧ el.top?.isSome
  | .ifOne falseExpr => falseExpr.top? = el.top? ∧ el.top?.isSome ∧ falseExpr.targets = [] ∧
      falseExpr.labels = [] ∧ ∀ S : Scope, S.sig = sig → Valid S falseExpr

theorem reach?_wrap (w : Wrapper) (el : Expr) : reach? (w.wrap el) [w.position] = some el := by
  cases w <;> rfl

variable {sig : Signature} {el : Expr}

/-- A scope with one more label serves an expression that does not refer to it. -/
private theorem le_enter (S : Scope) {k : Kind} {label : String} {ty : Ty}
    (bound : k.bound = [(label, ty)]) (fresh : label ∉ el.targets) : S.Le (S.enter k) el.targets where
  sig := .refl _
  locals := id
  results := rfl
  labels := by
    intro name t member found
    have away : (name == label) = false := by
      simp only [beq_eq_false_iff_ne]
      rintro rfl
      exact fresh member
    rw [Scope.label?_enter, bound, List.lookup_cons, away]
    exact found
  tries := fun _ found => List.mem_append_right _ found

theorem blockTyped_single (ty : Ty) : BlockTyped ty [some ty.top] := by
  refine ⟨by simp, ?_, ?_, by simp⟩
  · cases ty <;> simp [Fits]
  · rintro rfl
    simp

theorem rewrites_block {label : String} {ty : Ty} (fresh : label ∉ el.targets)
    (top : el.top? = some ty.top) : Rewrites sig el ((Wrapper.block label ty).wrap el) where
  top := by rw [top, wrap, Expr.top?_node, Kind.ty]
  targets := by simp [wrap, Expr.targets_node, Kind.targets]
  valid := by
    intro S _ valid
    refine .node ?_ ?_
    · simpa [Kind.Typed, top] using blockTyped_single ty
    · intro c member
      cases List.mem_singleton.mp member
      exact valid.mono (le_enter S rfl fresh)
  equivalent := .block ty fresh

theorem rewrites_loop {label : String} (fresh : label ∉ el.targets) (present : el.top?.isSome) :
    Rewrites sig el ((Wrapper.loop label).wrap el) where
  top := by
    cases el with
    | null => cases present
    | node k cs => simp [wrap, Expr.top?, Expr.ty?_node, Kind.ty]
  targets := by simp [wrap, Expr.targets_node, Kind.targets]
  valid := by
    intro S _ valid
    refine .node ?_ ?_
    · obtain ⟨t, equal⟩ := Option.isSome_iff_exists.mp present
      exact ⟨t, by simp [equal]⟩
    · intro c member
      cases List.mem_singleton.mp member
      exact valid.mono (le_enter S rfl fresh)
  equivalent := .loop fresh

theorem rewrites_ifOne {falseExpr : Expr} (top : falseExpr.top? = el.top?)
    (present : el.top?.isSome) (closed : falseExpr.targets = [])
    (valid : ∀ S : Scope, S.sig = sig → Valid S falseExpr) :
    Rewrites sig el ((Wrapper.ifOne falseExpr).wrap el) where
  top := by
    obtain ⟨t, equal⟩ := Option.isSome_iff_exists.mp present
    rw [equal] at top
    obtain ⟨s, hs, rfl⟩ := Option.map_eq_some_iff.mp equal
    obtain ⟨u, hu, tops⟩ := Option.map_eq_some_iff.mp top
    have arms : (s.lub u).top = s.top := Ty.lub_top tops.symm
    rw [equal, wrap, Expr.top?_node]
    simp [Kind.ty, hs, hu, Expr.ty?_node, arms, Ty.one]
  targets := by simp [wrap, Expr.targets_node, Kind.targets, closed]
  valid := by
    intro S same here
    have cond : Fits (Expr.top? (.node (.const (.i32 1)) [])) Ty.i32 := .inr rfl
    refine .node ?_ ?_
    · obtain ⟨t, equal⟩ := Option.isSome_iff_exists.mp present
      refine ⟨_, _, _, rfl, cond, ?_⟩
      rw [top, equal]
      exact ⟨t, rfl, .inr (.inr rfl)⟩
    · intro c member
      simp only [List.mem_cons, List.not_mem_nil, or_false] at member
      rcases member with rfl | rfl | rfl
      · exact .node ⟨[], rfl, .nil⟩ (by simp)
      · exact here
      · exact valid S same
  equivalent := .ifOne el falseExpr

/-- A suitable wrapper does not show. -/
theorem Suits.rewrites {w : Wrapper} (suits : w.Suits sig el) : Rewrites sig el (w.wrap el) := by
  cases w with
  | block label ty => exact rewrites_block suits.1 suits.2
  | loop label => exact rewrites_loop suits.1 suits.2
  | ifOne falseExpr => exact rewrites_ifOne suits.1 suits.2.1 suits.2.2.1 suits.2.2.2.2

theorem Suits.labels {w : Wrapper} (suits : w.Suits sig el) :
    (w.wrap el).labels = w.labels ++ el.labels := by
  cases w with
  | ifOne falseExpr =>
    simp [wrap, Wrapper.labels, Expr.labels_node, Kind.labels, suits.2.2.2.1]
  | _ => simp [wrap, Wrapper.labels, Expr.labels_node, Kind.labels]

end Wrapper

private theorem flatMap_labels_modify {cs : List Expr} {i : Nat} {c : Expr} {f : Expr → Expr}
    {new : List String} (child : cs[i]? = some c) (labels : (f c).labels.Perm (new ++ c.labels)) :
    ((cs.modify i f).flatMap Expr.labels).Perm (new ++ cs.flatMap Expr.labels) := by
  induction cs generalizing i with
  | nil => cases child
  | cons d cs ih =>
    cases i with
    | zero =>
      cases child
      simpa using labels.append_right _
    | succ i =>
      rw [List.modify_succ_cons, List.flatMap_cons, List.flatMap_cons]
      exact ((ih child).append_left _).trans (List.perm_append_comm_assoc _ _ _)

/-- Replacing a node adds the labels the replacement adds. -/
theorem labels_modifyAt {e x x' : Expr} {path : List Nat} {new : List String}
    (here : reach? e path = some x) (labels : x'.labels = new ++ x.labels) :
    (e.modifyAt path fun _ => x').labels.Perm (new ++ e.labels) := by
  induction path generalizing e with
  | nil =>
    cases here
    rw [Expr.modifyAt, labels]
  | cons i path ih =>
    obtain ⟨k, cs, c, rfl, _, child, here⟩ := reach?_cons here
    rw [Expr.modifyAt, Expr.labels_node, Expr.labels_node]
    have children := flatMap_labels_modify (f := (·.modifyAt path fun _ => x')) child (ih here)
    exact (children.append_left _).trans (List.perm_append_comm_assoc _ _ _)

end Swam
