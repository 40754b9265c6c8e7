import Swam.Helpers
import Swam.Probe

/-!
# Removing the markers of an earlier probe

`swamStripMarkers` replaces every marker write it finds by `nop`. It finds exactly
those that are not below a node whose children the enumeration omits.
-/
namespace Swam

open Binaryen

def swamIsMarkerName (name : String) : Bool :=
  name = swamMarkerBefore || name = swamMarkerAfter

def swamIsMarkerSet : Expr → Bool
  | .node (.globalSet name) _ => swamIsMarkerName name
  | _ => false

mutual
def swamStripExpr (F : Finalizer) : Expr → Expr
  | .null => .null
  | .node k cs =>
    binaryenExpressionFinalize F
      (.node k (if k.isEnumerated then stripChildren F cs else cs))

def stripChildren (F : Finalizer) : List Expr → List Expr
  | [] => []
  | c :: cs =>
    (if swamIsMarkerSet c then .node .nop [] else swamStripExpr F c) :: stripChildren F cs
end

def swamStripBody (F : Finalizer) (body : Expr) : Expr :=
  binaryenExpressionFinalize F
    (if swamIsMarkerSet body then .node .nop [] else swamStripExpr F body)

def swamStripMarkers (F : Finalizer) (m : Module) : Module :=
  { m with functions := m.functions.map fun f =>
      if f.body.isNull then f else { f with body := swamStripBody F f.body } }

/-! ## What stripping is for -/

/-- No node writes a marker. -/
def Clean (e : Expr) : Prop := ∀ x ∈ e.nodes, swamIsMarkerSet x = false

mutual
/-- The expression with every marker write replaced by `nop`. -/
def nopMarkers : Expr → Expr
  | .null => .null
  | .node k cs => if swamIsMarkerSet (.node k cs) then .node .nop [] else .node k (nopMarkersAll cs)

def nopMarkersAll : List Expr → List Expr
  | [] => []
  | c :: cs => nopMarkers c :: nopMarkersAll cs
end

mutual
/-- The expression without the types Binaryen keeps with its nodes. -/
def untyped : Expr → Expr
  | .null => .null
  | .node k cs => .node (k.retype Ty.none) (untypedAll cs)

def untypedAll : List Expr → List Expr
  | [] => []
  | c :: cs => untyped c :: untypedAll cs
end

mutual
/-- No marker write is hidden below a node whose children are not enumerated,
other than inside another marker write. -/
def markersInSight : Expr → Bool
  | .null => true
  | .node k cs =>
    swamIsMarkerSet (.node k cs) ||
      if k.isEnumerated then markersInSightAll cs
      else cs.all fun c => c.nodes.all fun x => !swamIsMarkerSet x

def markersInSightAll : List Expr → Bool
  | [] => true
  | c :: cs => markersInSight c && markersInSightAll cs
end

theorem nopMarkersAll_eq (cs : List Expr) : nopMarkersAll cs = cs.map nopMarkers := by
  induction cs with
  | nil => rfl
  | cons c cs ih => simp [nopMarkersAll, ih]

theorem untypedAll_eq (cs : List Expr) : untypedAll cs = cs.map untyped := by
  induction cs with
  | nil => rfl
  | cons c cs ih => simp [untypedAll, ih]

theorem markersInSightAll_iff (cs : List Expr) :
    markersInSightAll cs = true ↔ ∀ c ∈ cs, markersInSight c = true := by
  induction cs with
  | nil => simp [markersInSightAll]
  | cons c cs ih => simp [markersInSightAll, ih]

/-- A child as the loop over the children leaves it. -/
def swamStripChild (F : Finalizer) (c : Expr) : Expr :=
  if swamIsMarkerSet c then .node .nop [] else swamStripExpr F c

theorem stripChildren_eq (F : Finalizer) (cs : List Expr) :
    stripChildren F cs = cs.map (swamStripChild F) := by
  induction cs with
  | nil => rfl
  | cons c cs ih => simp [stripChildren, swamStripChild, ih]

theorem clean_node_iff (k : Kind) (cs : List Expr) :
    Clean (.node k cs) ↔ swamIsMarkerSet (.node k cs) = false ∧ ∀ c ∈ cs, Clean c := by
  simp only [Clean, Expr.nodes_node, List.mem_cons, List.mem_flatMap]
  constructor
  · intro h
    exact ⟨h _ (.inl rfl), fun c member x inside => h x (.inr ⟨c, member, inside⟩)⟩
  · rintro ⟨self, each⟩ x (rfl | ⟨c, member, inside⟩)
    · exact self
    · exact each c member x inside

theorem swamIsMarkerSet_children (k : Kind) (cs ds : List Expr) :
    swamIsMarkerSet (.node k cs) = swamIsMarkerSet (.node k ds) := by
  cases k <;> rfl

theorem swamIsMarkerSet_retype (ty : Ty) (k : Kind) (cs : List Expr) :
    swamIsMarkerSet (.node (k.retype ty) cs) = swamIsMarkerSet (.node k cs) := by
  cases k <;> rfl

theorem clean_nop : Clean (.node .nop []) := by
  simp [clean_node_iff, swamIsMarkerSet]

theorem clean_finalize_iff (F : Finalizer) (e : Expr) :
    Clean (binaryenExpressionFinalize F e) ↔ Clean e := by
  cases e with
  | null => rfl
  | node k cs =>
    rw [binaryenExpressionFinalize, clean_node_iff, clean_node_iff,
      swamIsMarkerSet_retype (F k cs) k cs]

theorem untyped_finalize (F : Finalizer) (e : Expr) :
    untyped (binaryenExpressionFinalize F e) = untyped e := by
  cases e with
  | null => rfl
  | node k cs => cases k <;> rfl

/-- Nothing is replaced where there is no marker. -/
theorem nopMarkers_of_clean {e : Expr} (clean : Clean e) : nopMarkers e = e := by
  induction e with
  | null => rfl
  | node k cs ih =>
    obtain ⟨self, each⟩ := (clean_node_iff k cs).mp clean
    rw [nopMarkers, if_neg (by simp [self]), nopMarkersAll_eq]
    congr 1
    conv => rhs; rw [← List.map_id cs]
    exact List.map_congr_left fun c member => ih c member (each c member)

/-- Stripping below an expression is complete and minimal exactly when no marker is
hidden in it. -/
theorem swamStripChild_iff (F : Finalizer) (e : Expr) :
    (Clean (swamStripChild F e) ∧ untyped (swamStripChild F e) = untyped (nopMarkers e)) ↔
      markersInSight e = true := by
  induction e with
  | null => simp [swamStripChild, swamIsMarkerSet, swamStripExpr, Clean, nopMarkers, markersInSight]
  | node k cs ih =>
    by_cases marker : swamIsMarkerSet (.node k cs) = true
    · rw [swamStripChild, if_pos marker, nopMarkers, if_pos marker, markersInSight, marker]
      simp [clean_nop]
    · have other : swamIsMarkerSet (.node k cs) = false := by simpa using marker
      rw [swamStripChild, if_neg marker, swamStripExpr, clean_finalize_iff, untyped_finalize,
        nopMarkers, if_neg marker, markersInSight, other, Bool.false_or, nopMarkersAll_eq,
        untyped, untyped, untypedAll_eq, untypedAll_eq, clean_node_iff,
        swamIsMarkerSet_children k _ cs, other]
      by_cases listed : k.isEnumerated = true
      · -- every child is visited, so the children decide
        rw [if_pos listed, if_pos listed, stripChildren_eq, markersInSightAll_iff]
        simp only [Expr.node.injEq, true_and, List.map_map, List.map_inj_left, List.forall_mem_map,
          Function.comp_apply]
        constructor
        · rintro ⟨clean, equal⟩ c member
          exact (ih c member).mp ⟨clean c member, equal c member⟩
        · intro sight
          exact ⟨fun c member => ((ih c member).mpr (sight c member)).1,
            fun c member => ((ih c member).mpr (sight c member)).2⟩
      · -- the node is left as it is
        rw [if_neg listed, if_neg listed]
        have hidden : (cs.all fun c => c.nodes.all fun x => !swamIsMarkerSet x) = true ↔
            ∀ c ∈ cs, Clean c := by
          simp [Clean]
        rw [hidden]
        constructor
        · rintro ⟨⟨_, clean⟩, _⟩
          exact clean
        · intro clean
          refine ⟨⟨rfl, clean⟩, ?_⟩
          congr 1
          rw [List.map_map]
          exact List.map_congr_left fun c member =>
            congrArg untyped (nopMarkers_of_clean (clean c member)).symm

/-- Marker stripping leaves no marker write and changes nothing else, up to the types
Binaryen keeps, exactly when no function body hides a marker write. -/
theorem swamStripMarkers_iff (F : Finalizer) (m : Module) :
    ((∀ f ∈ (swamStripMarkers F m).functions, ∀ x ∈ f.body.nodes, swamIsMarkerSet x = false) ∧
      (swamStripMarkers F m).functions.map (fun f => untyped f.body) =
        m.functions.map (fun f => untyped (nopMarkers f.body))) ↔
      ∀ f ∈ m.functions, markersInSight f.body = true := by
  have body (f : Func) :
      (Clean (if f.body.isNull then f else { f with body := swamStripBody F f.body }).body ∧
        untyped (if f.body.isNull then f else { f with body := swamStripBody F f.body }).body =
          untyped (nopMarkers f.body)) ↔ markersInSight f.body = true := by
    rw [← swamStripChild_iff F f.body]
    cases present : f.body with
    | null => simp [Expr.isNull, present, swamStripChild, swamIsMarkerSet, swamStripExpr]
    | node k cs =>
      rw [if_neg (by simp [Expr.isNull])]
      dsimp only
      rw [swamStripBody, clean_finalize_iff, untyped_finalize, swamStripChild]
  simp only [swamStripMarkers, List.map_map, List.map_inj_left, List.forall_mem_map,
    Function.comp_apply]
  constructor
  · rintro ⟨clean, equal⟩ f member
    exact (body f).mp ⟨clean f member, equal f member⟩
  · intro sight
    exact ⟨fun f member => ((body f).mpr (sight f member)).1,
      fun f member => ((body f).mpr (sight f member)).2⟩

/-- A function whose body is a `try` around a probe. -/
def tryProbeModule : Module where
  functions := [⟨"f", Ty.none, Ty.none, [], .node (.try_ none Ty.none ["tag"] none)
    [(swamBuildProbe ⟨[], [], [], [], [], [], []⟩ (swamGetScenario 1) 0 "0" false).2,
      .node .drop [.node (.pop Ty.i32) []]]⟩]
  globals := []
  exports := []
  memories := [⟨"0", 1, none, false, false⟩]
  segments := []
  tables := []
  features := []

/-- The marker writes in the body of a `try` survive. -/
theorem swamStripMarkers_misses_try :
    ¬ ∀ f ∈ (swamStripMarkers (fun _ _ => Ty.none) tryProbeModule).functions,
      ∀ x ∈ f.body.nodes, swamIsMarkerSet x = false := by
  have left : ((swamStripMarkers (fun _ _ => Ty.none) tryProbeModule).functions.any fun f =>
      f.body.nodes.any swamIsMarkerSet) = true := by decide +kernel
  obtain ⟨f, member, inside⟩ := List.any_eq_true.mp left
  obtain ⟨x, node, marker⟩ := List.any_eq_true.mp inside
  intro complete
  rw [complete f member x node] at marker
  cases marker

end Swam
