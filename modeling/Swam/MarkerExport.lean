import Swam.Strip

/-!
# The exported markers

The harness reads the markers through their exports, and probes write them through
their internal names. The two agree after set-up exactly for modules in which neither
name was taken by something else.
-/
namespace Swam

open Binaryen

/-- The globals an expression writes, in the order of its nodes. -/
def writtenGlobals (e : Expr) : List String :=
  e.nodes.filterMap fun
    | .node (.globalSet name) _ => some name
    | _ => none

/-- The export is a global export of the mutable `i32` global with that internal name. -/
def ExportsMarker (m : Module) (exported global : String) : Prop :=
  ∃ e, m.getExport exported = some e ∧ e.kind = .global ∧ e.value = global ∧
    ∃ g, m.getGlobal global = some g ∧ g.mutable_ = true ∧ g.ty = Ty.i32

/-- Every probe writes exactly the globals that the marker exports denote. -/
def MarkersConsistent (m : Module) : Prop :=
  ∀ (s : SwamScenario) (idx : Nat) (memName : String) (is64 : Bool), ∃ before after,
    writtenGlobals (swamBuildProbe m (some s) idx memName is64).2 = [before, after] ∧
      ExportsMarker m swamMarkerBefore before ∧ ExportsMarker m swamMarkerAfter after

/-- The module leaves a marker name to the marker: its export is absent or already
denotes the global of that name, and that global is absent or a mutable `i32`. -/
def LeavesMarker (m : Module) (name : String) : Prop :=
  (∀ e, m.getExport name = some e → e.kind = .global ∧ e.value = name) ∧
    ∀ g, m.getGlobal name = some g → g.mutable_ = true ∧ g.ty = Ty.i32

section Lookup

variable (m : Module) (name other : String)

theorem getGlobal_addGlobal (g : Global) :
    (m.addGlobal g).getGlobal name =
      (m.getGlobal name).or (if g.name = name then some g else none) := by
  simp only [Module.getGlobal, Module.addGlobal, List.find?_append]
  by_cases same : g.name = name <;> simp [same]

theorem getExport_addGlobalExport (internal external : String) :
    (m.addGlobalExport internal external).getExport name =
      (m.getExport name).or
        (if external = name then some ⟨external, .global, internal⟩ else none) := by
  simp only [Module.getExport, Module.addGlobalExport, List.find?_append]
  by_cases same : external = name <;> simp [same]

theorem getGlobal_ensure :
    (swamEnsureMarkerGlobal m name).getGlobal other =
      (m.getGlobal other).or
        (if name = other then some ⟨name, Ty.i32, true, swamMakeI32Const 0⟩ else none) := by
  have exported (m' : Module) : (m'.addGlobalExport name name).getGlobal other =
    m'.getGlobal other := rfl
  unfold swamEnsureMarkerGlobal
  dsimp only
  by_cases missing : (m.getGlobal name).isNone = true
  · rw [if_pos missing]
    split <;> simp only [exported, getGlobal_addGlobal]
  · rw [if_neg missing]
    have unchanged : m.getGlobal other = (m.getGlobal other).or
        (if name = other then some ⟨name, Ty.i32, true, swamMakeI32Const 0⟩ else none) := by
      by_cases same : name = other
      · subst same
        cases found : m.getGlobal name with
        | none => simp [found] at missing
        | some g => rfl
      · simp [same]
    split <;> simpa only [exported] using unchanged

theorem getExport_ensure :
    (swamEnsureMarkerGlobal m name).getExport other =
      (m.getExport other).or (if name = other then some ⟨name, .global, name⟩ else none) := by
  have added (m' : Module) (g : Global) : (m'.addGlobal g).getExport = m'.getExport := rfl
  have keep (m' : Module) (equal : m'.getExport = m.getExport) :
      (if (m'.getExport name).isNone then m'.addGlobalExport name name else m').getExport other =
        (m.getExport other).or (if name = other then some ⟨name, .global, name⟩ else none) := by
    split
    · rw [getExport_addGlobalExport, equal]
    next present =>
      rw [equal] at present ⊢
      by_cases same : name = other
      · subst same
        cases found : m.getExport name with
        | none => simp [found] at present
        | some e => rfl
      · simp [same]
  unfold swamEnsureMarkerGlobal
  dsimp only
  split
  · exact keep _ (added m _)
  · exact keep m rfl

end Lookup

/-- After set-up, a marker is exported as it is written exactly when the module left
its name to it. -/
theorem exportsMarker_iff (m : Module) {name : String}
    (marker : name = swamMarkerBefore ∨ name = swamMarkerAfter) :
    ExportsMarker (swamAddMarkerGlobals m) name name ↔ LeavesMarker m name := by
  have exports : (swamAddMarkerGlobals m).getExport name =
      (m.getExport name).or (some ⟨name, .global, name⟩) := by
    rcases marker with rfl | rfl <;>
      simp [swamAddMarkerGlobals, getExport_ensure, swamMarkerBefore, swamMarkerAfter]
  have globals : (swamAddMarkerGlobals m).getGlobal name =
      (m.getGlobal name).or (some ⟨name, Ty.i32, true, swamMakeI32Const 0⟩) := by
    rcases marker with rfl | rfl <;>
      simp [swamAddMarkerGlobals, getGlobal_ensure, swamMarkerBefore, swamMarkerAfter]
  unfold ExportsMarker LeavesMarker
  rw [exports, globals]
  cases m.getExport name <;> cases m.getGlobal name <;> simp [and_assoc]

theorem writtenGlobals_node (k : Kind) (cs : List Expr) :
    writtenGlobals (.node k cs) =
      (match k with
        | .globalSet name => [name]
        | _ => []) ++ cs.flatMap writtenGlobals := by
  simp only [writtenGlobals, Expr.nodes_node, List.filterMap_cons, List.filterMap_flatMap]
  cases k <;> rfl

theorem writtenGlobals_indexConst (value : Int) (is64 : Bool) :
    writtenGlobals (swamMakeIndexConst value is64) = [] := by
  unfold swamMakeIndexConst
  split <;> rfl

theorem writtenGlobals_dummyValue (vt : SwamValType) :
    writtenGlobals (swamMakeDummyValue vt) = [] := by
  cases vt <;> rfl

theorem writtenGlobals_memoryBytes (memName : String) (is64 : Bool) :
    writtenGlobals (swamBuildMemoryBytes memName is64) = [] := by
  simp [swamBuildMemoryBytes, writtenGlobals_node, writtenGlobals_indexConst]

theorem writtenGlobals_baseAddress (s : SwamScenario) (memName : String) (is64 : Bool) :
    writtenGlobals (swamBuildBaseAddress (some s) memName is64) = [] := by
  have negative : writtenGlobals (if is64 = true then swamMakeIndexConst (-s.accessWidth) true
      else swamMakeI32Const (-s.accessWidth)) = [] := by
    split <;> rfl
  unfold swamBuildBaseAddress
  dsimp only
  split
  · exact writtenGlobals_indexConst _ _
  split
  · exact negative
  split
  · exact writtenGlobals_memoryBytes _ _
  split <;> cases s.layout <;>
    simp [writtenGlobals_node, writtenGlobals_indexConst, writtenGlobals_memoryBytes]

theorem writtenGlobals_targetOp (s : SwamScenario) (idx : Nat) (memName : String) (is64 : Bool) :
    writtenGlobals (swamBuildTargetOp (some s) idx memName is64) = [] := by
  unfold swamBuildTargetOp
  dsimp only
  have constant : writtenGlobals swamMakeV128Const = [] := rfl
  have i32Const (value : Int) : writtenGlobals (swamMakeI32Const value) = [] := rfl
  cases s.opClass <;>
    simp only [writtenGlobals_node, writtenGlobals_indexConst, writtenGlobals_dummyValue,
      constant, i32Const, List.flatMap_cons, List.flatMap_nil, List.append_nil]
  split <;> simp [writtenGlobals_node]

theorem writtenGlobals_probe (m : Module) (s : SwamScenario) (idx : Nat) (memName : String)
    (is64 : Bool) :
    writtenGlobals (swamBuildProbe m (some s) idx memName is64).2 =
      [swamMarkerBefore, swamMarkerAfter] := by
  have constant (value : Int) : writtenGlobals (swamMakeI32Const value) = [] := rfl
  simp [swamBuildProbe, swamBuildMarkerSet, writtenGlobals_node, writtenGlobals_baseAddress,
    writtenGlobals_targetOp, constant]

/-- After stripping and set-up the exports denote the globals that probes write exactly
when the module left both marker names to the markers. -/
theorem swamAddMarkerGlobals_consistent_iff (F : Finalizer) (m : Module) :
    MarkersConsistent (swamAddMarkerGlobals (swamStripMarkers F m)) ↔
      LeavesMarker m swamMarkerBefore ∧ LeavesMarker m swamMarkerAfter := by
  have before := exportsMarker_iff (swamStripMarkers F m) (.inl rfl)
  have after := exportsMarker_iff (swamStripMarkers F m) (.inr rfl)
  -- stripping touches function bodies only
  change _ ↔ LeavesMarker (swamStripMarkers F m) swamMarkerBefore ∧
    LeavesMarker (swamStripMarkers F m) swamMarkerAfter
  rw [← before, ← after]
  constructor
  · intro consistent
    obtain ⟨b, a, written, exportsBefore, exportsAfter⟩ :=
      consistent ⟨1, .i32Load, .load, .interior, .noTrap, 4, false, .i32, .noWrap, .na⟩ 0 "0" false
    rw [writtenGlobals_probe] at written
    cases written
    exact ⟨exportsBefore, exportsAfter⟩
  · rintro ⟨exportsBefore, exportsAfter⟩ s idx memName is64
    exact ⟨_, _, writtenGlobals_probe _ s idx memName is64, exportsBefore, exportsAfter⟩

/-- A module as it is read back: the markers are still exported under their names, and
the globals behind them have lost theirs. -/
def rereadModule : Module where
  functions := []
  globals := [⟨"global$0", Ty.i32, true, swamMakeI32Const 0⟩,
    ⟨"global$1", Ty.i32, true, swamMakeI32Const 0⟩]
  exports := [⟨swamMarkerBefore, .global, "global$0"⟩, ⟨swamMarkerAfter, .global, "global$1"⟩]
  memories := []
  segments := []
  tables := []
  features := []

/-- Probes put into a reread module write globals nothing exports. -/
theorem rereadModule_inconsistent :
    ¬ MarkersConsistent (swamAddMarkerGlobals (swamStripMarkers (fun _ _ => Ty.none) rereadModule)) := by
  intro consistent
  obtain ⟨before, after, written, ⟨e, exported, _, value, _⟩, _⟩ :=
    consistent ⟨1, .i32Load, .load, .interior, .noTrap, 4, false, .i32, .noWrap, .na⟩ 0 "0" false
  rw [writtenGlobals_probe] at written
  cases written
  have stale : (swamAddMarkerGlobals (swamStripMarkers (fun _ _ => Ty.none) rereadModule)).getExport
    swamMarkerBefore = some ⟨swamMarkerBefore, .global, "global$0"⟩ := rfl
  rw [stale] at exported
  cases exported
  exact absurd value (by decide)

end Swam
