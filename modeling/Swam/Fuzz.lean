import Swam.Exploit
import Swam.Oracle
import Swam.Strip

/-!
# One call of the custom mutator

`aflCustomFuzz` first evaluates the markers of the previous execution, then produces
a module either by instantiating a scenario or by exploring, and returns the
serialised module or the original input.
-/
namespace Swam

open Binaryen

/-- What the outside does during one call. Each use of Binaryen has an outcome of its
own; `none` is a failure caught by the safe wrappers. -/
structure CallEnv where
  readInput : List UInt8 → Option Module
  writeClone : Module → Option (List UInt8)
  readClone : List UInt8 → Option Module
  readSplice : List UInt8 → Option Module
  writeOutput : Module → Option (List UInt8)
  exploit : ExploitEnv
  ucb : Ucb
  /-- The exploration mutators, with the splice partner if one was read. They are taken to come back
  with a module: when they loop or Binaryen ends the process, so does the call. -/
  explore : Module → Option Module → Rand → Module × Rand
  malloc : Bool
  fopen : Bool

structure CallInput where
  buf : List UInt8
  addBuf : Option (List UInt8)
  maxSize : Nat

def enabledFeatures : List Feature :=
  [.mvp, .bulkMemory, .signExt, .mutableGlobals, .nontrappingFPToInt, .referenceTypes,
    .multivalue, .simd128]

def swamCloneModule (env : CallEnv) (m : Module) : Option Module :=
  (env.writeClone m).bind env.readClone

/-- The exploit module and what it was built for, as far as a call got. -/
inductive Attempted where
  /-- The call explores, or no scenario passes the filter. -/
  | nothing
  | cloneFailed (s : SwamScenario)
  | instantiateFailed (s : SwamScenario)
  | exploit (s : SwamScenario) (m : Module)

/-- The scenario a call tries, if it is an exploit call, with the id the scheduler
returned. -/
def swamChooseScenario (ucb : Ucb) (d : Mutator) : Option (Nat × Option SwamScenario) × Rand :=
  let (coin, r) := randBelow 2 d.rand
  if coin = 0 then
    let (id, r) := swamSchedulerSelect ucb d.scheduler r
    (some (id, swamGetScenario id), r)
  else (none, r)

/-- The clone a scenario is instantiated in. -/
def swamPrepareClone (env : CallEnv) (m : Module) : Option Module :=
  (swamCloneModule env m).map fun clone =>
    swamStripMarkers env.exploit.finalize (clone.setFeatures enabledFeatures)

/-- The exploit half of a call, on the parsed input. -/
def swamExploit (env : CallEnv) (d : Mutator) (m : Module) :
    Option (Attempted × Mutator × List Effect) :=
  match swamChooseScenario env.ucb d with
  | (none, r) => some (.nothing, { d with rand := r }, [])
  | (some (id, none), r) => some (.nothing, { d with rand := r }, [.select id])
  | (some (id, some s), r) =>
    match swamPrepareClone env m with
    | none => some (.cloneFailed s, { d with rand := r }, [.select id])
    | some clone =>
      let reached := swamSchedulerScenarioReached d.scheduler s.id
      (swamInstantiateScenario env.exploit reached s clone r).map fun
        | (none, clone, r) =>
          (.exploit s clone, { d with rand := r, exploitCnt := (d.exploitCnt + 1) % 2 ^ 32 },
            [.select id])
        | (some _, _, r) =>
          let (d, recorded) := swamSchedulerRecord { d with rand := r } s.id .instantiateFail
          (.instantiateFailed s, d, .select id :: recorded)

/-- The exploration half, on the parsed input. -/
def wasmExplore (env : CallEnv) (input : CallInput) (d : Mutator) (m : Module) :
    Module × Mutator :=
  match input.addBuf with
  | none =>
    let (m, r) := env.explore m none d.rand
    (m, { d with rand := r })
  | some addBuf =>
    let (useSplice, r) := randBelow 2 d.rand
    let partner := if useSplice ≠ 0 then env.readSplice addBuf else none
    let (m, r) := env.explore m (partner.map (·.setFeatures enabledFeatures)) r
    (m, { d with rand := r })

/-- Keep a copy of an exploit module for the next call. -/
def swamKeepPending (env : CallEnv) (d : Mutator) (s : SwamScenario) (output : List UInt8) :
    Mutator :=
  if env.malloc then
    { d with
      pendingModule := some output
      pendingModuleSize := output.length
      markers := swamMarkersReset d.markers
      lastWasExploit := true
      lastScenarioId := s.id }
  else { d with pendingModule := none, pendingModuleSize := 0 }

/-- Output that does not fit is replaced by the input. -/
def clampOutput (input : CallInput) (binary : List UInt8) : List UInt8 :=
  if binary.length > input.maxSize then input.buf.take input.maxSize else binary

/-- Serialise the output module, or fall back to the input. -/
def swamFinish (env : CallEnv) (input : CallInput) (d : Mutator) (attempted : Attempted)
    (output : Module) : List UInt8 × Mutator :=
  match env.writeOutput output with
  | none => (input.buf.take input.maxSize, d)
  | some binary =>
    let out := clampOutput input binary
    match attempted with
    | .exploit s _ =>
      if out.length = binary.length then (out, swamKeepPending env d s out) else (out, d)
    | _ => (out, d)

/-- What one call returned and did. `outputModule` is the module it meant to return,
when the input parsed. -/
structure CallResult where
  output : List UInt8
  outputModule : Option Module
  attempted : Attempted
  effects : List Effect
  mutator : Mutator

/-- The oracle step at the start of a call. -/
def swamSettle (fopen : Bool) (d : Mutator) : Mutator × List Effect :=
  if d.lastWasExploit then
    let (d, checked) := swamOracleCheck fopen d
    ({ d with lastWasExploit := false }, checked)
  else (d, [])

def aflCustomFuzz (env : CallEnv) (input : CallInput) (d : Mutator) : Option CallResult :=
  let (d, checked) := swamSettle env.fopen d
  match env.readInput input.buf with
  | none => some ⟨input.buf.take input.maxSize, none, .nothing, checked, d⟩
  | some m =>
    let m := m.setFeatures enabledFeatures
    (swamExploit env d m).map fun (attempted, d, tried) =>
      let (outputModule, d) := match attempted with
        | .exploit _ clone => (clone, d)
        | _ => wasmExplore env input d m
      let (output, d) := swamFinish env input d attempted outputModule
      ⟨output, some outputModule, attempted, checked ++ tried, d⟩

end Swam
