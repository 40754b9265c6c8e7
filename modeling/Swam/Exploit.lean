import Swam.Helpers
import Swam.Probe
import Swam.Rand

/-!
# Instantiating a scenario

`swamInstantiateScenario` prepares the memory a probe needs and inserts the probe
into a block of some function, chosen by reachability scores. `none` stands for
Binaryen ending the process on a request it rejects as fatal.
-/
namespace Swam

open Binaryen

def swamMaxBlocks : Nat := 256
def swamKAttempts : Nat := 5
def swamMaxExportFuncs : Nat := 64

/-! ## Memory set-up -/

/-- The name of the first memory. -/
def swamGetMemoryName (m : Module) : Option String := m.memories.head?.map (·.name)

/-- Atomic instructions need a shared memory with a maximum. The answer is whether
there is one now. -/
def swamEnsureSharedMemory (calloc : Bool) (m : Module) : Option (Bool × Module) :=
  let mem := (swamGetMemoryName m).bind m.getMemory
  match mem with
  | some mem =>
    if mem.getMax.isSome ∧ mem.shared then some (true, m)
    else
      let initial := mem.getInitial
      let maximum := mem.getMax.getD (if initial > 256 then initial else 256)
      rebuild initial maximum mem.is64 mem.name
  | none => rebuild 1 256 false "0"
where
  rebuild (initial maximum : Nat) (memory64 : Bool) (name : String) : Option (Bool × Module) :=
    if m.segments.length > 0 ∧ ¬ calloc then some (false, m)
    else (copySegments m).map fun segments =>
      let m := m.setMemory initial maximum (segments.map (SegmentCopy.place memory64)) true memory64 name
      ((m.getMemory name).any fun mem => mem.shared && mem.max.isSome, m)

/-- `memory.init` probes copy from a passive segment of one byte. -/
def swamEnsurePassiveDataSegment (calloc : Bool) (m : Module) (memName : Option String) :
    Option (Bool × Module) :=
  match memName.bind m.getMemory with
  | none => some (false, m)
  | some mem =>
    if ¬ calloc then some (false, m)
    else (copySegments m).map fun segments =>
      (true, m.setMemory mem.getInitial (mem.getMax.getD (2 ^ 32 - 1))
        (segments.map (SegmentCopy.place mem.is64) ++ [⟨swamBulkSegmentName, true, none, [0x42]⟩])
        mem.shared mem.is64 mem.name)

/-! ## Choosing where the probe goes -/

def hasBody (f : Func) : Bool := !f.body.isNull

/-- Indices of at most 64 exported functions with a body. -/
def exportFuncs (m : Module) : List Nat :=
  (m.exports.filterMap fun exp =>
    if exp.kind = .function then
      (m.functions.findIdx? (·.name = exp.value)).filter fun i =>
        m.functions[i]?.any hasBody
    else none).take swamMaxExportFuncs

/-- Phase 2 of the choice: a number of random tries. -/
def tryFunctions (m : Module) : Nat → Rand → Option Nat × Rand
  | 0, r => (none, r)
  | n + 1, r =>
    let (idx, r) := randBelow m.functions.length r
    if m.functions[idx]?.any hasBody then (some idx, r) else tryFunctions m n r

def swamChooseFunctionWithBody (m : Module) (r : Rand) : Option Nat × Rand :=
  let funcs := exportFuncs m
  if funcs.length > 0 then
    let (i, r) := randBelow funcs.length r
    (funcs[i]?, r)
  else if m.functions.length = 0 then (none, r)
  else
    match tryFunctions m 20 r with
    | (some idx, r) => (some idx, r)
    | (none, r) => (m.functions.findIdx? hasBody, r)

/-- How control passes an instruction. -/
inductive Terminator where
  | fallThrough
  | conditional
  | unconditional
  deriving DecidableEq, Repr

def swamClassifyTerminator : Expr → Terminator
  | .node (.break_ _) [_, cond] => if cond.isNull then .unconditional else .conditional
  | .node (.switch _ _) _ | .node .return_ _ | .node .unreachable _ => .unconditional
  | _ => .fallThrough

section Scores

variable (D : Doubles)

/-- A block, by its place in the function body. -/
structure SwamScoredBlock where
  block : List Nat
  score : D.Carrier
  depth : Nat

section
variable (maxBlocks : Nat)

mutual
def swamCollectScoredBlocks : Expr → List Nat → D.Carrier → Nat → List (SwamScoredBlock D) →
    List (SwamScoredBlock D)
  | .null, _, _, _, blocks => blocks
  | .node k cs, path, score, depth, blocks =>
    if blocks.length ≥ maxBlocks ∨ D.le score (D.ofRat 0) then blocks
    else
      match k with
      | .block _ _ => collectBlock cs 0 path score (depth + 1) (blocks ++ [⟨path, score, depth⟩])
      | .if_ => collectArms cs path (D.mul score (D.ofRat (1 / 2))) (depth + 1) blocks
      | .loop _ => collectBody cs path (D.mul score (D.ofRat 2)) (depth + 1) blocks
      | .try_ .. => collectTry cs path score (depth + 1) blocks
      | _ => blocks

/-- The children of a block: a terminator lowers the score of what follows it. -/
def collectBlock : List Expr → Nat → List Nat → D.Carrier → Nat → List (SwamScoredBlock D) →
    List (SwamScoredBlock D)
  | [], _, _, _, _, blocks => blocks
  | c :: cs, i, path, score, depth, blocks =>
    if blocks.length ≥ maxBlocks then blocks
    else
      let blocks := swamCollectScoredBlocks c (path ++ [i]) score depth blocks
      let score := match swamClassifyTerminator c with
        | .unconditional => D.ofRat 0
        | .conditional => D.mul score (D.ofRat (1 / 2))
        | .fallThrough => score
      if D.le score (D.ofRat 0) then blocks
      else collectBlock cs (i + 1) path score depth blocks

/-- The arms of an `if`, not its condition. -/
def collectArms : List Expr → List Nat → D.Carrier → Nat → List (SwamScoredBlock D) →
    List (SwamScoredBlock D)
  | [_, ifTrue, ifFalse], path, score, depth, blocks =>
    swamCollectScoredBlocks ifFalse (path ++ [2]) score depth
      (swamCollectScoredBlocks ifTrue (path ++ [1]) score depth blocks)
  | _, _, _, _, blocks => blocks

def collectBody : List Expr → List Nat → D.Carrier → Nat → List (SwamScoredBlock D) →
    List (SwamScoredBlock D)
  | [body], path, score, depth, blocks =>
    swamCollectScoredBlocks body (path ++ [0]) score depth blocks
  | _, _, _, _, blocks => blocks

/-- The body of a `try` comes first among its children. -/
def collectTry : List Expr → List Nat → D.Carrier → Nat → List (SwamScoredBlock D) →
    List (SwamScoredBlock D)
  | body :: catches, path, score, depth, blocks =>
    collectCatches catches 1 path (D.mul score (D.ofRat (1 / 10))) depth
      (swamCollectScoredBlocks body (path ++ [0]) score depth blocks)
  | [], _, _, _, blocks => blocks

def collectCatches : List Expr → Nat → List Nat → D.Carrier → Nat → List (SwamScoredBlock D) →
    List (SwamScoredBlock D)
  | [], _, _, _, _, blocks => blocks
  | c :: cs, i, path, score, depth, blocks =>
    if blocks.length ≥ maxBlocks then blocks
    else collectCatches cs (i + 1) path score depth
      (swamCollectScoredBlocks c (path ++ [i]) score depth blocks)
end
end

/-- Position of the first prefix sum above `r`, or the last position. -/
def selectByWeight (r : D.Carrier) : List (SwamScoredBlock D) → D.Carrier → Nat → Nat
  | [], _, i => i - 1
  | b :: bs, cumulative, i =>
    let cumulative := D.add cumulative b.score
    if D.lt r cumulative then i else selectByWeight r bs cumulative (i + 1)

def swamWeightedBlockSelect (blocks : List (SwamScoredBlock D)) (r : Rand) : Nat × Rand :=
  if blocks.length ≤ 1 then (0, r)
  else
    let total := blocks.foldl (fun total b => D.add total b.score) (D.ofRat 0)
    if D.le total (D.ofRat (1 / 10 ^ 12)) then randBelow blocks.length r
    else
      let (draw, rand) := randBelow 1000000 r
      (selectByWeight D (D.mul (D.ofRat (draw / 1000000)) total) blocks (D.ofRat 0) 0, rand)

def swamApplyDepthBoost (blocks : List (SwamScoredBlock D)) : List (SwamScoredBlock D) :=
  blocks.map fun b => { b with score := D.mul b.score (D.ofRat (1 + 1 / 2 * b.depth)) }

end Scores

/-! ## Instantiation -/

/-- The services of Binaryen and the C library that instantiation depends on. -/
structure ExploitEnv where
  doubles : Doubles
  calloc : Bool
  validate : Module → Bool
  finalize : Finalizer

/-- Insert a child into a block and finalize the block. -/
def insertChild (env : ExploitEnv) (pos : Nat) (child : Expr) : Expr → Expr
  | .node (.block name ty) cs =>
    binaryenExpressionFinalize env.finalize (.node (.block name ty) (cs.insertIdx pos child))
  | e => e

/-- The function body with the probe in one of its blocks, or before it. -/
def placeProbe (env : ExploitEnv) (reached : Nat) (body probe : Expr) (r : Rand) : Expr × Rand :=
  let D := env.doubles
  let blocks := swamCollectScoredBlocks D swamMaxBlocks body [] (D.ofRat 1) 0 []
  if blocks.length > 0 then
    let blocks := if reached > 0 then swamApplyDepthBoost D blocks else blocks
    let (selected, r) := swamWeightedBlockSelect D blocks r
    let path := (blocks[selected]?.map (·.block)).getD []
    let target := (body.at? path).getD .null
    let numChildren := target.children.length
    -- the last child of a block with a value stays last
    let insertLimit := if target.ty ≠ Ty.none ∧ numChildren > 0 then numChildren
      else numChildren + 1
    let (insertPos, r) := randBelow insertLimit r
    (body.modifyAt path (insertChild env insertPos probe), r)
  else
    (.node (.block none body.ty) [probe, body], r)

/-- One attempt: the reason it failed, if it did, and the module it leaves. -/
def swamAttempt (env : ExploitEnv) (reached : Nat) (s : SwamScenario) (memName : String)
    (isMemory64 : Bool) (m : Module) (r : Rand) : Option String × Module × Rand :=
  match swamChooseFunctionWithBody m r with
  | (none, r) => (some "choose_function", m, r)
  | (some idx, r) =>
    match m.functions[idx]? with
    | none => (some "choose_function", m, r)
    | some func =>
      let addrLocal := func.params.expand.length + func.vars.length
      let m := m.setFunction idx { func with vars := func.vars ++ [indexTy isMemory64] }
      let (m, probe) := swamBuildProbe m (some s) addrLocal memName isMemory64
      let (body, r) := placeProbe env reached func.body probe r
      let m := m.setBody idx body
      if env.validate m then (none, m, r) else (some "binaryen_validate", m, r)

def swamAttempts (env : ExploitEnv) (reached : Nat) (s : SwamScenario) (memName : String)
    (isMemory64 : Bool) : Nat → String → Module → Rand → Option String × Module × Rand
  | 0, failReason, m, r => (some failReason, m, r)
  | n + 1, _, m, r =>
    match swamAttempt env reached s memName isMemory64 m r with
    | (none, m, r) => (none, m, r)
    | (some failReason, m, r) =>
      swamAttempts env reached s memName isMemory64 n failReason m r

/-- The features the instruction class needs. -/
def swamAddFeatures (s : SwamScenario) (m : Module) : Module :=
  let m := if s.opClass.isAtomic then m.addFeature .atomics else m
  let m := if s.opClass.isSimd then m.addFeature .simd128 else m
  if s.opClass.isBulk then m.addFeature .bulkMemory else m

/-- The reason of a failure, or `none` for success, with the module it leaves. -/
def swamInstantiateScenario (env : ExploitEnv) (reached : Nat) (s : SwamScenario) (m : Module)
    (r : Rand) : Option (Option String × Module × Rand) :=
  let withMemory := if m.hasMemory then some (m, r) else wasmSetMemory m false r
  withMemory.bind fun (m, r) =>
  let withShared := if s.opClass.isAtomic then swamEnsureSharedMemory env.calloc m
    else some (true, m)
  withShared.bind fun (shared, m) =>
  if shared = false then some (some "shared_memory", m, r)
  else
    let m := swamAddFeatures s m
    let withSegment := if s.opClass = .bulkInit then
        swamEnsurePassiveDataSegment env.calloc m (swamGetMemoryName m)
      else some (true, m)
    withSegment.bind fun (segment, m) =>
    if segment = false then some (some "passive_data_segment", m, r)
    else
      let memName := (swamGetMemoryName m).getD ""
      let isMemory64 := (m.getMemory memName).any (·.is64)
      some (swamAttempts env reached s memName isMemory64 swamKAttempts "retry_exhausted"
        (swamAddMarkerGlobals m) r)

/-! ## When instantiation returns -/

private theorem mapM_spec {α β : Type} (f : α → Option β) (l : List α) :
    ((l.mapM f).isSome ↔ ∀ a ∈ l, (f a).isSome) ∧
      ∀ bs, l.mapM f = some bs → bs.length = l.length ∧
        (∀ b ∈ bs, ∃ a ∈ l, f a = some b) ∧ ∀ a ∈ l, ∃ b ∈ bs, f a = some b := by
  induction l with
  | nil => simp
  | cons a l ih =>
    obtain ⟨some_iff, spec⟩ := ih
    rw [List.mapM_cons]
    constructor
    · cases fa : f a with
      | none => simp [fa]
      | some b =>
        rw [List.forall_mem_cons, ← some_iff]
        cases l.mapM f <;> simp [fa]
    · intro bs mapped
      obtain ⟨b, head, rest, tail, rfl⟩ : ∃ b, f a = some b ∧ ∃ rest, l.mapM f = some rest ∧
          b :: rest = bs := by
        simpa [bind, Option.bind_eq_some_iff] using mapped
      obtain ⟨length, back, forth⟩ := spec rest tail
      refine ⟨by simp [length], ?_, ?_⟩
      · intro b' member
        rcases List.mem_cons.mp member with rfl | member
        · exact ⟨a, List.mem_cons_self, head⟩
        · obtain ⟨a', member', equal⟩ := back b' member
          exact ⟨a', List.mem_cons_of_mem _ member', equal⟩
      · intro a' member
        rcases List.mem_cons.mp member with rfl | member
        · exact ⟨b, List.mem_cons_self, head⟩
        · obtain ⟨b', member', equal⟩ := forth a' member
          exact ⟨b', List.mem_cons_of_mem _ member', equal⟩

/-- A segment that can be copied. -/
def Segment.Copyable (seg : Segment) : Prop :=
  seg.passive = true ∨ (Segment.getByteOffset seg).isSome = true

theorem copySegment_isSome {m : Module} {ind : Nat} :
    (copySegment m ind).isSome ↔
      ∃ seg, m.getSegment (toString ind) = some seg ∧ Segment.Copyable seg := by
  unfold copySegment Segment.Copyable
  cases m.getSegment (toString ind) with
  | none => simp
  | some seg => cases passive : seg.passive <;> simp [passive]

theorem copySegment_spec {m : Module} {ind : Nat} {copy : SegmentCopy}
    (copied : copySegment m ind = some copy) (memory64 : Bool) :
    copy.name = toString ind ∧ Segment.Copyable (copy.place memory64) := by
  obtain ⟨original, _, equal⟩ := Option.bind_eq_some_iff.mp copied
  split at equal
  · cases equal
    exact ⟨rfl, .inl rfl⟩
  · obtain ⟨offset, _, rfl⟩ := Option.map_eq_some_iff.mp equal
    exact ⟨rfl, .inr (by cases memory64 <;> rfl)⟩

/-- Copied segments can be copied again. -/
theorem copySegments_again {m m' : Module} {segments : List SegmentCopy} {memory64 : Bool}
    (copied : copySegments m = some segments)
    (same : m'.segments = segments.map (SegmentCopy.place memory64)) :
    (copySegments m').isSome := by
  obtain ⟨length, back, forth⟩ := (mapM_spec _ _).2 _ copied
  refine (mapM_spec _ _).1.mpr fun ind member => copySegment_isSome.mpr ?_
  rw [same, List.length_map, length, List.length_range] at member
  obtain ⟨copy, here, equal⟩ := forth ind member
  have named := (copySegment_spec equal memory64).1
  obtain ⟨found, search⟩ : ∃ found,
      (segments.map (SegmentCopy.place memory64)).find? (·.name = toString ind) = some found := by
    refine Option.isSome_iff_exists.mp
      (List.find?_isSome.mpr ⟨_, List.mem_map_of_mem here, ?_⟩)
    simpa [SegmentCopy.place] using named
  refine ⟨found, ?_, ?_⟩
  · rw [Module.getSegment, same]
    exact search
  · obtain ⟨original, member', rfl⟩ := List.mem_map.mp (List.mem_of_find?_eq_some search)
    obtain ⟨_, _, from_⟩ := back original member'
    exact (copySegment_spec from_ memory64).2

theorem copySegments_congr {m m' : Module} (same : m'.segments = m.segments) :
    copySegments m' = copySegments m := by
  have each : copySegment m' = copySegment m := by
    funext ind
    rw [copySegment, copySegment, Module.getSegment, same]
    rfl
  rw [copySegments, copySegments, each, same]

private theorem wasmSetMemory_returns {m : Module} (r : Rand) (fresh : m.hasMemory = false)
    (copyable : (copySegments m).isSome) :
    ∃ m' r', wasmSetMemory m false r = some (m', r') ∧ (copySegments m').isSome := by
  obtain ⟨segments, copied⟩ := Option.isSome_iff_exists.mp copyable
  rw [wasmSetMemory, memorySettings, fresh]
  by_cases filled : m.segments.length > 0
  · refine ⟨m.setMemory 1 (2 ^ 32 - 1) (segments.map (SegmentCopy.place false)) false false "0",
      r, ?_, ?_⟩
    · simp [filled, copied]
    · exact copySegments_again copied rfl
  · refine ⟨m.setMemory 1 (2 ^ 32 - 1) [] false false "0", r, ?_, ?_⟩
    · simp [filled]
    · simp [copySegments, Module.setMemory]

private theorem swamEnsureSharedMemory_returns {m : Module} (calloc : Bool)
    (copyable : (copySegments m).isSome) :
    ∃ done m', swamEnsureSharedMemory calloc m = some (done, m') ∧ (copySegments m').isSome := by
  obtain ⟨segments, copied⟩ := Option.isSome_iff_exists.mp copyable
  have rebuild (initial maximum : Nat) (memory64 : Bool) (name : String) :
      ∃ done m', swamEnsureSharedMemory.rebuild calloc m initial maximum memory64 name =
        some (done, m') ∧ (copySegments m').isSome := by
    unfold swamEnsureSharedMemory.rebuild
    split
    · exact ⟨_, _, rfl, copyable⟩
    · rw [copied]
      exact ⟨_, _, rfl, copySegments_again copied rfl⟩
  unfold swamEnsureSharedMemory
  dsimp only
  split
  · split
    · exact ⟨_, _, rfl, copyable⟩
    · exact rebuild ..
  · exact rebuild ..

private theorem swamEnsurePassiveDataSegment_returns {m : Module} (calloc : Bool)
    (name : Option String) (copyable : (copySegments m).isSome) :
    ∃ done m', swamEnsurePassiveDataSegment calloc m name = some (done, m') := by
  obtain ⟨segments, copied⟩ := Option.isSome_iff_exists.mp copyable
  unfold swamEnsurePassiveDataSegment
  split
  · exact ⟨_, _, rfl⟩
  · split
    · exact ⟨_, _, rfl⟩
    · rw [copied]
      exact ⟨_, _, rfl⟩

theorem swamAddFeatures_segments (s : SwamScenario) (m : Module) :
    (swamAddFeatures s m).segments = m.segments := by
  unfold swamAddFeatures Module.addFeature
  dsimp only
  split <;> split <;> split <;> rfl

/-- Instantiation comes back when the data segments of its module can be copied. -/
theorem swamInstantiateScenario_returns (env : ExploitEnv) (reached : Nat) (s : SwamScenario)
    {m : Module} (r : Rand) (copyable : (copySegments m).isSome) :
    (swamInstantiateScenario env reached s m r).isSome := by
  obtain ⟨m₁, r₁, memory, copyable₁⟩ : ∃ m₁ r₁,
      (if m.hasMemory then some (m, r) else wasmSetMemory m false r) = some (m₁, r₁) ∧
        (copySegments m₁).isSome := by
    split
    · exact ⟨m, r, rfl, copyable⟩
    next fresh => exact wasmSetMemory_returns r (by simpa using fresh) copyable
  obtain ⟨done, m₂, shared, copyable₂⟩ : ∃ done m₂,
      (if s.opClass.isAtomic then swamEnsureSharedMemory env.calloc m₁ else some (true, m₁)) =
        some (done, m₂) ∧ (copySegments m₂).isSome := by
    split
    · exact swamEnsureSharedMemory_returns _ copyable₁
    · exact ⟨true, m₁, rfl, copyable₁⟩
  rw [← copySegments_congr (swamAddFeatures_segments s m₂)] at copyable₂
  obtain ⟨done', m₃, segment⟩ : ∃ done' m₃,
      (if s.opClass = .bulkInit then swamEnsurePassiveDataSegment env.calloc
        (swamAddFeatures s m₂) (swamGetMemoryName (swamAddFeatures s m₂))
      else some (true, swamAddFeatures s m₂)) = some (done', m₃) := by
    split
    · exact swamEnsurePassiveDataSegment_returns _ _ copyable₂
    · exact ⟨true, _, rfl⟩
  unfold swamInstantiateScenario
  dsimp only
  rw [memory, Option.bind_some, shared, Option.bind_some]
  split
  · rfl
  · rw [segment, Option.bind_some]
    split <;> rfl

/-! ## A small case -/

/-- Services that accept every module. -/
def ExploitEnv.accepting : ExploitEnv where
  doubles := .exact
  calloc := true
  validate := fun _ => true
  finalize := fun _ _ => Ty.none

/-- A module of one exported function and one memory of the given size. -/
def oneFunctionModule (pages : Nat) : Module where
  functions := [⟨"f", Ty.none, Ty.none, [], .node .nop []⟩]
  globals := []
  exports := [⟨"f", .function, "f"⟩]
  memories := [⟨"0", pages, none, false, false⟩]
  segments := []
  tables := []
  features := []

end Swam
