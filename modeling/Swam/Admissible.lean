import Swam.Exploit
import Swam.ProbeTrap

/-!
# Which probes are admissible

A probe is admissible when the memory it targets has at least one page and a byte
size its address arithmetic represents. Instantiation keeps the size of a memory it
finds, so admissibility is decided by the module it is given.
-/
namespace Swam

open Binaryen

/-! ## The probe is placed in the function body -/

section Placement

variable {D : Doubles}

/-- Every collected entry points at a block of the root. -/
def PointAtBlocks (root : Expr) (blocks : List (SwamScoredBlock D)) : Prop :=
  ∀ b ∈ blocks, ∃ name ty cs, root.at? b.block = some (.node (.block name ty) cs)

/-- Collecting from `e` keeps the entries pointing at blocks. -/
private def Collects (D : Doubles) (e : Expr) : Prop :=
  ∀ root path score depth (blocks : List (SwamScoredBlock D)), root.at? path = some e →
    PointAtBlocks root blocks →
    PointAtBlocks root (swamCollectScoredBlocks D swamMaxBlocks e path score depth blocks)

private theorem ite_points {root : Expr} {as bs : List (SwamScoredBlock D)} {c : Bool}
    (pa : PointAtBlocks root as) (pb : PointAtBlocks root bs) :
    PointAtBlocks root (if c then as else bs) := by
  split
  · exact pa
  · exact pb

private theorem collectBlock_points {root : Expr} {path : List Nat} {cs : List Expr}
    (each : ∀ c ∈ cs, Collects D c) {i : Nat}
    (children : ∀ j c, cs[j]? = some c → root.at? (path ++ [i + j]) = some c)
    (score : D.Carrier) (depth : Nat) {blocks : List (SwamScoredBlock D)}
    (points : PointAtBlocks root blocks) :
    PointAtBlocks root (collectBlock D swamMaxBlocks cs i path score depth blocks) := by
  induction cs generalizing i score blocks with
  | nil => simpa [collectBlock] using points
  | cons c cs ih =>
    unfold collectBlock
    split
    · exact points
    · have here := each c List.mem_cons_self root _ score depth blocks (children 0 c rfl) points
      have rest (next : D.Carrier) := ih (fun c member => each c (List.mem_cons_of_mem _ member))
        (fun j c' at_ => by
          rw [Nat.add_assoc, Nat.add_comm 1 j]
          exact children (j + 1) c' at_) next here
      have both (next : D.Carrier) : PointAtBlocks root (if D.le next (D.ofRat 0) then _ else _) :=
        ite_points here (rest next)
      exact both _

private theorem collectCatches_points {root : Expr} {path : List Nat} {cs : List Expr}
    (each : ∀ c ∈ cs, Collects D c) {i : Nat}
    (children : ∀ j c, cs[j]? = some c → root.at? (path ++ [i + j]) = some c)
    (score : D.Carrier) (depth : Nat) {blocks : List (SwamScoredBlock D)}
    (points : PointAtBlocks root blocks) :
    PointAtBlocks root (collectCatches D swamMaxBlocks cs i path score depth blocks) := by
  induction cs generalizing i blocks with
  | nil => simpa [collectCatches] using points
  | cons c cs ih =>
    unfold collectCatches
    split
    · exact points
    · refine ih (fun c member => each c (List.mem_cons_of_mem _ member)) ?_ ?_
      · intro j c' at_
        rw [Nat.add_assoc, Nat.add_comm 1 j]
        exact children (j + 1) c' at_
      · exact each c List.mem_cons_self root _ score depth blocks (children 0 c rfl) points

/-- Induction over the expression: the traversal extends the path by the position of
the child it enters. -/
private theorem collects (e : Expr) : Collects D e := by
  induction e with
  | null =>
    intro root path score depth blocks _ points
    simpa [swamCollectScoredBlocks] using points
  | node k cs ih =>
    intro root path score depth blocks here points
    have child {i c} (at_ : cs[i]? = some c) := Expr.at?_child here at_
    unfold swamCollectScoredBlocks
    split
    · exact points
    · split
      next name ty =>
        refine collectBlock_points ih (fun j c at_ => ?_) _ _ ?_
        · rw [Nat.zero_add]
          exact child at_
        · intro b member
          rcases List.mem_append.mp member with old | new
          · exact points b old
          · cases List.mem_singleton.mp new
            exact ⟨name, ty, cs, here⟩
      · unfold collectArms
        split
        · refine ih _ (by simp) root _ _ _ _ (child rfl) ?_
          exact ih _ (by simp) root _ _ _ _ (child rfl) points
        · exact points
      · unfold collectBody
        split
        · exact ih _ (by simp) root _ _ _ _ (child rfl) points
        · exact points
      · unfold collectTry
        split
        next body catches _ _ _ _ =>
          refine collectCatches_points (fun c member => ih c (List.mem_cons_of_mem _ member))
            (fun j c at_ => ?_) _ _ ?_
          · rw [Nat.add_comm]
            exact child at_
          · exact ih _ (by simp) root _ _ _ _ (child rfl) points
        · exact points
      · exact points

/-- The blocks that are scored are blocks of the expression. -/
theorem swamCollectScoredBlocks_points (e : Expr) (score : D.Carrier) (depth : Nat) :
    PointAtBlocks e (swamCollectScoredBlocks D swamMaxBlocks e [] score depth []) :=
  collects e e [] score depth [] rfl (by simp [PointAtBlocks])

theorem selectByWeight_lt (r : D.Carrier) (bs : List (SwamScoredBlock D)) (cumulative : D.Carrier)
    (i : Nat) (positive : 0 < i + bs.length) :
    selectByWeight D r bs cumulative i < i + bs.length := by
  induction bs generalizing cumulative i with
  | nil =>
    simp [selectByWeight] at positive ⊢
    omega
  | cons b bs ih =>
    unfold selectByWeight
    dsimp only
    split
    · simp
    · have := ih (D.add cumulative b.score) (i + 1) (by omega)
      simp only [List.length_cons]
      omega

theorem swamWeightedBlockSelect_lt {blocks : List (SwamScoredBlock D)}
    (positive : 0 < blocks.length) (r : Rand) :
    (swamWeightedBlockSelect D blocks r).1 < blocks.length := by
  unfold swamWeightedBlockSelect
  split
  · exact positive
  · dsimp only
    split
    · exact randBelow_lt positive r
    · have := selectByWeight_lt (D.mul (D.ofRat (((randBelow 1000000 r).1 : ℚ) / 1000000))
        (blocks.foldl (fun total b => D.add total b.score) (D.ofRat 0))) blocks (D.ofRat 0) 0
        (by omega)
      simpa using this

end Placement

theorem mem_nodes_insertChild (env : ExploitEnv) {pos : Nat} {child : Expr} {name : Option String}
    {ty : Ty} {cs : List Expr} (inside : pos ≤ cs.length) {x : Expr} (member : x ∈ child.nodes) :
    x ∈ (insertChild env pos child (.node (.block name ty) cs)).nodes := by
  unfold insertChild
  refine Expr.mem_nodes_child ?_ member
  exact (List.mem_insertIdx inside).mpr (.inl rfl)

private theorem insertPos_le (keepLast : Prop) [Decidable keepLast] (n : Nat) (r : Rand) :
    (randBelow (if keepLast ∧ n > 0 then n else n + 1) r).1 ≤ n := by
  split
  next h => exact Nat.le_of_lt (randBelow_lt h.2 r)
  · exact Nat.le_of_lt_succ (randBelow_lt (Nat.succ_pos n) r)

/-- `body'` is `body` with the probe in one of its blocks, which is finalized, or before
all of it. -/
inductive ProbePlaced (env : ExploitEnv) (probe body : Expr) : Expr → Prop where
  | inBlock {path : List Nat} {name : Option String} {ty : Ty} {cs : List Expr} {pos : Nat}
      (block : body.at? path = some (.node (.block name ty) cs)) (inside : pos ≤ cs.length) :
      ProbePlaced env probe body (body.modifyAt path (insertChild env pos probe))
  | wrapped : ProbePlaced env probe body (.node (.block none body.ty) [probe, body])

theorem placeProbe_placed (env : ExploitEnv) (reached : Nat) (body probe : Expr) (r : Rand) :
    ProbePlaced env probe body (placeProbe env reached body probe r).1 := by
  unfold placeProbe
  dsimp only
  split
  next nonempty =>
    have points : PointAtBlocks body (swamCollectScoredBlocks env.doubles swamMaxBlocks body []
        (env.doubles.ofRat 1) 0 []) := swamCollectScoredBlocks_points body _ 0
    generalize swamCollectScoredBlocks env.doubles swamMaxBlocks body [] (env.doubles.ofRat 1) 0 [] = blocks
      at points nonempty ⊢
    have boosted : PointAtBlocks body
        (if reached > 0 then swamApplyDepthBoost env.doubles blocks else blocks) := by
      split
      · intro b member
        obtain ⟨b', member', rfl⟩ := List.mem_map.mp member
        exact points b' member'
      · exact points
    have count : 0 < (if reached > 0 then swamApplyDepthBoost env.doubles blocks
        else blocks).length := by
      split
      · simpa [swamApplyDepthBoost] using nonempty
      · exact nonempty
    generalize (if reached > 0 then swamApplyDepthBoost env.doubles blocks else blocks) = chosen
      at boosted count ⊢
    have selected := swamWeightedBlockSelect_lt count r
    generalize swamWeightedBlockSelect env.doubles chosen r = pick at selected ⊢
    obtain ⟨name, ty, cs, here⟩ := boosted _ (List.getElem_mem selected)
    rw [List.getElem?_eq_getElem selected]
    simp only [Option.map_some, Option.getD_some, here]
    exact .inBlock here (insertPos_le _ _ _)
  · exact .wrapped

/-- Wherever it is put, the probe is a node of the new body. -/
theorem mem_nodes_placeProbe (env : ExploitEnv) (reached : Nat) (body probe : Expr) (r : Rand)
    {x : Expr} (member : x ∈ probe.nodes) : x ∈ (placeProbe env reached body probe r).1.nodes := by
  have placed := placeProbe_placed env reached body probe r
  generalize (placeProbe env reached body probe r).1 = body' at placed ⊢
  cases placed with
  | inBlock block inside =>
    exact Expr.mem_nodes_modifyAt block (mem_nodes_insertChild env inside member)
  | wrapped => exact Expr.mem_nodes_child (by simp) member

/-! ## The memory the probe targets -/

theorem swamEnsureMarkerGlobal_memories (m : Module) (name : String) :
    (swamEnsureMarkerGlobal m name).memories = m.memories ∧
      (swamEnsureMarkerGlobal m name).segments = m.segments := by
  unfold swamEnsureMarkerGlobal
  dsimp only
  split <;> split <;> exact ⟨rfl, rfl⟩

theorem swamAddMarkerGlobals_memories (m : Module) :
    (swamAddMarkerGlobals m).memories = m.memories ∧
      (swamAddMarkerGlobals m).segments = m.segments := by
  have first := swamEnsureMarkerGlobal_memories m swamMarkerBefore
  have second := swamEnsureMarkerGlobal_memories (swamEnsureMarkerGlobal m swamMarkerBefore)
    swamMarkerAfter
  exact ⟨second.1.trans first.1, second.2.trans first.2⟩

theorem swamEnsureMarkerGlobal_functions (m : Module) (name : String) :
    (swamEnsureMarkerGlobal m name).functions = m.functions := by
  unfold swamEnsureMarkerGlobal
  dsimp only
  split <;> split <;> rfl

theorem swamAddMarkerGlobals_functions (m : Module) :
    (swamAddMarkerGlobals m).functions = m.functions := by
  simp [swamAddMarkerGlobals, swamEnsureMarkerGlobal_functions]

/-- A function of the module holds a probe of the scenario. -/
def HoldsProbe (m : Module) (s : SwamScenario) (memName : String) (is64 : Bool) : Prop :=
  ∃ f ∈ m.functions, ∃ idx, (swamBuildProbe m (some s) idx memName is64).2 ∈ f.body.nodes

private theorem setBody_frame (m : Module) {idx : Nat} {func : Func}
    (at_ : m.functions[idx]? = some func) (vars : List Ty) (body : Expr) :
    let m' := (swamAddMarkerGlobals (m.setFunction idx { func with vars })).setBody idx body
    (m'.memories = m.memories ∧ m'.segments = m.segments) ∧
      { func with vars, body } ∈ m'.functions := by
  have frame := swamAddMarkerGlobals_memories (m.setFunction idx { func with vars })
  refine ⟨frame, List.mem_of_getElem? (i := idx) ?_⟩
  have inside : idx < m.functions.length := List.getElem?_eq_some_iff.mp at_ |>.1
  simp [Module.setBody, swamAddMarkerGlobals_functions, Module.setFunction, inside]

section Attempts

variable {env : ExploitEnv} {reached : Nat} {s : SwamScenario} {memName : String} {is64 : Bool}

theorem swamAttempt_spec {m m' : Module} {r r' : Rand} {fail : Option String}
    (attempt : swamAttempt env reached s memName is64 m r = (fail, m', r')) :
    (m'.memories = m.memories ∧ m'.segments = m.segments) ∧
      (fail = none → HoldsProbe m' s memName is64) := by
  unfold swamAttempt at attempt
  split at attempt
  · cases attempt
    exact ⟨⟨rfl, rfl⟩, fun h => by cases h⟩
  next idx r₁ choice =>
    split at attempt
    · cases attempt
      exact ⟨⟨rfl, rfl⟩, fun h => by cases h⟩
    next func at_ =>
      dsimp only [swamBuildProbe] at attempt
      -- the same module is validated in either outcome
      have frame := setBody_frame m at_ (func.vars ++ [indexTy is64])
      split at attempt
      · cases attempt
        refine ⟨(frame _).1, fun _ => ⟨_, (frame _).2, ?_⟩⟩
        exact ⟨_, mem_nodes_placeProbe env reached _ _ _ (Expr.mem_nodes_self _ _)⟩
      · cases attempt
        exact ⟨(frame _).1, fun h => by cases h⟩

theorem swamAttempts_spec {n : Nat} {reason : String} {m m' : Module} {r r' : Rand}
    {fail : Option String}
    (attempts : swamAttempts env reached s memName is64 n reason m r = (fail, m', r')) :
    (m'.memories = m.memories ∧ m'.segments = m.segments) ∧
      (fail = none → HoldsProbe m' s memName is64) := by
  induction n generalizing reason m r with
  | zero =>
    cases attempts
    exact ⟨⟨rfl, rfl⟩, fun h => by cases h⟩
  | succ n ih =>
    unfold swamAttempts at attempts
    split at attempts
    next m₁ r₁ one =>
      cases attempts
      exact swamAttempt_spec one
    next reason' m₁ r₁ one =>
      have first := (swamAttempt_spec one).1
      have rest := ih attempts
      exact ⟨⟨rest.1.1.trans first.1, rest.1.2.trans first.2⟩, rest.2⟩

end Attempts

theorem Module.getMemory_head {m : Module} {mem : Memory} (head : m.memories.head? = some mem) :
    (swamGetMemoryName m).bind m.getMemory = some mem := by
  cases memories : m.memories with
  | nil => simp [memories] at head
  | cons first rest =>
    simp only [memories, List.head?_cons, Option.some.injEq] at head
    simp [swamGetMemoryName, memories, Module.getMemory, head]

/-- Instantiation replaces the memory by a copy whose size went through a
`BinaryenIndex`. -/
def SwamScenario.Rebuilds (s : SwamScenario) (mem : Memory) : Prop :=
  (s.opClass.isAtomic ∧ ¬ (mem.max.isSome ∧ mem.shared)) ∨ s.opClass = .bulkInit

instance (s : SwamScenario) (mem : Memory) : Decidable (s.Rebuilds mem) :=
  inferInstanceAs (Decidable (_ ∨ _))

/-- Initial size and index type of the memory a probe will target, read off the
module that instantiation is given. -/
def SwamScenario.targetSize (s : SwamScenario) (m : Module) : Nat × Bool :=
  match m.memories.head? with
  | none => (1, false)
  | some mem => (if s.Rebuilds mem then toIndex mem.initial else mem.initial, mem.is64)

theorem wasmSetMemory_fresh {m m' : Module} {r r' : Rand} (empty : m.memories = [])
    (set : wasmSetMemory m false r = some (m', r')) :
    m'.memories = [⟨"0", 1, none, false, false⟩] := by
  have settings : memorySettings m = some (1, 2 ^ 32 - 1, false, false) := by
    simp [memorySettings, Module.hasMemory, empty]
  rw [wasmSetMemory, settings, Option.bind_some] at set
  dsimp only at set
  split at set
  · obtain ⟨segments, _, equal⟩ := Option.map_eq_some_iff.mp set
    cases equal
    rfl
  · cases set
    rfl

theorem swamEnsureSharedMemory_memory {calloc : Bool} {m m' : Module} {mem : Memory}
    (head : m.memories.head? = some mem)
    (ensured : swamEnsureSharedMemory calloc m = some (true, m')) :
    ∃ mem', m'.memories.head? = some mem' ∧ mem'.is64 = mem.is64 ∧
      mem'.initial = if mem.max.isSome ∧ mem.shared then mem.initial else toIndex mem.initial := by
  unfold swamEnsureSharedMemory at ensured
  rw [Module.getMemory_head head] at ensured
  have max : mem.getMax.isSome = mem.max.isSome := by simp [Memory.getMax]
  dsimp only at ensured
  rw [max] at ensured
  split at ensured
  next kept =>
    cases ensured
    exact ⟨mem, head, rfl, by rw [if_pos kept]⟩
  next replaced =>
    rw [if_neg replaced]
    unfold swamEnsureSharedMemory.rebuild at ensured
    split at ensured
    · cases ensured
    · obtain ⟨segments, _, equal⟩ := Option.map_eq_some_iff.mp ensured
      obtain ⟨_, rfl⟩ := Prod.mk.inj equal
      exact ⟨_, rfl, rfl, rfl⟩

theorem swamEnsurePassiveDataSegment_memory {calloc : Bool} {m m' : Module} {mem : Memory}
    (head : m.memories.head? = some mem)
    (ensured : swamEnsurePassiveDataSegment calloc m (swamGetMemoryName m) = some (true, m')) :
    (∃ mem', m'.memories.head? = some mem' ∧ mem'.is64 = mem.is64 ∧
      mem'.initial = toIndex mem.initial) ∧
    ⟨swamBulkSegmentName, true, none, [0x42]⟩ ∈ m'.segments := by
  unfold swamEnsurePassiveDataSegment at ensured
  rw [Module.getMemory_head head] at ensured
  dsimp only at ensured
  split at ensured
  · cases ensured
  · obtain ⟨segments, _, equal⟩ := Option.map_eq_some_iff.mp ensured
    cases equal
    exact ⟨⟨_, rfl, rfl, rfl⟩, by simp [Module.setMemory]⟩

theorem swamAddFeatures_memories (s : SwamScenario) (m : Module) :
    (swamAddFeatures s m).memories = m.memories := by
  unfold swamAddFeatures
  dsimp only
  split <;> split <;> split <;> rfl

/-- What a successful instantiation leaves: a probe on the first memory, whose size
was fixed by the module given. -/
theorem swamInstantiateScenario_spec {env : ExploitEnv} {reached : Nat} {s : SwamScenario}
    {m m' : Module} {r r' : Rand}
    (returned : swamInstantiateScenario env reached s m r = some (none, m', r')) :
    ∃ mem, m'.memories.head? = some mem ∧ (mem.initial, mem.is64) = s.targetSize m ∧
      HoldsProbe m' s mem.name mem.is64 ∧
      (s.opClass = .bulkInit → ⟨swamBulkSegmentName, true, none, [0x42]⟩ ∈ m'.segments) := by
  unfold swamInstantiateScenario at returned
  obtain ⟨⟨m₁, r₁⟩, created, returned⟩ := Option.bind_eq_some_iff.mp returned
  obtain ⟨⟨shared, m₂⟩, ensured, returned⟩ := Option.bind_eq_some_iff.mp returned
  dsimp only at created ensured returned
  split at returned
  · cases returned
  next sharedTrue =>
  obtain ⟨⟨segment, m₃⟩, segmented, returned⟩ := Option.bind_eq_some_iff.mp returned
  dsimp only at segmented returned
  split at returned
  · cases returned
  next segmentTrue =>
  simp only [Option.some.injEq] at returned
  simp only [Bool.not_eq_false] at sharedTrue segmentTrue
  subst sharedTrue segmentTrue
  -- the memory after creation, after sharing, and after adding the segment
  obtain ⟨mem₁, head₁, size₁⟩ : ∃ mem, m₁.memories.head? = some mem ∧
      (m.memories.head? = none ∧ mem = ⟨"0", 1, none, false, false⟩ ∨
        m.memories.head? = some mem) := by
    split at created
    next has =>
      cases created
      obtain ⟨mem, head⟩ : ∃ mem, m.memories.head? = some mem := by
        cases memories : m.memories <;> simp_all [Module.hasMemory]
      exact ⟨mem, head, .inr head⟩
    next hasNot =>
      have empty : m.memories = [] := by simpa [Module.hasMemory] using hasNot
      exact ⟨_, by rw [wasmSetMemory_fresh empty created]; rfl, .inl ⟨by simp [empty], rfl⟩⟩
  obtain ⟨mem₂, head₂, is64₂, initial₂⟩ : ∃ mem, m₂.memories.head? = some mem ∧
      mem.is64 = mem₁.is64 ∧ mem.initial = if s.opClass.isAtomic ∧ ¬ (mem₁.max.isSome ∧ mem₁.shared)
        then toIndex mem₁.initial else mem₁.initial := by
    split at ensured
    next atomic =>
      obtain ⟨mem, head, is64, initial⟩ := swamEnsureSharedMemory_memory head₁ ensured
      refine ⟨mem, head, is64, ?_⟩
      rw [initial]
      by_cases keep : mem₁.max.isSome ∧ mem₁.shared <;> simp [atomic, keep]
    next other =>
      cases ensured
      exact ⟨mem₁, head₁, rfl, by simp [other]⟩
  have head₂' : (swamAddFeatures s m₂).memories.head? = some mem₂ := by
    rw [swamAddFeatures_memories, head₂]
  obtain ⟨mem₃, head₃, is64₃, initial₃, bulk⟩ : ∃ mem, m₃.memories.head? = some mem ∧
      mem.is64 = mem₂.is64 ∧
      (mem.initial = if s.opClass = .bulkInit then toIndex mem₂.initial else mem₂.initial) ∧
      (s.opClass = .bulkInit → ⟨swamBulkSegmentName, true, none, [0x42]⟩ ∈ m₃.segments) := by
    split at segmented
    next init =>
      obtain ⟨⟨mem, head, is64, initial⟩, member⟩ :=
        swamEnsurePassiveDataSegment_memory head₂' segmented
      exact ⟨mem, head, is64, by rw [initial, if_pos init], fun _ => member⟩
    next other =>
      cases segmented
      exact ⟨mem₂, head₂', rfl, by rw [if_neg other], fun init => absurd init other⟩
  have name₃ : (swamGetMemoryName m₃).getD "" = mem₃.name := by
    simp [swamGetMemoryName, head₃]
  have found : m₃.getMemory mem₃.name = some mem₃ := by
    have := Module.getMemory_head head₃
    rwa [swamGetMemoryName, head₃] at this
  rw [name₃, found] at returned
  obtain ⟨⟨memories, segments⟩, holds⟩ := swamAttempts_spec returned
  have frame := swamAddMarkerGlobals_memories m₃
  refine ⟨mem₃, by rw [memories, frame.1, head₃], ?_, holds rfl, ?_⟩
  · rw [initial₃, initial₂, is64₃, is64₂]
    rcases size₁ with ⟨absent, rfl⟩ | present
    · simp [SwamScenario.targetSize, absent, toIndex]
    · simp only [SwamScenario.targetSize, present, SwamScenario.Rebuilds]
      by_cases init : s.opClass = .bulkInit
      · simp [init, SwamOpClass.isAtomic]
      · simp [init]
  · intro init
    rw [segments, frame.2]
    exact bulk init

/-! ## Admissibility -/

/-- A store in which a module has just been instantiated: memories have their initial
size and passive segments are not dropped. -/
structure Fresh (m : Module) (σ : State) : Prop where
  pages : ∀ mem ∈ m.memories, (σ.mems mem.name).pages = mem.initial
  segments : ∀ seg ∈ m.segments, seg.passive → σ.segments seg.name = seg.data

/-- The probes of a scenario in a module target a memory of at least one page whose
byte size their address arithmetic represents, and run there as the scenario expects. -/
def ProbesAdmissible (m : Module) (s : SwamScenario) : Prop :=
  ∃ mem, m.memories.head? = some mem ∧ HoldsProbe m s mem.name mem.is64 ∧ 1 ≤ mem.initial ∧
    mem.initial * 65536 < (if mem.is64 then 2 ^ 64 else 2 ^ 32) ∧
    ∀ (R : Runtime) (σ : State) (idx : Nat), Fresh m σ → s.expected ≠ .unknown →
      ((∃ σ', Exec R (.one (swamBuildProbe m (some s) idx mem.name mem.is64).2) σ
          (.stop .trap) σ') ↔ s.expected = .trap) ∧
      ((∃ vss σ', Exec R (.one (swamBuildProbe m (some s) idx mem.name mem.is64).2) σ
          (.done vss) σ') ↔ s.expected = .noTrap)

/-- The entry condition: the module has no memory, or the size its first memory will
be given is at least one page and representable. -/
def SwamScenario.Admits (s : SwamScenario) (m : Module) : Prop :=
  1 ≤ (s.targetSize m).1 ∧
    (s.targetSize m).1 * 65536 < if (s.targetSize m).2 then 2 ^ 64 else 2 ^ 32

instance (s : SwamScenario) (m : Module) : Decidable (s.Admits m) :=
  inferInstanceAs (Decidable (_ ∧ _))

theorem probe_traps_iff {m : Module} {s : SwamScenario} {mem : Memory}
    (member : s ∈ swamScenarioCatalog) (head : m.memories.head? = some mem)
    (segment : s.opClass = .bulkInit → ⟨swamBulkSegmentName, true, none, [0x42]⟩ ∈ m.segments)
    (nonempty : 1 ≤ mem.initial) (small : mem.initial * 65536 < indexRange mem.is64)
    (R : Runtime) (σ : State) (idx : Nat) (fresh : Fresh m σ) (known : s.expected ≠ .unknown) :
    ((∃ σ', Exec R (.one (swamBuildProbe m (some s) idx mem.name mem.is64).2) σ
        (.stop .trap) σ') ↔ s.expected = .trap) ∧
    ((∃ vss σ', Exec R (.one (swamBuildProbe m (some s) idx mem.name mem.is64).2) σ
        (.done vss) σ') ↔ s.expected = .noTrap) := by
  have regular := swamScenarioCatalog_regular s member
  have accesses : s.opClass ≠ .memoryGrow := fun h => known (regular.unknown.mpr h)
  have pages : (σ.mems mem.name).pages = mem.initial :=
    fresh.pages mem (List.mem_of_mem_head? head)
  obtain ⟨⟨r, σ', run⟩, ends⟩ := @probe_ends s R σ idx mem.name mem.is64 m regular accesses
    (by rw [pages]; exact nonempty) (by rw [MemInst.size, pages]; exact small)
    (fun init => by simp [fresh.segments _ (segment init) rfl])
  constructor
  · constructor
    · rintro ⟨σ₁, run₁⟩
      rcases ends _ _ run₁ with ⟨trap, _⟩ | ⟨_, equal, _⟩
      · exact trap
      · cases equal
    · intro trap
      rcases ends _ _ run with ⟨_, rfl, _⟩ | ⟨noTrap, _⟩
      · exact ⟨σ', run⟩
      · rw [trap] at noTrap
        cases noTrap
  · constructor
    · rintro ⟨vss, σ₁, run₁⟩
      rcases ends _ _ run₁ with ⟨_, equal, _⟩ | ⟨noTrap, _⟩
      · cases equal
      · exact noTrap
    · intro noTrap
      rcases ends _ _ run with ⟨trap, _⟩ | ⟨_, rfl, _⟩
      · rw [trap] at noTrap
        cases noTrap
      · exact ⟨_, σ', run⟩

/-- The probes an instantiation emits are admissible exactly when the module it was
given has no memory or one of a representable, positive size. -/
theorem swamInstantiateScenario_admissible_iff (env : ExploitEnv) (reached : Nat)
    {s : SwamScenario} (member : s ∈ swamScenarioCatalog) (m m' : Module) (r r' : Rand)
    (returned : swamInstantiateScenario env reached s m r = some (none, m', r')) :
    ProbesAdmissible m' s ↔ s.Admits m := by
  obtain ⟨mem, head, size, holds, segment⟩ := swamInstantiateScenario_spec returned
  have initial : (s.targetSize m).1 = mem.initial := by rw [← size]
  have is64 : (s.targetSize m).2 = mem.is64 := by rw [← size]
  constructor
  · rintro ⟨mem', head', _, nonempty, small, _⟩
    rw [head] at head'
    cases head'
    refine ⟨?_, ?_⟩
    · rw [initial]
      exact nonempty
    · rw [initial, is64]
      exact small
  · rintro ⟨nonempty, small⟩
    rw [initial] at nonempty small
    rw [is64] at small
    exact ⟨mem, head, holds, nonempty, small,
      probe_traps_iff member head segment nonempty small⟩

/-- The row of `i32.load` at the last word of memory. -/
def boundaryLoad : SwamScenario :=
  ⟨2, .i32Load, .load, .boundary, .noTrap, 4, false, .i32, .noWrap, .na⟩

theorem swamInstantiateScenario_one_page :
    ∃ m' r', swamInstantiateScenario .accepting 0 boundaryLoad (oneFunctionModule 1)
      ⟨fun _ => 0, 0⟩ = some (none, m', r') ∧ ProbesAdmissible m' boundaryLoad :=
  ⟨_, _, rfl, (swamInstantiateScenario_admissible_iff .accepting 0 (by decide)
    (oneFunctionModule 1) _ ⟨fun _ => 0, 0⟩ _ rfl).mpr (by decide)⟩

/-- On a memory without pages a probe is still emitted, and it is not admissible. -/
theorem swamInstantiateScenario_empty_memory :
    ∃ m' r', swamInstantiateScenario .accepting 0 boundaryLoad (oneFunctionModule 0)
      ⟨fun _ => 0, 0⟩ = some (none, m', r') ∧ ¬ ProbesAdmissible m' boundaryLoad := by
  refine ⟨_, _, rfl, ?_⟩
  rintro ⟨mem, head, _, nonempty, _⟩
  obtain rfl : (⟨"0", 0, none, false, false⟩ : Memory) = mem := Option.some.inj head
  exact absurd nonempty (by decide)

end Swam
