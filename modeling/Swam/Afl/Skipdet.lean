import Mathlib.Algebra.Order.Ring.Int
import Mathlib.Tactic.Common

/-!
# Which bytes the deterministic stages fuzz

`skip_deterministic_stage` probes the bytes of a seed and marks those whose change put a new
entry into the queue; the deterministic stages of `fuzz_one_original` skip the others. The
writer keeps the marks as one byte each when built for SWAM and as one bit each otherwise,
the reader always takes them as bits.
-/
namespace Swam.Afl

abbrev Byte := BitVec 8

def cell (map : List Byte) (i : Nat) : Byte := map[i]?.getD 0

def bitmapSet (map : List Byte) (index : Nat) : List Byte :=
  map.modify (index / 8) (· ||| 1 <<< (index % 8))

def bitmapRead (map : List Byte) (index : Nat) : Bool :=
  (cell map (index / 8) >>> (index % 8)) &&& 1 ≠ 0

theorem bitmapRead_eq (map : List Byte) (index : Nat) :
    bitmapRead map index = (cell map (index / 8)).getLsbD (index % 8) := by
  change decide (cell map (index / 8) >>> (index % 8) &&& 1#8 ≠ 0#8) = _
  rw [BitVec.and_one_eq_setWidth_ofBool_getLsbD, BitVec.getLsbD_ushiftRight, Nat.add_zero]
  cases (cell map (index / 8)).getLsbD (index % 8) <;> rfl

theorem bitmapRead_bitmapSet {map : List Byte} {j : Nat} (inside : j / 8 < map.length)
    (i : Nat) : bitmapRead (bitmapSet map j) i = (bitmapRead map i || i = j) := by
  simp only [bitmapRead_eq, cell, bitmapSet]
  by_cases same : j / 8 = i / 8
  · have bit : (1#8 <<< (j % 8)).getLsbD (i % 8) = decide (i = j) := by
      rw [BitVec.getLsbD_shiftLeft, BitVec.getLsbD_one]
      by_cases equal : i = j
      · simp [equal, Nat.mod_lt]
      · have above : ¬ (j % 8 ≤ i % 8 ∧ i % 8 - j % 8 = 0) := by omega
        simp [equal]
        omega
    rw [← same, List.getElem?_modify_eq, List.getElem?_eq_getElem inside]
    exact (BitVec.getLsbD_or ..).trans (congrArg _ bit)
  · have differ : i ≠ j := fun equal => same (equal ▸ rfl)
    rw [List.getElem?_modify_ne _ _ same]
    simp [differ]

@[simp] theorem length_bitmapSet (map : List Byte) (j : Nat) :
    (bitmapSet map j).length = map.length := List.length_modify ..

theorem bitmapRead_replicate_zero (len i : Nat) : bitmapRead (List.replicate len 0) i = false := by
  rw [bitmapRead_eq, cell, List.getElem?_replicate]
  split <;> simp

/-! ## The writer -/

/-- With or without `AFL_SWAM`. -/
inductive EffBuild where
  | swam | upstream
  deriving DecidableEq, Repr

namespace EffBuild

def blank (build : EffBuild) (len : Nat) : List Byte :=
  match build with
  | swam => List.replicate len 0
  | upstream => List.replicate ((len + 7) / 8) 0

def set (build : EffBuild) (map : List Byte) (i : Nat) : List Byte :=
  match build with
  | swam => map.set i 1
  | upstream => bitmapSet map i

/-- The writer's own reading of its map. -/
def read (build : EffBuild) (map : List Byte) (i : Nat) : Bool :=
  match build with
  | swam => cell map i ≠ 0
  | upstream => bitmapRead map i

end EffBuild

/-- What one probe meets: the time limit before it, a failed execution, new queue entries,
the checksum of the unchanged seed. -/
structure Response where
  timedOut : Bool
  failed : Bool
  queued : Bool
  sameCksum : Bool
  deriving DecidableEq, Repr

/-- The seed's length, the result of the inference phase and the environment's switches. -/
structure EffConfig where
  build : EffBuild
  len : Nat
  infEffMap : List Byte
  repeatEff : Bool
  fuzzNearby : Bool

/-- The locals of the quick phase; `probes` records each probed byte and whether its probe
put a new entry into the queue. -/
structure QuickEff where
  stageCur : Nat
  stageMax : Nat
  skipEffMap : List Byte
  doneInfMap : List Byte
  nonEffBytes : List Byte
  effRoundContinue : Bool
  doneEff : Bool
  quickEffBytes : Nat
  execs : Nat
  probes : List (Nat × Bool)

/-- Before the first round: no byte is marked. -/
def QuickEff.initial (cfg : EffConfig) (start : Nat) (doneInfMap : List Byte)
    (quickEffBytes execs : Nat) : QuickEff where
  stageCur := start
  stageMax := 32 * 1024
  skipEffMap := cfg.build.blank cfg.len
  doneInfMap := doneInfMap
  nonEffBytes := List.replicate cfg.len 0
  effRoundContinue := true
  doneEff := false
  quickEffBytes := quickEffBytes
  execs := execs
  probes := []

def maximumQuickEffExecs : Nat := 64 * 1024

/-- After the execution with byte `stage_cur` replaced. -/
def QuickEff.record (cfg : EffConfig) (response : Response) (s : QuickEff) : QuickEff :=
  let i := s.stageCur
  let s := if cfg.fuzzNearby ∧ response.sameCksum then
      { s with nonEffBytes := s.nonEffBytes.set i 1 }
    else s
  let s := if response.queued then
      let stageMax := if s.stageMax < maximumQuickEffExecs then s.stageMax * 2 else s.stageMax
      { s with
        skipEffMap := cfg.build.set s.skipEffMap i
        quickEffBytes := s.quickEffBytes + 1
        stageMax
        effRoundContinue :=
          if stageMax = maximumQuickEffExecs ∧ cfg.repeatEff then true else s.effRoundContinue }
    else s
  { s with
    doneInfMap := cfg.build.set s.doneInfMap i
    stageCur := i + 1
    probes := (i, response.queued) :: s.probes }

/-- How a loop of probes is left: at its end, by `goto cleanup_skipdet`, by `return 0`. -/
inductive EffExit where
  | finished | timedOut | failed
  deriving DecidableEq, Repr

/-- One round over the bytes; responses are numbered by execution. -/
def quickEffRound (cfg : EffConfig) (target : Nat → Response) : Nat → QuickEff → EffExit × QuickEff
  | 0, s => (.finished, s)
  | n + 1, s =>
    if s.stageCur < s.stageMax ∧ s.stageCur < cfg.len then
      if cell cfg.infEffMap s.stageCur = 0 ∨ cfg.build.read s.skipEffMap s.stageCur then
        quickEffRound cfg target n { s with stageCur := s.stageCur + 1 }
      else
        let response := target s.execs
        if response.timedOut then (.timedOut, s)
        else
          let s := { s with execs := s.execs + 1 }
          if response.failed then (.failed, s)
          else quickEffRound cfg target n (s.record cfg response)
    else (.finished, s)

/-- At most eight rounds, the next one only while the last asks for it. -/
def quickEffRounds (cfg : EffConfig) (target : Nat → Response) :
    Nat → QuickEff → EffExit × QuickEff
  | 0, s => (.finished, s)
  | n + 1, s =>
    match quickEffRound cfg target cfg.len
        { s with effRoundContinue := false, stageMax := 32 * 1024 } with
    | (.finished, s) =>
      let s := { s with stageCur := 0, doneEff := true }
      if s.effRoundContinue then quickEffRounds cfg target n s else (.finished, s)
    | stopped => stopped

/-- The neighbours of marked bytes, from byte `3` on. -/
def nearbyBytes (cfg : EffConfig) (map : List Byte) : Nat → Nat → List Byte → List Byte
  | 0, _, nearby => nearby
  | n + 1, i, nearby =>
    if i < cfg.len then
      if cfg.build.read map i then
        let fillLength := if i + 3 < cfg.len then 7 else cfg.len - i + 2
        let filled := nearby.zipIdx.map fun (b, j) =>
          if i - 3 ≤ j ∧ j < i - 3 + fillLength then 1 else b
        nearbyBytes cfg map n (i + 3) filled
      else nearbyBytes cfg map n (i + 1) nearby
    else nearby

/-- `cleanup_skipdet`: with `FUZZ_NEARBY`, effective neighbours are marked as well. -/
def markNearby (cfg : EffConfig) (s : QuickEff) : QuickEff :=
  if cfg.fuzzNearby then
    let nearby := nearbyBytes cfg s.skipEffMap cfg.len 3 (List.replicate cfg.len 0)
    let mark (map : List Byte) (i : Nat) : List Byte :=
      if cell nearby i ≠ 0 ∧ cell s.nonEffBytes i = 0 then cfg.build.set map i else map
    { s with skipEffMap := (List.range cfg.len).foldl mark s.skipEffMap }
  else s

/-- The quick phase of `skip_deterministic_stage`; `none` when an execution fails. The map of
marks starts empty, the search at the first byte not inferred earlier. -/
def skipDeterministicStage (cfg : EffConfig) (target : Nat → Response)
    (doneInfMap : Option (List Byte)) (quickEffBytes : Nat) : Option QuickEff :=
  let done := doneInfMap.getD (cfg.build.blank cfg.len)
  let start := match doneInfMap with
    | none => 0
    | some done => ((List.range cfg.len).find? fun i => ¬ cfg.build.read done i).getD cfg.len
  -- the clean checksum that `FUZZ_NEARBY` compares with takes an execution of its own
  if cfg.fuzzNearby ∧ (target 0).failed then none
  else
    let execs := if cfg.fuzzNearby then 1 else 0
    match quickEffRounds cfg target 8 (.initial cfg start done quickEffBytes execs) with
    | (.failed, _) => none
    | (_, s) => some (markNearby cfg s)

/-! ## The readers -/

/-- The deterministic stages. -/
inductive DetStage where
  | flip1 | flip2 | flip4 | flip8 | flip16 | flip32
  | arith8 | arith16 | arith32
  | interest8 | interest16 | interest32
  | extrasOverwrite | extrasInsert | autoExtrasOverwrite | autoExtrasInsert
  deriving DecidableEq, Repr

/-- The number of rounds of a stage's outer loop. -/
def DetStage.rounds (len : Nat) : DetStage → Nat
  | flip1 => len * 8
  | flip2 => len * 8 - 1
  | flip4 => len * 8 - 3
  | flip8 | arith8 | interest8 | extrasOverwrite | autoExtrasOverwrite => len
  | flip16 | arith16 | interest16 => len - 1
  | flip32 | arith32 | interest32 => len - 3
  | extrasInsert | autoExtrasInsert => len + 1

/-- The byte whose mark decides round `pos`. -/
def DetStage.byte (len pos : Nat) : DetStage → Nat
  | flip1 | flip2 | flip4 => pos / 8
  | extrasInsert | autoExtrasInsert => pos % len
  | _ => pos

/-- The round is not skipped. -/
def DetStage.processes (stage : DetStage) (len : Nat) (skipEffMap : List Byte) (pos : Nat) : Bool :=
  bitmapRead skipEffMap (stage.byte len pos)

/-- Every round of every stage is taken exactly when the writer marked its byte. -/
def StagesAgree (build : EffBuild) (len : Nat) (skipEffMap : List Byte) : Prop :=
  ∀ stage : DetStage, ∀ pos < stage.rounds len,
    stage.processes len skipEffMap pos = build.read skipEffMap (stage.byte len pos)

/-! ## What the writer leaves -/

private theorem cell_set {map : List Byte} {i : Nat} (bound : i < map.length) (b : Byte) (j : Nat) :
    cell (map.set i b) j = if i = j then b else cell map j := by
  simp only [cell, List.getElem?_set, bound]
  split <;> simp

private theorem cell_replicate (len j : Nat) : cell (List.replicate len 0) j = 0 := by
  simp only [cell, List.getElem?_replicate]
  split <;> rfl

/-- The byte map holds a one for each byte with a successful probe and zeroes elsewhere. -/
structure Marked (len : Nat) (s : QuickEff) : Prop where
  size : s.skipEffMap.length = len
  cells : ∀ i, cell s.skipEffMap i = if (i, true) ∈ s.probes then 1 else 0
  inside : ∀ p ∈ s.probes, p.1 < len

theorem Marked.record {cfg : EffConfig} {s : QuickEff} (swam : cfg.build = .swam)
    (response : Response) (bound : s.stageCur < cfg.len) (marked : Marked cfg.len s) :
    Marked cfg.len (s.record cfg response) := by
  -- the bookkeeping of FUZZ_NEARBY touches neither the map nor the probes
  have map : (s.record cfg response).skipEffMap =
      if response.queued then s.skipEffMap.set s.stageCur 1 else s.skipEffMap := by
    simp only [QuickEff.record, swam, EffBuild.set]
    split <;> split <;> rfl
  have probes : (s.record cfg response).probes =
      (s.stageCur, response.queued) :: s.probes := by
    simp only [QuickEff.record]
    split <;> split <;> rfl
  constructor
  · rw [map]
    split
    · rw [List.length_set]
      exact marked.size
    · exact marked.size
  · intro i
    rw [map, probes]
    cases queued : response.queued with
    | true =>
      rw [if_pos rfl, cell_set (by rw [marked.size]; exact bound), marked.cells]
      by_cases same : s.stageCur = i
      · simp [same]
      · have other : i ≠ s.stageCur := fun equal => same equal.symm
        simp [same, other]
    | false => simp [marked.cells]
  · intro p member
    rw [probes] at member
    rcases List.mem_cons.mp member with rfl | earlier
    · exact bound
    · exact marked.inside p earlier

theorem Marked.round {cfg : EffConfig} (swam : cfg.build = .swam) (target : Nat → Response) :
    ∀ n s, Marked cfg.len s → Marked cfg.len (quickEffRound cfg target n s).2
  | 0, s, marked => marked
  | n + 1, s, marked => by
    rw [quickEffRound]
    split
    next inside =>
      split
      · exact Marked.round swam target n _ ⟨marked.size, marked.cells, marked.inside⟩
      · dsimp only
        split
        · exact marked
        · split
          · exact ⟨marked.size, marked.cells, marked.inside⟩
          · apply Marked.round swam target n
            apply Marked.record swam
            · exact inside.2
            · exact ⟨marked.size, marked.cells, marked.inside⟩
    next => exact marked

theorem Marked.rounds {cfg : EffConfig} (swam : cfg.build = .swam) (target : Nat → Response) :
    ∀ n s, Marked cfg.len s → Marked cfg.len (quickEffRounds cfg target n s).2
  | 0, s, marked => marked
  | n + 1, s, marked => by
    have reset : Marked cfg.len { s with effRoundContinue := false, stageMax := 32 * 1024 } :=
      ⟨marked.size, marked.cells, marked.inside⟩
    have after := Marked.round swam target cfg.len _ reset
    rw [quickEffRounds]
    split
    next s' equal =>
      rw [equal] at after
      dsimp only
      split
      · exact Marked.rounds swam target n _ ⟨after.size, after.cells, after.inside⟩
      · exact ⟨after.size, after.cells, after.inside⟩
    next => exact after

/-! ## Neighbours -/

/-- Without a mark from byte `3` on there are no neighbours. -/
theorem nearbyBytes_none {cfg : EffConfig} {map : List Byte}
    (unmarked : ∀ i, 3 ≤ i → cfg.build.read map i = false) :
    ∀ n i nearby, 3 ≤ i → nearbyBytes cfg map n i nearby = nearby
  | 0, _, _, _ => rfl
  | n + 1, i, nearby, low => by
    rw [nearbyBytes, unmarked i low]
    simp only [Bool.false_eq_true, if_false]
    split
    · exact nearbyBytes_none unmarked n (i + 1) nearby (by omega)
    · rfl

/-- Marking more bytes keeps a byte map of zeroes and ones that holds the earlier marks. -/
private theorem foldl_set_cells (pick : Nat → Prop) [DecidablePred pick] :
    ∀ (is : List Nat) (map : List Byte), (∀ i ∈ is, i < map.length) →
      ∀ j, cell (is.foldl (fun map i => if pick i then map.set i 1 else map) map) j =
        if j ∈ is ∧ pick j then 1 else cell map j
  | [], map, _, j => by simp
  | i :: is, map, bound, j => by
    have here := bound i (List.mem_cons_self ..)
    rw [List.foldl_cons, foldl_set_cells pick is]
    · by_cases picked : pick i
      · rw [if_pos picked, cell_set here]
        by_cases same : i = j
        · subst same
          simp [picked]
        · have other : j ≠ i := fun equal => same equal.symm
          simp [same, other]
      · rw [if_neg picked]
        by_cases same : j = i
        · subst same
          simp [picked]
        · simp [same]
    · intro k later
      split
      · rw [List.length_set]
        exact bound k (List.mem_cons_of_mem _ later)
      · exact bound k (List.mem_cons_of_mem _ later)

/-- What is left after the neighbours: zeroes and ones, a one for each successful probe, and
nothing new when no probe from byte `3` on was successful. -/
structure Left (len : Nat) (s : QuickEff) : Prop where
  bits : ∀ i, cell s.skipEffMap i = 0 ∨ cell s.skipEffMap i = 1
  found : ∀ i, (i, true) ∈ s.probes → cell s.skipEffMap i = 1
  inside : ∀ p ∈ s.probes, p.1 < len
  only : (∀ p ∈ s.probes, p.2 = true → p.1 = 0) → ∀ i, 0 < i → cell s.skipEffMap i = 0

theorem Marked.left {cfg : EffConfig} {s : QuickEff} (swam : cfg.build = .swam)
    (marked : Marked cfg.len s) : Left cfg.len (markNearby cfg s) := by
  have unmarked : (∀ p ∈ s.probes, p.2 = true → p.1 = 0) → ∀ i, 0 < i → cell s.skipEffMap i = 0 := by
    intro only i positive
    rw [marked.cells, if_neg]
    intro found
    have := only _ found rfl
    omega
  rw [markNearby]
  split
  next =>
    have cells := foldl_set_cells (fun i => cell (nearbyBytes cfg s.skipEffMap cfg.len 3
        (List.replicate cfg.len 0)) i ≠ 0 ∧ cell s.nonEffBytes i = 0) (List.range cfg.len)
      s.skipEffMap (by
        intro i member
        rw [marked.size]
        exact List.mem_range.mp member)
    simp only [swam, EffBuild.set]
    constructor
    · intro i
      dsimp only
      rw [cells, marked.cells]
      split
      · exact Or.inr rfl
      · split
        · exact Or.inr rfl
        · exact Or.inl rfl
    · intro i found
      dsimp only
      rw [cells, marked.cells, if_pos found, ite_self]
    · exact marked.inside
    · intro only i positive
      have quiet := @nearbyBytes_none cfg s.skipEffMap (by
        intro j high
        rw [swam]
        simp only [EffBuild.read, unmarked only j (by omega)]
        rfl) cfg.len 3 (List.replicate cfg.len 0) (Nat.le_refl _)
      dsimp only
      rw [cells, quiet, if_neg]
      · exact unmarked only i positive
      · intro picked
        exact picked.2.1 (cell_replicate ..)
  next =>
    refine ⟨?_, ?_, marked.inside, unmarked⟩
    · intro i
      rw [marked.cells]
      split
      · exact Or.inr rfl
      · exact Or.inl rfl
    · intro i found
      rw [marked.cells, if_pos found]

theorem skipDeterministicStage_left {cfg : EffConfig} {target : Nat → Response}
    {doneInfMap : Option (List Byte)} {quickEffBytes : Nat} {s : QuickEff} (swam : cfg.build = .swam)
    (returned : skipDeterministicStage cfg target doneInfMap quickEffBytes = some s) : Left cfg.len s := by
  have initial : ∀ start done execs,
      Marked cfg.len (.initial cfg start done quickEffBytes execs) := by
    intro start done execs
    simp only [QuickEff.initial, swam, EffBuild.blank]
    constructor
    · exact List.length_replicate
    · intro i
      exact cell_replicate ..
    · intro p member
      cases member
  have after : ∀ start done execs exit s', quickEffRounds cfg target 8
      (.initial cfg start done quickEffBytes execs) = (exit, s') → Marked cfg.len s' := by
    intro start done execs exit s' equal
    have marked := Marked.rounds swam target 8 _ (initial start done execs)
    rwa [equal] at marked
  simp only [skipDeterministicStage] at returned
  split at returned
  · cases returned
  · split at returned
    · cases returned
    next s' _ equal =>
      cases returned
      apply Marked.left swam
      exact after _ _ _ _ _ equal

/-! ## Agreement -/

/-- In a map of zeroes and ones the bit reader sees byte `i / 8`, and only for multiples of
eight. -/
theorem bitmapRead_of_bits {map : List Byte} (bits : ∀ i, cell map i = 0 ∨ cell map i = 1)
    (i : Nat) : bitmapRead map i = true ↔ i % 8 = 0 ∧ cell map (i / 8) = 1 := by
  have bound : i % 8 < 8 := Nat.mod_lt _ (by decide)
  rw [bitmapRead]
  rcases bits (i / 8) with zero | one
  · simp [zero]
  · rw [one]
    generalize i % 8 = k at bound
    have table : ∀ k < 8, (decide ((1 : Byte) >>> k &&& 1 ≠ 0) = true ↔ k = 0) := by decide
    simp only [and_true]
    exact table k bound

/-- The stages take exactly the marked bytes only when every probe that put an entry into the
queue was one of byte `0`. -/
theorem stagesAgree_iff {cfg : EffConfig} {target : Nat → Response}
    {doneInfMap : Option (List Byte)} {quickEffBytes : Nat} {s : QuickEff} (swam : cfg.build = .swam)
    (returned : skipDeterministicStage cfg target doneInfMap quickEffBytes = some s) :
    StagesAgree .swam cfg.len s.skipEffMap ↔ ∀ p ∈ s.probes, p.2 = true → p.1 = 0 := by
  have left := skipDeterministicStage_left swam returned
  have reads := bitmapRead_of_bits left.bits
  constructor
  · intro agree
    -- the byte-wise stage alone reads every mark
    have bytewise : ∀ i < cfg.len, cell s.skipEffMap i = 1 →
        i % 8 = 0 ∧ cell s.skipEffMap (i / 8) = 1 := by
      intro i bound one
      apply (reads i).mp
      have equal := agree .flip8 i bound
      simp only [DetStage.processes, DetStage.byte, EffBuild.read, one] at equal
      rw [equal]
      decide
    -- a mark past byte 0 would come from a smaller one, and so on below eight
    have descent : ∀ i < cfg.len, cell s.skipEffMap i = 1 → i = 0 := by
      intro i
      induction i using Nat.strongRecOn with
      | ind i ih =>
        intro bound one
        obtain ⟨aligned, earlier⟩ := bytewise i bound one
        by_contra positive
        have zero := ih (i / 8) (by omega) (by omega) earlier
        omega
    rintro ⟨i, queued⟩ member rfl
    exact descent i (left.inside _ member) (left.found i member)
  · intro only stage pos _
    have zero := left.only only
    rw [DetStage.processes]
    generalize stage.byte cfg.len pos = i
    apply Bool.eq_iff_iff.mpr
    rw [reads, EffBuild.read, decide_eq_true_eq]
    by_cases first : i = 0
    · subst first
      rcases left.bits 0 with empty | one
      · simp [empty]
      · simp [one]
    · -- past byte 0 neither the byte nor the one the reader looks at is marked
      rw [zero i (Nat.pos_of_ne_zero first)]
      constructor
      · rintro ⟨aligned, one⟩
        rw [zero (i / 8) (by omega)] at one
        cases one
      · intro marked
        exact absurd rfl marked

/-- A seed of two bytes whose second byte is the only one with a find. -/
def secondByteConfig : EffConfig where
  build := .swam
  len := 2
  infEffMap := [1, 1]
  repeatEff := false
  fuzzNearby := false

def secondByteTarget (exec : Nat) : Response := ⟨false, false, exec = 1, false⟩

/-- The byte is marked, and no round of the byte-wise flips processes it. -/
theorem stagesAgree_second_byte :
    (skipDeterministicStage secondByteConfig secondByteTarget none 0).map (fun s =>
        (s.skipEffMap, s.probes, DetStage.flip8.processes 2 s.skipEffMap 1)) =
      some ([0, 1], [(1, true), (0, false)], false) ∧
    ∀ s, skipDeterministicStage secondByteConfig secondByteTarget none 0 = some s →
      ¬ StagesAgree .swam 2 s.skipEffMap := by
  constructor
  · decide
  · intro s returned agree
    have equal := agree .flip8 1 (by decide)
    have map : (skipDeterministicStage secondByteConfig secondByteTarget none 0).map
        (·.skipEffMap) = some [0, 1] := by decide
    rw [returned] at map
    have marks : s.skipEffMap = [0, 1] := Option.some.inj map
    rw [marks] at equal
    revert equal
    decide

/-- With a find at byte `0` alone the stages agree with the marks. -/
theorem stagesAgree_first_byte :
    ∃ s, skipDeterministicStage secondByteConfig (fun exec => ⟨false, false, exec = 0, false⟩)
        none 0 = some s ∧ s.probes = [(1, false), (0, true)] ∧ StagesAgree .swam 2 s.skipEffMap := by
  have probes : (skipDeterministicStage secondByteConfig
      (fun exec => ⟨false, false, exec = 0, false⟩) none 0).map (·.probes) =
        some [(1, false), (0, true)] := by decide
  obtain ⟨s, returned, probed⟩ := Option.map_eq_some_iff.mp probes
  refine ⟨s, returned, probed, (@stagesAgree_iff secondByteConfig _ _ _ _ rfl returned).mpr ?_⟩
  rw [probed]
  decide

end Swam.Afl
