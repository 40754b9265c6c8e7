import Swam.Afl.Testcases

/-!
# Neighbours of marked bytes

With `FUZZ_NEARBY`, `skip_deterministic_stage` ends with a pass over its map: around each marked
byte that the pass comes upon, a `memset` in a second map takes in the bytes up to three away,
"assume DWORD size, from i - 3 -> i + 3". The pass starts at byte 3 and jumps three bytes ahead
after a hit.
-/
namespace Swam.Afl

/-! ## The fills -/

/-- The length of the `memset` at a hit. -/
def fillLength (len i : Nat) : Nat := if i + 3 < len then 7 else len - i + 2

/-- Where each `memset` starts and how many bytes it sets. -/
def nearbyFills (cfg : EffConfig) (map : List Byte) : Nat → Nat → List (Nat × Nat)
  | 0, _ => []
  | n + 1, i =>
    if i < cfg.len then
      if cfg.build.read map i then
        (i - 3, fillLength cfg.len i) :: nearbyFills cfg map n (i + 3)
      else nearbyFills cfg map n (i + 1)
    else []

/-- The bytes that a pass started at `i` looks at. -/
inductive Visits (marked : Nat → Bool) : Nat → Nat → Prop
  | here (i : Nat) : Visits marked i i
  | hit {i h : Nat} (found : marked i = true) (later : Visits marked (i + 3) h) : Visits marked i h
  | miss {i h : Nat} (absent : marked i = false) (later : Visits marked (i + 1) h) :
    Visits marked i h

section
variable {cfg : EffConfig} {map : List Byte}

theorem fillLength_inside {len i : Nat} (low : 3 ≤ i) (inside : i < len) :
    i - 3 + fillLength len i ≤ len := by
  rw [fillLength]
  split <;> omega

theorem Visits.le {marked : Nat → Bool} {i h : Nat} (visits : Visits marked i h) : i ≤ h := by
  induction visits with
  | here => exact Nat.le_refl _
  | hit _ _ ih => omega
  | miss _ _ ih => omega

/-- The fills are those around the marked bytes that are looked at. -/
theorem mem_nearbyFills {n i : Nat} (enough : cfg.len ≤ i + n) (fill : Nat × Nat) :
    fill ∈ nearbyFills cfg map n i ↔
      ∃ h, Visits (cfg.build.read map) i h ∧ h < cfg.len ∧ cfg.build.read map h = true ∧
        fill = (h - 3, fillLength cfg.len h) := by
  induction n generalizing i with
  | zero =>
    refine ⟨fun member => absurd member List.not_mem_nil, ?_⟩
    rintro ⟨h, visits, inside, _⟩
    have := visits.le
    omega
  | succ n ih =>
    rw [nearbyFills]
    by_cases inside : i < cfg.len
    · rw [if_pos inside]
      cases found : cfg.build.read map i with
      | true =>
        rw [if_pos rfl, List.mem_cons, ih (by omega)]
        constructor
        · rintro (rfl | ⟨h, visits, rest⟩)
          · exact ⟨i, .here i, inside, found, rfl⟩
          · exact ⟨h, .hit found visits, rest⟩
        · rintro ⟨h, visits, below, marked, rfl⟩
          cases visits with
          | here => exact .inl rfl
          | hit _ later => exact .inr ⟨h, later, below, marked, rfl⟩
          | miss absent _ => exact absurd (found.symm.trans absent) (by decide)
      | false =>
        rw [if_neg (by decide), ih (by omega)]
        constructor
        · rintro ⟨h, visits, rest⟩
          exact ⟨h, .miss found visits, rest⟩
        · rintro ⟨h, visits, below, marked, rfl⟩
          cases visits with
          | here => exact absurd (found.symm.trans marked) (by decide)
          | hit present _ => exact absurd (found.symm.trans present) (by decide)
          | miss _ later => exact ⟨h, later, below, marked, rfl⟩
    · rw [if_neg inside]
      refine ⟨fun member => absurd member List.not_mem_nil, ?_⟩
      rintro ⟨h, visits, below, _⟩
      have := visits.le
      omega

theorem nearbyFills_inside {n i : Nat} (low : 3 ≤ i) :
    ∀ fill ∈ nearbyFills cfg map n i, fill.1 + fill.2 ≤ cfg.len := by
  induction n generalizing i with
  | zero => exact fun fill member => absurd member List.not_mem_nil
  | succ n ih =>
    intro fill member
    rw [nearbyFills] at member
    split at member
    next inside =>
      split at member
      · rcases List.mem_cons.mp member with rfl | later
        · exact fillLength_inside low inside
        · exact ih (by omega) fill later
      · exact ih (by omega) fill member
    next => exact absurd member List.not_mem_nil

/-- The second map is zero but for the filled bytes. -/
theorem nearbyBytes_filled {n i : Nat} {nearby : List Byte} (p : Nat) :
    (nearbyBytes cfg map n i nearby)[p]? =
      nearby[p]?.map fun b =>
        if ∃ fill ∈ nearbyFills cfg map n i, fill.1 ≤ p ∧ p < fill.1 + fill.2 then 1 else b := by
  induction n generalizing i nearby with
  | zero => simp [nearbyBytes, nearbyFills]
  | succ n ih =>
    rw [nearbyBytes, nearbyFills]
    split
    · split
      · rw [ih]
        simp only [List.getElem?_map, List.getElem?_zipIdx, Option.map_map, List.mem_cons,
          exists_eq_or_imp, Nat.zero_add]
        cases nearby[p]? with
        | none => rfl
        | some b =>
          have spelled : (if i + 3 < cfg.len then 7 else cfg.len - i + 2) = fillLength cfg.len i := rfl
          simp only [Option.map_some, Function.comp_apply, spelled]
          by_cases here : i - 3 ≤ p ∧ p < i - 3 + fillLength cfg.len i
          · rw [if_pos here, if_pos (Or.inl here), ite_self]
          · rw [if_neg here]
            exact congrArg some (if_congr (or_iff_right here).symm rfl rfl)
      · exact ih
    · simp

end

/-! ## The marks -/

theorem EffBuild.length_set (build : EffBuild) (map : List Byte) (j : Nat) :
    (build.set map j).length = map.length := by
  cases build with
  | swam => exact List.length_set ..
  | upstream => exact length_bitmapSet map j

theorem EffBuild.swam_read_iff {map : List Byte} {i : Nat} :
    EffBuild.swam.read map i = true ↔ cell map i ≠ 0 :=
  decide_eq_true_iff

theorem EffBuild.read_set (build : EffBuild) {map : List Byte} {len : Nat}
    (sized : map.length = (build.blank len).length) {j : Nat} (inside : j < len) (i : Nat) :
    build.read (build.set map j) i = (build.read map i || decide (i = j)) := by
  cases build with
  | swam =>
    have room : j < map.length := by simpa [EffBuild.blank, sized] using inside
    apply Bool.eq_iff_iff.mpr
    rw [Bool.or_eq_true, swam_read_iff, swam_read_iff, decide_eq_true_eq, EffBuild.set, cell, cell,
      List.getElem?_set]
    by_cases same : j = i
    · subst same
      simp [room]
    · have other : i ≠ j := fun equal => same equal.symm
      simp [same, other]
  | upstream =>
    have room : j / 8 < map.length := by
      rw [sized]
      simp only [EffBuild.blank, List.length_replicate]
      omega
    exact bitmapRead_bitmapSet room i

/-- Marking some of the bytes below `len`. -/
theorem EffBuild.read_marks (build : EffBuild) {len : Nat} (pick : Nat → Prop) [DecidablePred pick]
    {is : List Nat} (inside : ∀ i ∈ is, i < len) {map : List Byte}
    (sized : map.length = (build.blank len).length) :
    (is.foldl (fun map i => if pick i then build.set map i else map) map).length = map.length ∧
      ∀ p, build.read (is.foldl (fun map i => if pick i then build.set map i else map) map) p =
        (build.read map p || decide (p ∈ is ∧ pick p)) := by
  induction is generalizing map with
  | nil => exact ⟨rfl, fun p => by simp⟩
  | cons i is ih =>
    rw [List.foldl_cons]
    have rest := fun k member => inside k (List.mem_cons_of_mem i member)
    have here := inside i List.mem_cons_self
    by_cases picked : pick i
    · rw [if_pos picked]
      obtain ⟨size, reads⟩ := @ih rest (build.set map i) (by rw [build.length_set, sized])
      refine ⟨by rw [size, build.length_set], fun p => ?_⟩
      rw [reads, build.read_set sized here, Bool.or_assoc]
      congr 1
      by_cases same : p = i
      · simp [same, picked]
      · simp [same]
    · rw [if_neg picked]
      obtain ⟨size, reads⟩ := ih rest sized
      refine ⟨size, fun p => ?_⟩
      rw [reads]
      congr 1
      by_cases same : p = i
      · simp [same, picked]
      · simp [same]

/-- Within three bytes of each other. -/
def Near (p m : Nat) : Prop := p ≤ m + 3 ∧ m ≤ p + 3

section
variable {cfg : EffConfig} {s : QuickEff}

/-- The map after the pass: the marks that were there and the bytes of the fills. -/
theorem read_markNearby (on : cfg.fuzzNearby = true)
    (sized : s.skipEffMap.length = (cfg.build.blank cfg.len).length) {p : Nat}
    (inside : p < cfg.len) :
    cfg.build.read (markNearby cfg s).skipEffMap p = true ↔
      cfg.build.read s.skipEffMap p = true ∨
        cell s.nonEffBytes p = 0 ∧
          ∃ fill ∈ nearbyFills cfg s.skipEffMap cfg.len 3, fill.1 ≤ p ∧ p < fill.1 + fill.2 := by
  rw [markNearby, if_pos on]
  dsimp only
  rw [(cfg.build.read_marks _ (fun i member => List.mem_range.mp member) sized).2 p]
  have filled : cell (nearbyBytes cfg s.skipEffMap cfg.len 3 (List.replicate cfg.len 0)) p ≠ 0 ↔
      ∃ fill ∈ nearbyFills cfg s.skipEffMap cfg.len 3, fill.1 ≤ p ∧ p < fill.1 + fill.2 := by
    rw [cell, nearbyBytes_filled, List.getElem?_replicate, if_pos inside, Option.map_some,
      Option.getD_some]
    split
    next found => exact ⟨fun _ => found, fun _ => by decide⟩
    next absent => exact ⟨fun nonzero => absurd rfl nonzero, fun found => absurd found absent⟩
  simp only [Bool.or_eq_true, decide_eq_true_eq, List.mem_range, inside, true_and, filled]
  rw [and_comm]

/-- The pass is exact: it adds to the marks the bytes near a marked one that may matter, and it
writes within the two maps. -/
structure NearbyExact (cfg : EffConfig) (s : QuickEff) : Prop where
  marks : ∀ p < cfg.len, cfg.build.read (markNearby cfg s).skipEffMap p = true ↔
    cfg.build.read s.skipEffMap p = true ∨
      cell s.nonEffBytes p = 0 ∧ ∃ m < cfg.len, cfg.build.read s.skipEffMap m = true ∧ Near p m
  inside : ∀ fill ∈ nearbyFills cfg s.skipEffMap cfg.len 3, fill.1 + fill.2 ≤ cfg.len
  size : (markNearby cfg s).skipEffMap.length = s.skipEffMap.length

/-- Whatever could be added is near a marked byte that the pass looks at. The last byte of the
buffer is only reached from exactly three bytes before. -/
def NothingMissed (cfg : EffConfig) (s : QuickEff) : Prop :=
  ∀ p < cfg.len, cfg.build.read s.skipEffMap p = false → cell s.nonEffBytes p = 0 →
    (∃ m < cfg.len, cfg.build.read s.skipEffMap m = true ∧ Near p m) →
    ∃ h, Visits (cfg.build.read s.skipEffMap) 3 h ∧ h < cfg.len ∧
      cfg.build.read s.skipEffMap h = true ∧ Near p h ∧ (h + 3 < cfg.len ∨ p + 1 < cfg.len)

/-- A fill reaches three bytes to either side, but for the last byte near the end. -/
theorem fill_reaches {h p : Nat} (low : 3 ≤ h) (below : h < cfg.len) :
    (h - 3 ≤ p ∧ p < h - 3 + fillLength cfg.len h) ↔
      Near p h ∧ (h + 3 < cfg.len ∨ p + 1 < cfg.len) := by
  rw [fillLength, Near]
  split <;> omega

/-- The pass is exact where every byte to be added is within its reach. -/
theorem markNearby_exact_iff (on : cfg.fuzzNearby = true)
    (sized : s.skipEffMap.length = (cfg.build.blank cfg.len).length) :
    NearbyExact cfg s ↔ NothingMissed cfg s := by
  have enough : cfg.len ≤ 3 + cfg.len := Nat.le_add_left _ _
  have reach {p : Nat} (inside : p < cfg.len) :
      (∃ fill ∈ nearbyFills cfg s.skipEffMap cfg.len 3, fill.1 ≤ p ∧ p < fill.1 + fill.2) ↔
        ∃ h, Visits (cfg.build.read s.skipEffMap) 3 h ∧ h < cfg.len ∧
          cfg.build.read s.skipEffMap h = true ∧ Near p h ∧
          (h + 3 < cfg.len ∨ p + 1 < cfg.len) := by
    constructor
    · rintro ⟨fill, member, covers⟩
      obtain ⟨h, visits, below, marked, rfl⟩ := (mem_nearbyFills enough fill).mp member
      exact ⟨h, visits, below, marked, (fill_reaches visits.le below).mp covers⟩
    · rintro ⟨h, visits, below, marked, near⟩
      exact ⟨_, (mem_nearbyFills enough _).mpr ⟨h, visits, below, marked, rfl⟩,
        (fill_reaches visits.le below).mpr near⟩
  constructor
  · intro exact_ p inside unmarked matters near
    have marked := (exact_.marks p inside).mpr (.inr ⟨matters, near⟩)
    rw [read_markNearby on sized inside, unmarked, reach inside] at marked
    exact (marked.resolve_left (by decide)).2
  · intro complete
    refine ⟨fun p inside => ?_, nearbyFills_inside (Nat.le_refl _), ?_⟩
    · rw [read_markNearby on sized inside, reach inside]
      cases unmarked : cfg.build.read s.skipEffMap p with
      | true => simp
      | false =>
        simp only [Bool.false_eq_true, false_or]
        refine and_congr_right fun matters => ⟨?_, complete p inside unmarked matters⟩
        rintro ⟨h, _, below, marked, near, _⟩
        exact ⟨h, below, marked, near⟩
    · rw [markNearby, if_pos on]
      exact (cfg.build.read_marks _ (fun i member => List.mem_range.mp member) sized).1

end

/-- After the quick phase over a few bytes. -/
def quickEffOver (map : List Byte) : QuickEff where
  stageCur := 0
  stageMax := 32 * 1024
  skipEffMap := map
  doneInfMap := map
  nonEffBytes := List.replicate map.length 0
  effRoundContinue := false
  doneEff := true
  quickEffBytes := 1
  execs := map.length
  probes := []

def nearbyConfig (len : Nat) : EffConfig where
  build := .swam
  len := len
  infEffMap := List.replicate len 1
  repeatEff := false
  fuzzNearby := true

theorem markNearby_exact_middle :
    NearbyExact (nearbyConfig 7) (quickEffOver [0, 0, 0, 1, 0, 0, 0]) := by
  refine (markNearby_exact_iff rfl rfl).mpr fun p inside _ _ _ => ?_
  refine ⟨3, .here 3, by decide, by decide, ?_, .inl (by decide)⟩
  have below : p < 7 := inside
  exact ⟨by omega, by omega⟩

/-- A mark before byte 3 has no neighbours. -/
theorem markNearby_not_exact :
    ¬ NearbyExact (nearbyConfig 5) (quickEffOver [0, 0, 1, 0, 0]) := by
  intro exact_
  have missed := (exact_.marks 3 (by decide)).mpr
    (.inr ⟨rfl, 2, by decide, by decide, by decide, by decide⟩)
  exact absurd missed (by decide)

end Swam.Afl
