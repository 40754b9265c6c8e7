import Swam.Afl.TopRated

/-!
# Minimised traces of entries

A minimised trace is freed when its entry loses the last slot or becomes redundant, and built
again from `trace_bits` with the next slot. `update_bitmap_score` is called with the entry's
own trace in `trace_bits`; `update_bitmap_rescore` finds there the trace of the entry that was
executed last.
-/
namespace Swam.Afl

namespace Ratings

variable {n : Nat} {s : Ratings n}

/-- The indices that were reached among those already passed. -/
private theorem foldl_bitmapSet {trace : Fin n → Byte} (indices : List (Fin n))
    {map : List Byte} (fits : n ≤ 8 * map.length) (i : Fin n) :
    bitmapRead (indices.foldl (fun dst j => if trace j ≠ 0 then bitmapSet dst j else dst) map) i =
      (bitmapRead map i || (i ∈ indices ∧ trace i ≠ 0)) := by
  induction indices generalizing map with
  | nil => simp
  | cons j rest ih =>
    rw [List.foldl_cons]
    by_cases hit : trace j ≠ 0
    · have inside : j.val / 8 < map.length := by omega
      rw [if_pos hit, ih (by simpa using fits), bitmapRead_bitmapSet inside, Bool.or_assoc]
      congr 1
      by_cases here : i = j
      · simpa [here] using hit
      · simp [here, Fin.val_inj]
    · rw [if_neg hit, ih fits]
      congr 1
      by_cases here : i = j
      · have missed : trace j = 0#8 := not_not.mp hit
        simp [here, missed]
      · simp [here]

theorem bitmapRead_minimizeBits {len : Nat} (fits : n ≤ 8 * len) (trace : Fin n → Byte)
    (i : Fin n) : bitmapRead (minimizeBits len trace) i = decide (trace i ≠ 0) := by
  rw [minimizeBits, foldl_bitmapSet _ (by simpa using fits), bitmapRead_replicate_zero]
  simp

/-! ## What changes minimised traces -/

/-- Releasing a slot builds no trace. -/
theorem release_traceMini {i : Fin n} {q : Nat} {m : List Byte}
    (kept : ((s.release i).entry q).traceMini = some m) : (s.entry q).traceMini = some m := by
  rw [release_entry] at kept
  split at kept
  · dsimp only at kept
    split at kept
    · cases kept
    · exact kept
  · exact kept

/-- Only the new holder can get a trace, and only when it has none after the release. -/
theorem takeSlot_traceMini {p q : Nat} {i : Fin n} {len : Nat} {m : List Byte}
    (after : ((s.takeSlot q i len).entry p).traceMini = some m) :
    (s.entry p).traceMini = some m ∨
      p = q ∧ ((s.release i).entry q).traceMini = none ∧ m = minimizeBits len s.traceBits := by
  rw [takeSlot, insert_entry] at after
  split at after
  next self =>
    cases mini : ((s.release i).entry q).traceMini with
    | none =>
      rw [mini] at after
      exact .inr ⟨self.1, rfl, (Option.some.inj after).symm.trans (by rw [release_traceBits]; rfl)⟩
    | some own =>
      rw [mini] at after
      exact .inl (self.1 ▸ release_traceMini (mini.trans after))
  next => exact .inl (release_traceMini after)

/-! ## The invariant -/

/-- Minimised traces are the entries' own; slots and enrolments are at reached indices. -/
structure OwnTraces (trace : Nat → Fin n → Byte) (s : Ratings n) : Prop where
  mini : ∀ q m, (s.entry q).traceMini = some m → m = minimizeBits (n / 8) (trace q)
  topRated : ∀ i q, s.topRated i = some q → trace q i ≠ 0
  candidates : ∀ i, ∀ q ∈ s.topRatedCandidates i, trace q i ≠ 0

variable {trace : Nat → Fin n → Byte} {s' : Ratings n}

theorem OwnTraces.same (own : OwnTraces trace s) (topRated : s'.topRated = s.topRated)
    (candidates : s'.topRatedCandidates = s.topRatedCandidates)
    (mini : ∀ q m, (s'.entry q).traceMini = some m → (s.entry q).traceMini = some m) :
    OwnTraces trace s' := by
  refine ⟨fun q m at_ => own.mini q m (mini q m at_), ?_, ?_⟩
  · rw [topRated]
    exact own.topRated
  · rw [candidates]
    exact own.candidates

theorem OwnTraces.initial : OwnTraces trace (.initial n) := by
  refine ⟨?_, ?_, ?_⟩ <;> simp [Ratings.initial, entry, blank]

/-- An entry takes a slot it reaches; a trace built for it is its own. -/
theorem OwnTraces.takeSlot (own : OwnTraces trace s) {q : Nat} {i : Fin n} {len : Nat}
    (reached : trace q i ≠ 0)
    (built : ((s.release i).entry q).traceMini = none →
      minimizeBits len s.traceBits = minimizeBits (n / 8) (trace q)) :
    OwnTraces trace (s.takeSlot q i len) := by
  refine ⟨fun p m after => ?_, fun j p at_ => ?_, ?_⟩
  · rcases takeSlot_traceMini after with before | ⟨rfl, missing, rfl⟩
    · exact own.mini p m before
    · exact built missing
  · rw [takeSlot_topRated] at at_
    by_cases here : j = i
    · subst here
      rw [Function.update_self] at at_
      exact Option.some.inj at_ ▸ reached
    · rw [Function.update_of_ne here] at at_
      exact own.topRated j p at_
  · rw [takeSlot_topRatedCandidates]
    exact own.candidates

/-! ## Scores -/

theorem OwnTraces.updateBitmapScore (own : OwnTraces trace s) (whole : 8 ∣ n)
    (cfg : RatingConfig) (q : Nat) {haveTrace : Bool}
    (traced : haveTrace → s.traceBits = trace q) :
    OwnTraces trace (updateBitmapScore cfg s q haveTrace) := by
  unfold Ratings.updateBitmapScore
  split
  · exact own
  split
  next given =>
    have bytes : (n + 7) / 8 = n / 8 := by omega
    -- the trace in memory stays the entry's own while it takes slots
    refine (List.foldlRecOn
      (motive := fun s : Ratings n => OwnTraces trace s ∧ s.traceBits = trace q)
      _ _ ⟨own, traced given⟩ fun s' so_far i _ => ?_).1
    split
    next won =>
      refine ⟨so_far.1.takeSlot (so_far.2 ▸ won.1) fun _ => by rw [bytes, so_far.2], ?_⟩
      rw [takeSlot_traceBits, so_far.2]
    next => exact so_far
  next => exact own

/-- Whenever one of the candidates wins an index and has no minimised trace once the holder is
released, the trace in memory minimises to its own. -/
def RescoresOwn (cfg : RatingConfig) (trace : Nat → Fin n → Byte) :
    Ratings n → List (Fin n × Nat) → Prop
  | _, [] => True
  | s, (i, q) :: rest =>
    ((s.entry q).disabled = false → wins cfg s q i = true →
      ((s.release i).entry q).traceMini = none →
        minimizeBits (n / 8) s.traceBits = minimizeBits (n / 8) (trace q)) ∧
    RescoresOwn cfg trace (updateBitmapRescore cfg s q i) rest

theorem OwnTraces.updateBitmapRescore (own : OwnTraces trace s) (cfg : RatingConfig) {q : Nat}
    {i : Fin n} (reached : trace q i ≠ 0)
    (built : (s.entry q).disabled = false → wins cfg s q i = true →
      ((s.release i).entry q).traceMini = none →
        minimizeBits (n / 8) s.traceBits = minimizeBits (n / 8) (trace q)) :
    OwnTraces trace (updateBitmapRescore cfg s q i) := by
  unfold Ratings.updateBitmapRescore
  split
  · exact own
  next enabled =>
    split
    next won => exact own.takeSlot reached (built (by simpa using enabled) won)
    next => exact own

theorem OwnTraces.rescores (own : OwnTraces trace s) (cfg : RatingConfig)
    (candidates : List (Fin n × Nat)) (reached : ∀ c ∈ candidates, trace c.2 c.1 ≠ 0)
    (condition : RescoresOwn cfg trace s candidates) :
    OwnTraces trace
      (candidates.foldl (fun s c => Ratings.updateBitmapRescore cfg s c.2 c.1) s) := by
  induction candidates generalizing s with
  | nil => exact own
  | cons c rest ih =>
    rw [List.foldl_cons]
    have first := own.updateBitmapRescore cfg (reached c List.mem_cons_self) condition.1
    exact ih first (fun c' member => reached c' (List.mem_cons_of_mem _ member)) condition.2

theorem OwnTraces.enrol (own : OwnTraces trace s) (i : Nat) : OwnTraces trace (enrol trace s i) := by
  unfold Ratings.enrol
  split
  · exact own.same rfl rfl fun _ _ at_ => at_
  · refine ⟨own.mini, own.topRated, fun j q member => ?_⟩
    rcases List.mem_append.mp member with before | here
    · exact own.candidates j q before
    · split at here
      next reached => exact List.mem_singleton.mp here ▸ reached
      next => exact absurd here List.not_mem_nil

theorem OwnTraces.enrolAll (own : OwnTraces trace s) : OwnTraces trace (enrolAll trace s) :=
  List.foldlRecOn _ _ own fun _ so_far i _ => so_far.enrol i

theorem OwnTraces.recalculateAllScores (own : OwnTraces trace s) (cfg : RatingConfig)
    (condition : RescoresOwn cfg trace (Ratings.enrolAll trace s)
      (Ratings.enrolAll trace s).candidates) :
    OwnTraces trace (recalculateAllScores cfg trace s) := by
  refine own.enrolAll.rescores cfg _ (fun c member => ?_) condition
  obtain ⟨i, -, c_of⟩ := List.mem_flatMap.mp member
  obtain ⟨q, candidate, rfl⟩ := List.mem_map.mp c_of
  exact own.enrolAll.candidates i q candidate

/-! ## Culling -/

/-- A change of all entries that builds no trace. -/
theorem OwnTraces.map (own : OwnTraces trace s) {f : RatedEntry → RatedEntry}
    (kept : ∀ e m, (f e).traceMini = some m → e.traceMini = some m) :
    OwnTraces trace { s with queueBuf := s.queueBuf.map f } := by
  refine own.same rfl rfl fun q m at_ => ?_
  by_cases inside : q < s.queueBuf.length
  · rw [entry_map inside] at at_
    exact kept _ m at_
  · rw [entry_of_length_le (by simpa using inside)] at at_
    cases at_

theorem markAsRedundant_traceMini {cfg : RatingConfig} {state : Bool} {e : RatedEntry}
    {m : List Byte} (after : (markAsRedundant cfg state e).traceMini = some m) :
    e.traceMini = some m := by
  unfold markAsRedundant at after
  split at after
  · exact after
  · dsimp only at after
    split at after
    · cases after
    · exact after

theorem OwnTraces.favor (own : OwnTraces trace s) (q : Nat) : OwnTraces trace (s.favor q) := by
  unfold Ratings.favor
  split
  · exact own
  · refine own.same rfl rfl fun p m at_ => ?_
    exact (entry_modify_field RatedEntry.traceMini rfl p).symm.trans at_

theorem OwnTraces.cullQueue (own : OwnTraces trace s) (cfg : RatingConfig) :
    OwnTraces trace (cullQueue cfg s) := by
  unfold Ratings.cullQueue
  split
  · exact own
  have cleared : OwnTraces trace
      { s with queueBuf := s.queueBuf.map ({ · with favored := false }) } :=
    own.map fun _ _ at_ => at_
  have start : OwnTraces trace s.startCull.1 := cleared.same rfl rfl fun _ _ at_ => at_
  have chosen : OwnTraces trace ((List.finRange n).foldl cullIndex s.startCull).1 := by
    refine List.foldlRecOn (motive := fun c : Ratings n × List Byte => OwnTraces trace c.1)
      _ _ start fun c so_far i _ => ?_
    unfold cullIndex
    split
    · exact so_far
    · exact so_far.favor _
  refine (chosen.map fun e m after => ?_).same rfl rfl fun _ _ at_ => at_
  split at after
  · exact after
  · exact markAsRedundant_traceMini after

/-! ## Runs -/

theorem OwnTraces.addToQueue (own : OwnTraces trace s) (merit : Merit) (wasFuzzed : Bool) :
    OwnTraces trace (s.addToQueue merit wasFuzzed) := by
  refine own.same rfl rfl fun q m at_ => ?_
  by_cases old : q < s.queueBuf.length
  · rwa [entry_addToQueue old] at at_
  · by_cases new : q = s.queueBuf.length
    · rw [new, entry_addToQueue_length] at at_
      cases at_
    · have longer := length_addToQueue (s := s) merit wasFuzzed
      rw [entry_of_length_le (by omega)] at at_
      cases at_

end Ratings

variable {n : Nat}

namespace RatingCall

/-- The calls of a program whose entries leave the same trace whenever they are executed:
`update_bitmap_score` is called with the trace of its entry. -/
def Traced (trace : Nat → Fin n → Byte) (_ : Ratings n) : RatingCall n → Prop
  | score _ t q haveTrace => haveTrace → t = trace q
  | recalculate _ run => run = trace
  | rescore .. => False
  | add .. | change .. | disable _ | redundant .. | cull _ => True

/-- Scoring again builds no trace from that of another entry. -/
def BuildsOwn (trace : Nat → Fin n → Byte) (s : Ratings n) : RatingCall n → Prop
  | recalculate cfg run =>
    Ratings.RescoresOwn cfg trace (Ratings.enrolAll run s) (Ratings.enrolAll run s).candidates
  | _ => True

end RatingCall

open Ratings

variable {trace : Nat → Fin n → Byte}

theorem Ratings.OwnTraces.apply (whole : 8 ∣ n) {s : Ratings n} (own : OwnTraces trace s)
    (c : RatingCall n) (traced : c.Traced trace s) (builds : c.BuildsOwn trace s) :
    OwnTraces trace (c.apply s) := by
  cases c with
  | add merit wasFuzzed => exact own.addToQueue merit wasFuzzed
  | change q merit =>
    exact own.same rfl rfl fun p m at_ =>
      (entry_modify_field RatedEntry.traceMini rfl p).symm.trans at_
  | disable q =>
    exact own.same rfl rfl fun p m at_ =>
      (entry_modify_field RatedEntry.traceMini rfl p).symm.trans at_
  | score cfg t q haveTrace =>
    have loaded : OwnTraces trace { s with traceBits := t } :=
      own.same rfl rfl fun _ _ at_ => at_
    exact loaded.updateBitmapScore whole cfg q traced
  | rescore => cases traced
  | recalculate cfg run =>
    cases traced
    exact own.recalculateAllScores cfg builds
  | redundant cfg q state =>
    refine own.same rfl rfl fun p m at_ => ?_
    simp only [RatingCall.apply, entry_modify] at at_
    split at at_
    next changed => exact changed.1 ▸ markAsRedundant_traceMini at_
    next => exact at_
  | cull cfg => exact own.cullQueue cfg

theorem RatingRun.ownTraces (whole : 8 ∣ n) {s : Ratings n}
    (run : RatingRun (fun s c => c.Traced trace s ∧ c.BuildsOwn trace s) s) :
    OwnTraces trace s := by
  induction run with
  | start => exact .initial
  | call _ c _ allowed own => exact own.apply whole c allowed.1 allowed.2

/-- In a run that never builds a trace from that of another entry, every minimised trace is
the entry's own, and has the bit of every slot of the entry. -/
theorem traceMini_own (whole : 8 ∣ n) {s : Ratings n}
    (run : RatingRun (fun s c => c.Traced trace s ∧ c.BuildsOwn trace s) s) (q : Nat)
    (m : List Byte) (mini : (s.entry q).traceMini = some m) :
    m = minimizeBits (n / 8) (trace q) ∧ ∀ i, s.topRated i = some q → bitmapRead m i := by
  have own := run.ownTraces whole
  refine ⟨own.mini q m mini, fun i at_ => ?_⟩
  rw [own.mini q m mini, bitmapRead_minimizeBits (by omega)]
  exact decide_eq_true (own.topRated i q at_)

/-- The first entry reaches the first index only, the second entry the second. -/
def separateTraces (q : Nat) (i : Fin 8) : Byte := if i.val = q then 1 else 0

def exploreConfig : RatingConfig := ⟨.explore, false, fun _ => 0, false, false⟩

/-- Alone in the queue, the entry that was executed last is the one that is rated. -/
theorem traceMini_own_alone :
    let s : Ratings 8 := [.add ⟨1, 1, 0, 0⟩ false,
      .score exploreConfig (separateTraces 0) 0 true,
      .recalculate exploreConfig separateTraces].foldl RatingCall.apply (.initial 8)
    [1] = minimizeBits 1 (separateTraces 0) ∧
      ∀ i, s.topRated i = some 0 → bitmapRead [1] i := by
  intro s
  have empty : RatingRun (fun s c => c.Traced separateTraces s ∧ c.BuildsOwn separateTraces s)
    (.initial 8) := .start
  have first := empty.call (.add ⟨1, 1, 0, 0⟩ false) trivial ⟨trivial, trivial⟩
  have scored := first.call (.score exploreConfig (separateTraces 0) 0 true) (by decide)
    ⟨fun _ => rfl, trivial⟩
  have again := scored.call (.recalculate exploreConfig separateTraces) trivial
    ⟨rfl, fun _ _ _ => rfl, trivial⟩
  exact traceMini_own (by decide) again 0 [1] (by decide)

/-- Rated again, the first entry displaces itself: its trace is freed and built from that of
the second entry, which was executed last. -/
theorem traceMini_of_last_executed :
    let s : Ratings 8 := [.add ⟨1, 1, 0, 0⟩ false,
      .score exploreConfig (separateTraces 0) 0 true, .add ⟨1, 1, 0, 0⟩ false,
      .score exploreConfig (separateTraces 1) 1 true,
      .recalculate exploreConfig separateTraces].foldl RatingCall.apply (.initial 8)
    RatingRun (RatingCall.Traced separateTraces) s ∧
      (s.entry 0).traceMini ≠ some (minimizeBits 1 (separateTraces 0)) ∧
      (s.entry 0).traceMini = some (minimizeBits 1 (separateTraces 1)) ∧
      s.topRated 0 = some 0 := by
  intro s
  have empty : RatingRun (RatingCall.Traced separateTraces) (.initial 8) := .start
  have first := empty.call (.add ⟨1, 1, 0, 0⟩ false) trivial trivial
  have scored := first.call (.score exploreConfig (separateTraces 0) 0 true) (by decide)
    fun _ => rfl
  have second := scored.call (.add ⟨1, 1, 0, 0⟩ false) trivial trivial
  have both := second.call (.score exploreConfig (separateTraces 1) 1 true) (by decide)
    fun _ => rfl
  have again := both.call (.recalculate exploreConfig separateTraces) trivial rfl
  exact ⟨again, by decide, by decide, by decide⟩

end Swam.Afl
