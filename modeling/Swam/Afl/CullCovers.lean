import Swam.Afl.Favored

/-!
# Culling keeps coverage

The greedy cover reaches every index that has a top-rated entry as long as it never passes an
uncovered index whose top-rated entry lost its minimised trace or is disabled.
-/
namespace Swam.Afl

open Lib

variable {n : Nat}

namespace Ratings

variable {s s' : Ratings n} {trace : Nat → Fin n → Byte}

/-- Every index with a top-rated entry is reached by a favored entry that is enabled. -/
def Covers (trace : Nat → Fin n → Byte) (s : Ratings n) : Prop :=
  ∀ i q, s.topRated i = some q → ∃ p < s.queueBuf.length,
    (s.entry p).favored ∧ (s.entry p).disabled = false ∧ trace p i ≠ 0

/-- At an index that the choice made for the indices before it leaves uncovered, the top-rated
entry still has its minimised trace and is enabled. -/
def Contends (s : Ratings n) : Prop :=
  ∀ i : Fin n, Uncovered Strikes (s.choice ((List.finRange n).take i)) i →
    ∀ q ∈ s.topRated i, (s.entry q).traceMini ≠ none ∧ (s.entry q).disabled = false

instance (s : Ratings n) : Decidable s.Contends :=
  inferInstanceAs (Decidable (∀ i : Fin n, Uncovered Strikes _ i → ∀ q ∈ s.topRated i, _))

/-- The indices before one of the list of all indices. -/
private theorem before_eq_take {before after : List (Fin n)} {i : Fin n}
    (split : List.finRange n = before ++ i :: after) : before = (List.finRange n).take i := by
  have at_ : (List.finRange n)[before.length]? = some i := by
    rw [split, List.getElem?_append_right le_rfl, Nat.sub_self]
    rfl
  obtain ⟨inside, is_i⟩ := List.getElem?_eq_some_iff.mp at_
  rw [List.getElem_finRange] at is_i
  have position : before.length = i := congrArg Fin.val is_i
  rw [split, ← position, List.take_left]

theorem Covers.cullQueue (whole : 8 ∣ n) {cfg : RatingConfig} (changed : s.scoreChanged)
    (instrumented : cfg.nonInstrumentedMode = false) (own : OwnTraces trace s)
    (contends : s.Contends) : Covers trace (cullQueue cfg s) := by
  -- the minimised trace of an entry has the bits of what it reaches
  have bits {q : Nat} {mini : List Byte} (has : (s.entry q).traceMini = some mini) (i : Fin n) :
      bitmapRead mini i = decide (trace q i ≠ 0) := by
    rw [own.mini q mini has, bitmapRead_minimizeBits (by omega)]
  intro i q at_
  rw [cullQueue_topRated whole changed instrumented] at at_
  obtain ⟨before, after, split⟩ := List.append_of_mem (List.mem_finRange i)
  have reached : ∃ k ∈ s.choice (List.finRange n), Strikes k i := by
    rw [choice, split]
    refine greedyCover_covers fun uncovered => ?_
    rw [before_eq_take split] at uncovered
    obtain ⟨mini, has⟩ := Option.ne_none_iff_exists'.mp (contends i uncovered q at_).1
    refine ⟨(q, mini), contender_eq_some.mpr ⟨at_, has⟩, ?_⟩
    exact (bits has i).trans (decide_eq_true (own.topRated i q at_))
  obtain ⟨⟨p, mini⟩, chosen, strikes⟩ := reached
  -- the chosen entry was enabled where it was chosen
  obtain ⟨before', j, after', split', uncovered, here⟩ := greedyCover_chosen chosen
  obtain ⟨top, has⟩ := contender_eq_some.mp here
  rw [before_eq_take split'] at uncovered
  have enabled := (contends j uncovered p top).2
  have inside := inside_of_traceMini has
  have favored := cullQueue_favored whole changed instrumented inside enabled
    (List.mem_map.mpr ⟨_, chosen, rfl⟩)
  refine ⟨p, (length_cullQueue whole changed instrumented).symm ▸ inside, favored.1, favored.2, ?_⟩
  have reads : bitmapRead mini i = true := strikes
  rw [bits has i] at reads
  exact of_decide_eq_true reads

/-! ## Scores -/

theorem takeSlot_field {α : Type} (field : RatedEntry → α)
    (same : ∀ e tcRef traceMini, field { e with tcRef, traceMini } = field e) (q : Nat)
    (i : Fin n) (len p : Nat) : field ((s.takeSlot q i len).entry p) = field (s.entry p) := by
  have released (p : Nat) : field ((s.release i).entry p) = field (s.entry p) := by
    rw [release_entry]
    split
    · exact same ..
    · rfl
  rw [takeSlot, insert_entry]
  split
  next here => rw [same, released, here.1]
  next => exact released p

theorem FavoredCounts.takeSlot (counts : FavoredCounts s) (q : Nat) (i : Fin n) (len : Nat) :
    FavoredCounts (s.takeSlot q i len) := by
  have released : (s.release i).queuedFavored = s.queuedFavored ∧
      (s.release i).pendingFavored = s.pendingFavored ∧
      (s.release i).smallestFavored = s.smallestFavored := by
    unfold release
    split <;> exact ⟨rfl, rfl, rfl⟩
  exact counts.same (length_takeSlot ..) (takeSlot_field (·.favored) (fun _ _ _ => rfl) q i len)
    (takeSlot_field (·.wasFuzzed) (fun _ _ _ => rfl) q i len) released.1 released.2.1 released.2.2

theorem FavoredCounts.updateBitmapScore (counts : FavoredCounts s) (cfg : RatingConfig) (q : Nat)
    (haveTrace : Bool) : FavoredCounts (updateBitmapScore cfg s q haveTrace) := by
  unfold Ratings.updateBitmapScore
  split
  · exact counts
  split
  · refine List.foldlRecOn _ _ counts fun s' so_far i _ => ?_
    split
    · exact so_far.takeSlot ..
    · exact so_far
  · exact counts

/-- Scoring changes nothing or says so. -/
theorem updateBitmapScore_changed (cfg : RatingConfig) (q : Nat) (haveTrace : Bool) :
    updateBitmapScore cfg s q haveTrace = s ∨
      (updateBitmapScore cfg s q haveTrace).scoreChanged = true := by
  unfold Ratings.updateBitmapScore
  split
  · exact .inl rfl
  split
  · refine List.foldlRecOn (motive := fun s' : Ratings n => s' = s ∨ s'.scoreChanged = true)
      _ _ (.inl rfl) fun s' so_far i _ => ?_
    split
    · exact .inr rfl
    · exact so_far
  · exact .inl rfl

/-! ## Runs -/

theorem FavoredCounts.initial : FavoredCounts (.initial n) :=
  ⟨rfl, rfl, .inl ⟨rfl, fun _ inside => absurd inside (Nat.not_lt_zero _)⟩⟩

theorem FavoredCounts.addToQueue (counts : FavoredCounts s) (merit : Merit) (wasFuzzed : Bool) :
    FavoredCounts (s.addToQueue merit wasFuzzed) := by
  have longer := length_addToQueue (s := s) merit wasFuzzed
  have old {q : Nat} (inside : q < s.queueBuf.length) :
      (s.addToQueue merit wasFuzzed).entry q = s.entry q := entry_addToQueue inside
  -- the new entry is not favored
  have new : ((s.addToQueue merit wasFuzzed).entry s.queueBuf.length).pending = false := by
    rw [entry_addToQueue_length]
    rfl
  have pending_old {q : Nat} (inside : q < (s.addToQueue merit wasFuzzed).queueBuf.length)
      (pending : ((s.addToQueue merit wasFuzzed).entry q).pending) : q < s.queueBuf.length := by
    by_contra outside
    obtain rfl : q = s.queueBuf.length := by omega
    rw [new] at pending
    cases pending
  refine ⟨?_, ?_, ?_⟩
  · exact counts.queued.trans (by simp [Ratings.addToQueue])
  · exact counts.pending.trans (by simp [Ratings.addToQueue, RatedEntry.pending])
  · rcases counts.smallest with ⟨none_, others⟩ | ⟨r, r_inside, at_, r_pending, least⟩
    · refine .inl ⟨none_, fun q inside => Bool.eq_false_iff.mpr fun pending => ?_⟩
      have q_inside := pending_old inside pending
      rw [old q_inside, others q q_inside] at pending
      cases pending
    · refine .inr ⟨r, by omega, at_, (old r_inside).symm ▸ r_pending, fun p inside pending => ?_⟩
      have p_inside := pending_old inside pending
      exact least p p_inside (old p_inside ▸ pending)

theorem FavoredCounts.modify (counts : FavoredCounts s) (q : Nat) {f : RatedEntry → RatedEntry}
    (favored : (f (s.entry q)).favored = (s.entry q).favored)
    (wasFuzzed : (f (s.entry q)).wasFuzzed = (s.entry q).wasFuzzed) :
    FavoredCounts (s.modify q f) :=
  counts.same (length_modify q f) (entry_modify_field (·.favored) favored)
    (entry_modify_field (·.wasFuzzed) wasFuzzed) rfl rfl rfl

/-- Culling keeps the counters right, also when it is skipped. -/
theorem FavoredCounts.culled (whole : 8 ∣ n) (counts : FavoredCounts s) (cfg : RatingConfig) :
    FavoredCounts (Ratings.cullQueue cfg s) := by
  by_cases skipped : s.scoreChanged = false ∨ cfg.nonInstrumentedMode
  · rw [Ratings.cullQueue, if_pos skipped]
    exact counts
  · simp only [not_or, Bool.not_eq_false, Bool.not_eq_true] at skipped
    exact .cullQueue whole skipped.1 skipped.2

theorem Covers.addToQueue (covers : Covers trace s) (merit : Merit) (wasFuzzed : Bool) :
    Covers trace (s.addToQueue merit wasFuzzed) := by
  intro i q at_
  obtain ⟨p, inside, covered⟩ := covers i q at_
  have longer := length_addToQueue (s := s) merit wasFuzzed
  exact ⟨p, by omega, (entry_addToQueue (s := s) inside).symm ▸ covered⟩

theorem Covers.modify (covers : Covers trace s) (q : Nat) {f : RatedEntry → RatedEntry}
    (favored : (f (s.entry q)).favored = (s.entry q).favored)
    (enabled : (s.entry q).favored → (f (s.entry q)).disabled = (s.entry q).disabled) :
    Covers trace (s.modify q f) := by
  intro i top at_
  obtain ⟨p, inside, chosen, open_, reached⟩ := covers i top at_
  refine ⟨p, (length_modify q f).symm ▸ inside, ?_, ?_, reached⟩
  · rw [entry_modify_field (·.favored) favored, chosen]
  · rw [entry_modify]
    split
    next here =>
      rw [here.1] at chosen open_
      rw [enabled chosen, open_]
    next => exact open_

end Ratings

namespace RatingCall

/-- New entries, scores with the entry's own trace, culling, and entries disabled or changed
in between. -/
def Scoring (trace : Nat → Fin n → Byte) (_ : Ratings n) : RatingCall n → Prop
  | score _ t q haveTrace => haveTrace → t = trace q
  | add .. | change .. | disable _ | cull _ => True
  | rescore .. | recalculate .. | redundant .. => False

/-- No culling passes an uncovered index, and no favored entry is disabled unless a culling
is due. -/
def Covering (s : Ratings n) : RatingCall n → Prop
  | cull cfg => s.scoreChanged → cfg.nonInstrumentedMode = false ∧ s.Contends
  | disable q => (s.entry q).favored → s.scoreChanged
  | _ => True

end RatingCall

open Ratings

variable {trace : Nat → Fin n → Byte}

theorem RatingCall.Scoring.traced {s : Ratings n} {c : RatingCall n} (scoring : c.Scoring trace s) :
    c.Traced trace s ∧ c.BuildsOwn trace s := by
  cases c <;> first | exact ⟨scoring, trivial⟩ | cases scoring

theorem Ratings.FavoredCounts.apply (whole : 8 ∣ n) {s : Ratings n} (counts : FavoredCounts s)
    (c : RatingCall n) (scoring : c.Scoring trace s) : FavoredCounts (c.apply s) := by
  cases c with
  | add merit wasFuzzed => exact counts.addToQueue merit wasFuzzed
  | change q merit => exact counts.modify q rfl rfl
  | disable q => exact counts.modify q rfl rfl
  | score cfg t q haveTrace =>
    have traced : FavoredCounts { s with traceBits := t } :=
      counts.same rfl (fun _ => rfl) (fun _ => rfl) rfl rfl rfl
    exact traced.updateBitmapScore cfg q haveTrace
  | cull cfg => exact counts.culled whole cfg
  | rescore | recalculate | redundant => cases scoring

/-- Favored entries reach every index with a top-rated entry, unless that changed since the
last culling. -/
theorem Ratings.Covers.apply (whole : 8 ∣ n) {s : Ratings n}
    (covers : s.scoreChanged = false → Covers trace s) (own : OwnTraces trace s)
    (c : RatingCall n) (scoring : c.Scoring trace s) (covering : c.Covering s)
    (settled : (c.apply s).scoreChanged = false) : Covers trace (c.apply s) := by
  cases c with
  | add merit wasFuzzed => exact (covers settled).addToQueue merit wasFuzzed
  | change q merit => exact (covers settled).modify q rfl fun _ => rfl
  | disable q =>
    refine (covers settled).modify q rfl fun favored => ?_
    have due : s.scoreChanged = true := covering favored
    exact absurd (due.symm.trans settled) (by decide)
  | score cfg t q haveTrace =>
    have result := updateBitmapScore_changed (s := { s with traceBits := t }) cfg q haveTrace
    rcases result with unchanged | changed
    · rw [RatingCall.apply, unchanged] at settled ⊢
      exact covers settled
    · exact absurd settled (by simp [RatingCall.apply, changed])
  | cull cfg =>
    cases changed : s.scoreChanged with
    | false =>
      rw [RatingCall.apply, Ratings.cullQueue, if_pos (.inl changed)]
      exact covers changed
    | true =>
      obtain ⟨instrumented, contends⟩ := covering changed
      exact .cullQueue whole changed instrumented own contends
  | rescore | recalculate | redundant => cases scoring

theorem RatingRun.favoredCounts (whole : 8 ∣ n) {s : Ratings n}
    (run : RatingRun (RatingCall.Scoring trace) s) : FavoredCounts s := by
  induction run with
  | start => exact .initial
  | call _ c _ scoring counts => exact counts.apply whole c scoring

theorem RatingRun.covers (whole : 8 ∣ n) {s : Ratings n}
    (run : RatingRun (fun s c => c.Scoring trace s ∧ c.Covering s) s) :
    s.scoreChanged = false → Covers trace s := by
  induction run with
  | start =>
    intro _ i q at_
    cases at_
  | call run c _ allowed covers =>
    have own := (run.mono fun _ _ both => both.1.traced).ownTraces whole
    exact Ratings.Covers.apply whole covers own c allowed.1 allowed.2

/-- After culling the counters are those of the favored entries. In a run that never passes an
uncovered index these reach every index with a top-rated entry and are enabled. -/
theorem cullQueue_covers (whole : 8 ∣ n) {s : Ratings n}
    (run : RatingRun (RatingCall.Scoring trace) s) (cfg : RatingConfig) :
    let s' := cullQueue cfg s
    (RatingRun (fun s c => c.Scoring trace s ∧ c.Covering s) s →
      (RatingCall.cull cfg).Covering s →
      ∀ i q, s'.topRated i = some q → ∃ p < s'.queueBuf.length,
        (s'.entry p).favored ∧ (s'.entry p).disabled = false ∧ trace p i ≠ 0) ∧
    s'.queuedFavored = s'.queueBuf.countP (·.favored) ∧
    s'.pendingFavored = s'.queueBuf.countP (fun e => e.favored && !e.wasFuzzed) ∧
    (s'.smallestFavored = -1 ∧ (∀ q < s'.queueBuf.length, (s'.entry q).pending = false) ∨
      ∃ q < s'.queueBuf.length, s'.smallestFavored = q ∧ (s'.entry q).pending ∧
        ∀ p < s'.queueBuf.length, (s'.entry p).pending → q ≤ p) := by
  intro s'
  have counts := (run.favoredCounts whole).culled whole cfg
  refine ⟨fun run covering => ?_, counts.queued, counts.pending, counts.smallest⟩
  have own := (run.mono fun _ _ both => both.1.traced).ownTraces whole
  cases changed : s.scoreChanged with
  | false =>
    have skipped : s' = s := if_pos (.inl changed)
    rw [skipped]
    exact run.covers whole changed
  | true =>
    obtain ⟨instrumented, contends⟩ := covering changed
    exact Covers.cullQueue whole changed instrumented own contends

/-- A queue of three entries: the first reaches two indices, the others one of them each. -/
def overlappingTraces (q : Nat) (i : Fin 8) : Byte :=
  if q = 0 then (if i.val < 2 then 1 else 0) else if i.val = 2 - q then 1 else 0

/-- The first entry alone covers both its indices, also after the second took one of them. -/
theorem cullQueue_covers_shared :
    let s : Ratings 8 := [.add ⟨2, 1, 0, 0⟩ false,
      .score exploreConfig (overlappingTraces 0) 0 true, .add ⟨1, 1, 0, 0⟩ false,
      .score exploreConfig (overlappingTraces 1) 1 true].foldl RatingCall.apply (.initial 8)
    let s' := cullQueue exploreConfig s
    (∀ i q, s'.topRated i = some q → ∃ p < s'.queueBuf.length,
      (s'.entry p).favored ∧ (s'.entry p).disabled = false ∧ overlappingTraces p i ≠ 0) ∧
    s'.queuedFavored = s'.queueBuf.countP (·.favored) ∧
    s'.pendingFavored = s'.queueBuf.countP (fun e => e.favored && !e.wasFuzzed) ∧
    (s'.smallestFavored = -1 ∧ (∀ q < s'.queueBuf.length, (s'.entry q).pending = false) ∨
      ∃ q < s'.queueBuf.length, s'.smallestFavored = q ∧ (s'.entry q).pending ∧
        ∀ p < s'.queueBuf.length, (s'.entry p).pending → q ≤ p) := by
  intro s s'
  have empty : RatingRun (fun s c => c.Scoring overlappingTraces s ∧ c.Covering s) (.initial 8) :=
    .start
  have first := empty.call (.add ⟨2, 1, 0, 0⟩ false) trivial ⟨trivial, trivial⟩
  have scored := first.call (.score exploreConfig (overlappingTraces 0) 0 true) (by decide)
    ⟨fun _ => rfl, trivial⟩
  have second := scored.call (.add ⟨1, 1, 0, 0⟩ false) trivial ⟨trivial, trivial⟩
  have both := second.call (.score exploreConfig (overlappingTraces 1) 1 true) (by decide)
    ⟨fun _ => rfl, trivial⟩
  have result := cullQueue_covers (s := s) (by decide) (both.mono fun _ _ allowed => allowed.1)
    exploreConfig
  exact ⟨result.1 both fun _ => ⟨rfl, by decide⟩, result.2⟩

/-- The second entry takes an index of the first and becomes redundant, which frees its trace;
the third takes the other index, which frees that of the first. No entry is left to cover the
index of the second. -/
theorem cullQueue_uncovered :
    let s : Ratings 8 := [.add ⟨3, 1, 0, 0⟩ false,
      .score exploreConfig (overlappingTraces 0) 0 true, .add ⟨2, 1, 0, 0⟩ false,
      .score exploreConfig (overlappingTraces 1) 1 true, .cull exploreConfig,
      .add ⟨1, 1, 0, 0⟩ false,
      .score exploreConfig (overlappingTraces 2) 2 true].foldl RatingCall.apply (.initial 8)
    let s' := cullQueue exploreConfig s
    RatingRun (RatingCall.Scoring overlappingTraces) s ∧ s'.topRated 1 = some 1 ∧
      ∀ p < s'.queueBuf.length, (s'.entry p).favored → overlappingTraces p 1 = 0 := by
  intro s s'
  have empty : RatingRun (RatingCall.Scoring overlappingTraces) (.initial 8) := .start
  have first := empty.call (.add ⟨3, 1, 0, 0⟩ false) trivial trivial
  have scored := first.call (.score exploreConfig (overlappingTraces 0) 0 true) (by decide)
    fun _ => rfl
  have second := scored.call (.add ⟨2, 1, 0, 0⟩ false) trivial trivial
  have both := second.call (.score exploreConfig (overlappingTraces 1) 1 true) (by decide)
    fun _ => rfl
  have culled := both.call (.cull exploreConfig) trivial trivial
  have third := culled.call (.add ⟨1, 1, 0, 0⟩ false) trivial trivial
  have all := third.call (.score exploreConfig (overlappingTraces 2) 2 true) (by decide)
    fun _ => rfl
  exact ⟨all, by decide, by decide⟩

end Swam.Afl
