import Swam.Afl.OwnTraces
import Swam.Lib.GreedyCover

/-!
# Favored entries

`cull_queue` makes a greedy cover of the indices: its contenders are the top-rated entries
that have a minimised trace, and `temp_v` has the bits that are left. The favored entries are
the chosen ones that are not disabled.
-/
namespace Swam.Afl

open Lib

variable {n : Nat}

/-- A favored entry that was not fuzzed yet. -/
def RatedEntry.pending (e : RatedEntry) : Bool := e.favored && !e.wasFuzzed

namespace Ratings

variable {s s' : Ratings n}

/-! ## The counters -/

/-- The least pending favored entry, or -1. -/
def SmallestPending (s : Ratings n) : Prop :=
  s.smallestFavored = -1 ∧ (∀ q < s.queueBuf.length, (s.entry q).pending = false) ∨
  ∃ q < s.queueBuf.length, s.smallestFavored = q ∧ (s.entry q).pending ∧
    ∀ p < s.queueBuf.length, (s.entry p).pending → q ≤ p

/-- Entries are counted alike in queues that agree on the property. -/
theorem countP_congr {p : RatedEntry → Bool} (length : s'.queueBuf.length = s.queueBuf.length)
    (same : ∀ q, p (s'.entry q) = p (s.entry q)) :
    s'.queueBuf.countP p = s.queueBuf.countP p := by
  have mapped : s'.queueBuf.map p = s.queueBuf.map p := by
    refine List.ext_getElem (by simpa using length) fun q inside inside' => ?_
    rw [List.length_map] at inside inside'
    have at_ := same q
    rw [entry, entry, List.getElem?_eq_getElem inside, List.getElem?_eq_getElem inside'] at at_
    simpa using at_
  have count (l : List RatedEntry) : l.countP p = (l.map p).countP id := by
    rw [List.countP_map]
    rfl
  rw [count, mapped, ← count]

theorem countP_modify {p : RatedEntry → Bool} {q : Nat} (inside : q < s.queueBuf.length)
    {f : RatedEntry → RatedEntry} (before : p (s.entry q) = false) :
    (s.modify q f).queueBuf.countP p =
      s.queueBuf.countP p + if p (f (s.entry q)) then 1 else 0 := by
  have holder : s.queueBuf[q] = s.entry q := by
    rw [entry, List.getElem?_eq_getElem inside, Option.getD_some]
  rw [modify, List.modify_eq_set_get f inside, List.countP_set inside, holder, before]
  simp only [List.get_eq_getElem, holder]
  rfl

structure FavoredCounts (s : Ratings n) : Prop where
  queued : s.queuedFavored = s.queueBuf.countP (·.favored)
  pending : s.pendingFavored = s.queueBuf.countP (·.pending)
  smallest : s.SmallestPending

/-- The counters depend on the flags of the entries only. -/
theorem FavoredCounts.same (counts : FavoredCounts s)
    (length : s'.queueBuf.length = s.queueBuf.length)
    (favored : ∀ q, (s'.entry q).favored = (s.entry q).favored)
    (wasFuzzed : ∀ q, (s'.entry q).wasFuzzed = (s.entry q).wasFuzzed)
    (queued : s'.queuedFavored = s.queuedFavored)
    (pendingFavored : s'.pendingFavored = s.pendingFavored)
    (smallest : s'.smallestFavored = s.smallestFavored) : FavoredCounts s' := by
  have pending (q : Nat) : (s'.entry q).pending = (s.entry q).pending := by
    rw [RatedEntry.pending, favored, wasFuzzed, RatedEntry.pending]
  refine ⟨?_, ?_, ?_⟩
  · rw [queued, counts.queued, countP_congr length favored]
  · rw [pendingFavored, counts.pending, countP_congr length pending]
  · simpa only [SmallestPending, smallest, length, pending] using counts.smallest

theorem favor_entry (q p : Nat) :
    (s.favor q).entry p =
      if p = q ∧ q < s.queueBuf.length ∧ (s.entry q).disabled = false then
        { s.entry q with favored := true }
      else s.entry p := by
  unfold favor
  split
  next settled =>
    by_cases changed : p = q ∧ q < s.queueBuf.length ∧ (s.entry q).disabled = false
    · rw [if_pos changed, changed.1]
      have already : (s.entry q).favored = true := by simpa [changed.2.2] using settled
      rw [← already]
    · rw [if_neg changed]
  next open_ =>
    have enabled : (s.entry q).disabled = false := by simp_all
    refine (entry_modify p q _).trans ?_
    simp only [enabled, and_true]

theorem length_favor (q : Nat) : (s.favor q).queueBuf.length = s.queueBuf.length := by
  unfold favor
  split
  · rfl
  · exact length_modify ..

theorem favor_topRated (q : Nat) : (s.favor q).topRated = s.topRated := by
  unfold favor
  split <;> rfl

/-- A new pending entry is the least one when there was none or only greater ones. -/
theorem SmallestPending.favor (smallest : s.SmallestPending) {q : Nat}
    (inside : q < s.queueBuf.length) : (s.favor q).SmallestPending := by
  by_cases settled : (s.entry q).favored ∨ (s.entry q).disabled
  · rwa [Ratings.favor, if_pos settled]
  obtain ⟨unfavored, enabled⟩ : (s.entry q).favored = false ∧ (s.entry q).disabled = false := by
    simpa using settled
  have pending_q : (s.entry q).pending = false := by simp [RatedEntry.pending, unfavored]
  have pending (p : Nat) : ((s.favor q).entry p).pending =
      if p = q then !(s.entry q).wasFuzzed else (s.entry p).pending := by
    rw [favor_entry]
    by_cases here : p = q <;> simp [here, inside, enabled, RatedEntry.pending]
  have value : (s.favor q).smallestFavored =
      if (s.entry q).wasFuzzed = false ∧ (s.smallestFavored < 0 ∨ q < s.smallestFavored) then
        (q : Int) else s.smallestFavored := by
    simp [Ratings.favor, if_neg settled]
  simp only [SmallestPending, length_favor, pending, value]
  cases fuzzed : (s.entry q).wasFuzzed with
  | true =>
    -- no new pending entry
    have unchanged (p : Nat) : (if p = q then !true else (s.entry p).pending) =
        (s.entry p).pending := by
      split
      next here => rw [here, pending_q, Bool.not_true]
      next => rfl
    simp only [unchanged, Bool.true_eq_false, false_and, if_false]
    exact smallest
  | false =>
    right
    rcases smallest with ⟨none_, others⟩ | ⟨r, r_inside, at_, r_pending, least⟩
    · refine ⟨q, inside, by simp [none_], by simp, fun p p_inside p_pending => ?_⟩
      by_cases here : p = q
      · exact here.ge
      · rw [if_neg here, others p p_inside] at p_pending
        cases p_pending
    · have differ : r ≠ q := by
        rintro rfl
        rw [pending_q] at r_pending
        cases r_pending
      by_cases below : q < r
      · refine ⟨q, inside, by simp [at_, below], by simp, fun p p_inside p_pending => ?_⟩
        by_cases here : p = q
        · exact here.ge
        · rw [if_neg here] at p_pending
          exact below.le.trans (least p p_inside p_pending)
      · refine ⟨r, r_inside, by simp [at_, below], by simp [differ, r_pending],
          fun p p_inside p_pending => ?_⟩
        by_cases here : p = q
        · omega
        · rw [if_neg here] at p_pending
          exact least p p_inside p_pending

theorem FavoredCounts.favor (counts : FavoredCounts s) {q : Nat}
    (inside : q < s.queueBuf.length) : FavoredCounts (s.favor q) := by
  refine ⟨?_, ?_, counts.smallest.favor inside⟩ <;> unfold Ratings.favor <;> split
  · exact counts.queued
  next open_ =>
    have unfavored : (s.entry q).favored = false := by simp_all
    refine Eq.trans ?_ (countP_modify (p := (·.favored)) inside unfavored).symm
    simp [counts.queued]
  · exact counts.pending
  next open_ =>
    have unfavored : (s.entry q).pending = false := by simp_all [RatedEntry.pending]
    refine Eq.trans ?_ (countP_modify (p := (·.pending)) inside unfavored).symm
    simp [counts.pending, RatedEntry.pending]

/-! ## The greedy cover -/

/-- The top-rated entry of an index with its minimised trace, when it has one. -/
def contender (s : Ratings n) (i : Fin n) : Option (Nat × List Byte) :=
  (s.topRated i).bind fun top => (s.entry top).traceMini.map (top, ·)

/-- The minimised trace has the bit of the index. -/
def Strikes (k : Nat × List Byte) (i : Fin n) : Prop := bitmapRead k.2 i = true

instance (k : Nat × List Byte) (i : Fin n) : Decidable (Strikes k i) :=
  inferInstanceAs (Decidable (bitmapRead k.2 i = true))

/-- What a greedy cover of the indices chooses. -/
def choice (s : Ratings n) (indices : List (Fin n)) : List (Nat × List Byte) :=
  greedyCover Strikes s.contender indices

theorem contender_eq_some {i : Fin n} {k : Nat × List Byte} :
    s.contender i = some k ↔ s.topRated i = some k.1 ∧ (s.entry k.1).traceMini = some k.2 := by
  obtain ⟨q, mini⟩ := k
  simp only [contender, Option.bind_eq_some_iff, Option.map_eq_some_iff, Prod.mk.injEq]
  constructor
  · rintro ⟨top, at_, m, has, rfl, rfl⟩
    exact ⟨at_, has⟩
  · rintro ⟨at_, has⟩
    exact ⟨q, at_, mini, has, rfl, rfl⟩

/-- Entries with a minimised trace are in the queue. -/
theorem inside_of_traceMini {q : Nat} {mini : List Byte}
    (has : (s.entry q).traceMini = some mini) : q < s.queueBuf.length := by
  by_contra outside
  rw [entry_of_length_le (by omega)] at has
  cases has

/-- `temp_v` has the uncovered bits, and the chosen entries that are enabled are favored. -/
structure Culled (s : Ratings n) (before : List (Fin n)) (c : Ratings n × List Byte) :
    Prop where
  topRated : c.1.topRated = s.topRated
  length : c.1.queueBuf.length = s.queueBuf.length
  entry : ∀ p < s.queueBuf.length, c.1.entry p = { s.entry p with
    favored := !(s.entry p).disabled && decide (p ∈ (s.choice before).map Prod.fst) }
  bytes : c.2.length = n / 8
  bits : ∀ i : Fin n, bitmapRead c.2 i = decide (Uncovered Strikes (s.choice before) i)
  counts : FavoredCounts c.1

theorem Culled.traceMini {before : List (Fin n)} {c : Ratings n × List Byte}
    (culled : Culled s before c) (q : Nat) :
    (c.1.entry q).traceMini = (s.entry q).traceMini := by
  by_cases inside : q < s.queueBuf.length
  · rw [culled.entry q inside]
  · rw [entry_of_length_le (by rw [culled.length]; omega), entry_of_length_le (by omega)]

theorem Culled.contender {before : List (Fin n)} {c : Ratings n × List Byte}
    (culled : Culled s before c) (i : Fin n) : c.1.contender i = s.contender i := by
  simp only [Ratings.contender, culled.topRated, culled.traceMini]

theorem length_strikeBits (tempV mini : List Byte) :
    (strikeBits tempV mini).length = tempV.length := by simp [strikeBits]

theorem bitmapRead_strikeBits {tempV mini : List Byte} {i : Nat} (inside : i / 8 < tempV.length) :
    bitmapRead (strikeBits tempV mini) i = (bitmapRead tempV i && !bitmapRead mini i) := by
  have struck : cell (strikeBits tempV mini) (i / 8) =
      cell tempV (i / 8) &&& ~~~cell mini (i / 8) := by
    simp [cell, strikeBits, inside]
  simp only [bitmapRead_eq, struck, BitVec.getLsbD_and, BitVec.getLsbD_not]
  have bound : i % 8 < 8 := Nat.mod_lt _ (by omega)
  simp [bound]

theorem Culled.start (whole : 8 ∣ n) : Culled s [] s.startCull := by
  have length : s.startCull.1.queueBuf.length = s.queueBuf.length := List.length_map ..
  have entries (p : Nat) (inside : p < s.queueBuf.length) :
      s.startCull.1.entry p = { s.entry p with favored := false } := entry_map inside
  have none_favored {p : RatedEntry → Bool}
      (weaker : ∀ e : RatedEntry, p { e with favored := false } = false) :
      s.startCull.1.queueBuf.countP p = 0 := by
    rw [List.countP_eq_zero]
    intro e member
    obtain ⟨e', -, rfl⟩ := List.mem_map.mp member
    simp [weaker]
  refine ⟨rfl, length, ?_, List.length_replicate, ?_, ?_, ?_, ?_⟩
  · intro p inside
    rw [entries p inside]
    simp [choice, greedyCover]
  · intro i
    have inside : i.val / 8 < n / 8 := by omega
    have bound : i.val % 8 < 8 := Nat.mod_lt _ (by omega)
    have set : cell s.startCull.2 (i / 8) = BitVec.allOnes 8 := by
      simp only [cell, startCull, List.getElem?_replicate, if_pos inside]
      rfl
    rw [bitmapRead_eq, set, BitVec.getLsbD_allOnes]
    simp [bound, choice, greedyCover, Uncovered]
  · exact (none_favored fun _ => rfl).symm
  · exact (none_favored fun _ => rfl).symm
  · refine .inl ⟨rfl, fun q inside => ?_⟩
    rw [length] at inside
    rw [entries q inside]
    rfl

/-- One index is one step of the greedy cover. -/
theorem Culled.index {before : List (Fin n)} {c : Ratings n × List Byte}
    (whole : 8 ∣ n) (culled : Culled s before c) (i : Fin n) :
    Culled s (before ++ [i]) (cullIndex c i) := by
  have step : s.choice (before ++ [i]) = greedyStep Strikes s.contender (s.choice before) i :=
    greedyCover_concat before i
  have taken_eq : c.1.taken c.2 i =
      if Uncovered Strikes (s.choice before) i then s.contender i else none := by
    rw [← culled.contender i, taken, Ratings.contender, culled.bits i]
    cases c.1.topRated i with
    | none => simp
    | some top => by_cases open_ : Uncovered Strikes (s.choice before) i <;> simp [open_]
  unfold cullIndex
  cases taken_is : c.1.taken c.2 i with
  | none =>
    have same : s.choice (before ++ [i]) = s.choice before := by
      rw [step, greedyStep]
      split
      next open_ => rw [← (if_pos open_ : _ = s.contender i), ← taken_eq, taken_is]; simp
      next => rfl
    exact ⟨culled.topRated, culled.length, same ▸ culled.entry, culled.bytes,
      same ▸ culled.bits, culled.counts⟩
  | some k =>
    obtain ⟨open_, here⟩ : Uncovered Strikes (s.choice before) i ∧ s.contender i = some k := by
      rw [taken_eq] at taken_is
      split at taken_is
      next open_ => exact ⟨open_, taken_is⟩
      next => cases taken_is
    have chosen : s.choice (before ++ [i]) = s.choice before ++ [k] := by
      rw [step, greedyStep, if_pos open_, here]
      rfl
    have inside : k.1 < s.queueBuf.length :=
      inside_of_traceMini (contender_eq_some.mp here).2
    refine ⟨?_, ?_, ?_, ?_, ?_, ?_⟩
    · exact (favor_topRated k.1).trans culled.topRated
    · exact (length_favor k.1).trans culled.length
    · intro p p_inside
      rw [favor_entry, culled.length, culled.entry k.1 inside, culled.entry p p_inside, chosen]
      by_cases is_k : p = k.1
      · subst is_k
        cases enabled : (s.entry k.1).disabled <;> simp [inside]
      · have same : p ∈ (s.choice before ++ [k]).map Prod.fst ↔
            p ∈ (s.choice before).map Prod.fst := by simp [is_k]
        rw [if_neg fun both => is_k both.1, decide_eq_decide.mpr same]
    · exact (length_strikeBits ..).trans culled.bytes
    · intro j
      have bound : j.val / 8 < c.2.length := by
        rw [culled.bytes]
        omega
      rw [bitmapRead_strikeBits bound, culled.bits j, chosen]
      have left : Uncovered Strikes (s.choice before ++ [k]) j ↔
          Uncovered Strikes (s.choice before) j ∧ ¬ Strikes k j := by
        simp [Uncovered, or_imp, forall_and]
      rw [Bool.eq_iff_iff, decide_eq_true_iff, left]
      simp [Strikes]
    · exact culled.counts.favor (by rwa [culled.length])

/-- After all indices, before the marks. -/
def chosen (s : Ratings n) : Ratings n := ((List.finRange n).foldl cullIndex s.startCull).1

theorem Culled.all (whole : 8 ∣ n) :
    Culled s (List.finRange n) ((List.finRange n).foldl cullIndex s.startCull) := by
  have upTo (points : List (Fin n)) : Culled s points (points.foldl cullIndex s.startCull) := by
    induction points using List.reverseRecOn with
    | nil => exact .start whole
    | append_singleton points i ih =>
      rw [List.foldl_append]
      exact ih.index whole i
  exact upTo _

/-! ## The marks -/

/-- The mark of an entry when all are chosen. -/
def mark (cfg : RatingConfig) (e : RatedEntry) : RatedEntry :=
  if e.disabled then e else markAsRedundant cfg (¬ e.favored) e

theorem mark_flags (cfg : RatingConfig) (e : RatedEntry) :
    (mark cfg e).favored = e.favored ∧ (mark cfg e).wasFuzzed = e.wasFuzzed := by
  unfold mark markAsRedundant
  split
  · exact ⟨rfl, rfl⟩
  · split <;> exact ⟨rfl, rfl⟩

/-- Only entries that are not favored are disabled. -/
theorem mark_disabled {cfg : RatingConfig} {e : RatedEntry} (favored : e.favored) :
    (mark cfg e).disabled = e.disabled := by
  unfold mark markAsRedundant
  split
  · rfl
  · split <;> simp [favored]

section Cull

variable {cfg : RatingConfig} (whole : 8 ∣ n) (changed : s.scoreChanged)
  (instrumented : cfg.nonInstrumentedMode = false)

include changed instrumented

/-- The marks are set on the result of the greedy cover. -/
theorem cullQueue_eq :
    cullQueue cfg s = { s.chosen with
      queueBuf := s.chosen.queueBuf.map (mark cfg), reinitTable := true } := by
  rw [cullQueue, if_neg (by simp [changed, instrumented])]
  rfl

include whole

theorem length_cullQueue : (cullQueue cfg s).queueBuf.length = s.queueBuf.length := by
  rw [cullQueue_eq changed instrumented]
  exact (List.length_map ..).trans (Culled.all whole).length

theorem cullQueue_entry {p : Nat} (inside : p < s.queueBuf.length) :
    (cullQueue cfg s).entry p = mark cfg (s.chosen.entry p) := by
  rw [cullQueue_eq changed instrumented]
  exact entry_map ((Culled.all (s := s) whole).length ▸ inside)

theorem cullQueue_topRated : (cullQueue cfg s).topRated = s.topRated := by
  rw [cullQueue_eq changed instrumented]
  exact (Culled.all whole).topRated

/-- An entry is favored when it was chosen and is enabled, and then it stays enabled. -/
theorem cullQueue_favored {p : Nat} (inside : p < s.queueBuf.length)
    (enabled : (s.entry p).disabled = false)
    (chosen_ : p ∈ (s.choice (List.finRange n)).map Prod.fst) :
    ((cullQueue cfg s).entry p).favored ∧ ((cullQueue cfg s).entry p).disabled = false := by
  have culled := Culled.all (s := s) whole
  have before := culled.entry p inside
  have favored : (s.chosen.entry p).favored := by
    simp [chosen, before, enabled, chosen_]
  rw [cullQueue_entry whole changed instrumented inside, (mark_flags cfg _).1,
    mark_disabled favored]
  refine ⟨favored, ?_⟩
  rw [chosen, before]
  exact enabled

/-- The counters count the favored entries. -/
theorem FavoredCounts.cullQueue : FavoredCounts (cullQueue cfg s) := by
  have culled := Culled.all (s := s) whole
  have length := length_cullQueue whole changed instrumented
  have flags (p : Nat) :
      ((Ratings.cullQueue cfg s).entry p).favored = (s.chosen.entry p).favored ∧
        ((Ratings.cullQueue cfg s).entry p).wasFuzzed = (s.chosen.entry p).wasFuzzed := by
    by_cases inside : p < s.queueBuf.length
    · rw [cullQueue_entry whole changed instrumented inside]
      exact mark_flags cfg _
    · rw [entry_of_length_le (by omega), entry_of_length_le (by rw [chosen, culled.length]; omega)]
      exact ⟨rfl, rfl⟩
  refine culled.counts.same (length.trans culled.length.symm) (fun p => (flags p).1)
    (fun p => (flags p).2) ?_ ?_ ?_ <;> rw [cullQueue_eq changed instrumented] <;> rfl

end Cull

end Ratings

end Swam.Afl
