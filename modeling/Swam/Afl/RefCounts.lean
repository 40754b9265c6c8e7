import Swam.Afl.TopRated
import Mathlib.Data.Finset.Card
import Mathlib.Data.Fintype.Card

/-!
# Reference counts of top-rated entries

A slot changes hands in two moves: it is vacated, which releases its holder, and then given
to the new winner. Both keep the reference count of every entry equal to the number of its
slots.
-/
namespace Swam.Afl

variable {n : Nat}

namespace Ratings

variable {s s' : Ratings n}

/-! ## The invariant -/

/-- The slots of an entry. -/
def slots (s : Ratings n) (q : Nat) : Finset (Fin n) := Finset.univ.filter (s.topRated · = some q)

@[simp] theorem mem_slots {q : Nat} {i : Fin n} : i ∈ s.slots q ↔ s.topRated i = some q := by
  rw [slots, Finset.mem_filter, and_iff_right (Finset.mem_univ i)]

/-- Slots and candidates are entries of the queue, and each entry has as many references as
slots. -/
structure RefCounted (s : Ratings n) : Prop where
  topRated : ∀ i q, s.topRated i = some q → q < s.queueBuf.length
  candidates : ∀ i, ∀ q ∈ s.topRatedCandidates i, q < s.queueBuf.length
  count : ∀ q < s.queueBuf.length, (s.entry q).tcRef.toNat = (s.slots q).card
  underflowed : s.underflowed = false

theorem RefCounted.same (counted : RefCounted s) (topRated : s'.topRated = s.topRated)
    (candidates : s'.topRatedCandidates = s.topRatedCandidates)
    (length : s'.queueBuf.length = s.queueBuf.length)
    (tcRef : ∀ q, (s'.entry q).tcRef = (s.entry q).tcRef)
    (underflowed : s'.underflowed = s.underflowed) : RefCounted s' := by
  refine ⟨?_, ?_, ?_, underflowed.trans counted.underflowed⟩
  · rw [topRated, length]
    exact counted.topRated
  · rw [candidates, length]
    exact counted.candidates
  · intro q inside
    rw [slots, topRated, tcRef]
    exact counted.count q (by rwa [← length])

theorem RefCounted.initial : RefCounted (.initial n) := by
  refine ⟨?_, ?_, ?_, rfl⟩ <;> simp [Ratings.initial]

/-! ## One slot -/

/-- The slot without its holder. -/
def vacate (s : Ratings n) (i : Fin n) : Ratings n :=
  { s.release i with topRated := Function.update s.topRated i none }

theorem takeSlot_eq (q : Nat) (i : Fin n) (len : Nat) :
    s.takeSlot q i len = (s.vacate i).insert q i len := by
  simp only [takeSlot, insert, vacate, Function.update_idem, release_topRated]
  rfl

theorem RefCounted.vacate (counted : RefCounted s) (i : Fin n) : RefCounted (s.vacate i) := by
  cases holder : s.topRated i with
  | none =>
    -- nobody is released
    have nobody : s.vacate i = s := by
      have unchanged : Function.update s.topRated i none = s.topRated :=
        holder ▸ Function.update_eq_self i s.topRated
      simp only [Ratings.vacate, release, holder, unchanged]
    rw [nobody]
    exact counted
  | some top =>
    have inside := counted.topRated i top holder
    have held : i ∈ s.slots top := mem_slots.mpr holder
    have positive : 0 < (s.slots top).card := Finset.card_pos.mpr ⟨i, held⟩
    have references := counted.count top inside
    have left : s.vacate i = { (s.modify top fun e => { e with
          tcRef := (s.entry top).tcRef - 1
          traceMini := if (s.entry top).tcRef - 1 = 0 then none else e.traceMini }) with
        underflowed := s.underflowed || (s.entry top).tcRef = 0
        topRated := Function.update s.topRated i none } := by
      simp only [Ratings.vacate, release, holder]
    have slots_top : (s.vacate i).slots top = (s.slots top).erase i := by
      ext j
      simp only [mem_slots, left, Finset.mem_erase]
      by_cases here : j = i <;> simp [here]
    have slots_other {q : Nat} (other : q ≠ top) : (s.vacate i).slots q = s.slots q := by
      ext j
      simp only [mem_slots, left]
      by_cases here : j = i
      · simp [here, holder, Ne.symm other]
      · simp [here]
    refine ⟨?_, ?_, ?_, ?_⟩
    · intro j q at_
      simp only [left, length_modify] at at_ ⊢
      by_cases here : j = i
      · simp [here] at at_
      · rw [Function.update_of_ne here] at at_
        exact counted.topRated j q at_
    · intro j q member
      simp only [left, length_modify] at member ⊢
      exact counted.candidates j q member
    · intro q inside'
      simp only [left, length_modify] at inside'
      by_cases is_top : q = top
      · subst is_top
        rw [slots_top, Finset.card_erase_of_mem held]
        have entry : ((s.vacate i).entry q).tcRef = (s.entry q).tcRef - 1 := by
          rw [left]
          exact congrArg RatedEntry.tcRef (entry_modify_self inside _)
        rw [entry]
        bv_omega
      · rw [slots_other is_top, ← counted.count q inside']
        congr 1
        rw [left]
        exact congrArg RatedEntry.tcRef (entry_modify_of_ne is_top _)
    · have some : (s.entry top).tcRef ≠ 0 := by
        intro zero
        rw [zero] at references
        simp at references
        omega
      simpa [left, counted.underflowed] using some

theorem vacate_topRated (i : Fin n) : (s.vacate i).topRated i = none := Function.update_self ..

@[simp] theorem length_vacate (i : Fin n) :
    (s.vacate i).queueBuf.length = s.queueBuf.length := length_release i

/-- A free slot is given to an entry of the queue. -/
theorem RefCounted.insert (counted : RefCounted s) (small : n < 2 ^ 32) {q : Nat} {i : Fin n}
    (inside : q < s.queueBuf.length) (free : s.topRated i = none) (len : Nat) :
    RefCounted (s.insert q i len) := by
  have outside : i ∉ s.slots q := by simp [free]
  have slots_self : (s.insert q i len).slots q = Insert.insert i (s.slots q) := by
    ext j
    simp only [mem_slots, Ratings.insert, Finset.mem_insert]
    by_cases here : j = i <;> simp [here]
  have slots_other {p : Nat} (other : p ≠ q) : (s.insert q i len).slots p = s.slots p := by
    ext j
    simp only [mem_slots, Ratings.insert]
    by_cases here : j = i
    · simp [here, free, Ne.symm other]
    · simp [here]
  refine ⟨?_, ?_, ?_, counted.underflowed⟩
  · intro j p at_
    simp only [Ratings.insert, length_modify] at at_ ⊢
    by_cases here : j = i
    · simp only [here, Function.update_self, Option.some.injEq] at at_
      exact at_ ▸ inside
    · rw [Function.update_of_ne here] at at_
      exact counted.topRated j p at_
  · intro j p member
    simp only [Ratings.insert, length_modify] at member ⊢
    exact counted.candidates j p member
  · intro p inside'
    simp only [Ratings.insert, length_modify] at inside'
    by_cases is_q : p = q
    · subst is_q
      rw [slots_self, Finset.card_insert_of_notMem outside]
      have entry : ((s.insert p i len).entry p).tcRef = (s.entry p).tcRef + 1 :=
        congrArg RatedEntry.tcRef (entry_modify_self inside _)
      -- an entry has at most as many slots as the map has indices
      have few : (s.slots p).card < n := by
        simpa using Finset.card_lt_univ_of_notMem outside
      have references := counted.count p inside
      rw [entry]
      bv_omega
    · rw [slots_other is_q, ← counted.count p inside']
      congr 1
      exact congrArg RatedEntry.tcRef (entry_modify_of_ne is_q _)

theorem RefCounted.takeSlot (counted : RefCounted s) (small : n < 2 ^ 32) {q : Nat}
    (inside : q < s.queueBuf.length) (i : Fin n) (len : Nat) :
    RefCounted (s.takeSlot q i len) := by
  rw [takeSlot_eq]
  exact (counted.vacate i).insert small (by simpa using inside) (vacate_topRated i) len

/-! ## Scores -/

/-- The queue has the same entries, with counted references. -/
structure CountedAs (s s' : Ratings n) : Prop where
  counted : RefCounted s'
  length : s'.queueBuf.length = s.queueBuf.length

theorem CountedAs.updateBitmapScore (counted : RefCounted s) (small : n < 2 ^ 32)
    (cfg : RatingConfig) {q : Nat} (inside : q < s.queueBuf.length) (haveTrace : Bool) :
    CountedAs s (updateBitmapScore cfg s q haveTrace) := by
  unfold Ratings.updateBitmapScore
  split
  · exact ⟨counted, rfl⟩
  split
  · refine List.foldlRecOn _ _ ⟨counted, rfl⟩ fun s' so_far i _ => ?_
    split
    · refine ⟨so_far.counted.takeSlot small (so_far.length ▸ inside) i _, ?_⟩
      rw [length_takeSlot, so_far.length]
    · exact so_far
  · exact ⟨counted, rfl⟩

theorem CountedAs.updateBitmapRescore (counted : RefCounted s) (small : n < 2 ^ 32)
    (cfg : RatingConfig) {q : Nat} (inside : q < s.queueBuf.length) (i : Fin n) :
    CountedAs s (updateBitmapRescore cfg s q i) := by
  unfold Ratings.updateBitmapRescore
  split
  · exact ⟨counted, rfl⟩
  split
  · exact ⟨counted.takeSlot small inside i _, length_takeSlot ..⟩
  · exact ⟨counted, rfl⟩

theorem CountedAs.enrol (run : Nat → Fin n → Byte) (counted : RefCounted s) {i : Nat}
    (inside : i < s.queueBuf.length) : CountedAs s (enrol run s i) := by
  unfold Ratings.enrol
  split
  · exact ⟨counted.same rfl rfl rfl (fun _ => rfl) rfl, rfl⟩
  · refine ⟨⟨counted.topRated, ?_, counted.count, counted.underflowed⟩, rfl⟩
    intro j q member
    rcases List.mem_append.mp member with before | here
    · exact counted.candidates j q before
    · split at here
      · rw [List.mem_singleton.mp here]
        exact inside
      · exact absurd here List.not_mem_nil

theorem CountedAs.enrolAll (run : Nat → Fin n → Byte) (counted : RefCounted s) :
    CountedAs s (enrolAll run s) := by
  refine List.foldlRecOn _ _ ⟨counted, rfl⟩ fun s' so_far i member => ?_
  have inside : i < s.queueBuf.length := by
    rw [List.mem_range'_1] at member
    omega
  have next := CountedAs.enrol run so_far.counted (so_far.length ▸ inside)
  exact ⟨next.counted, next.length.trans so_far.length⟩

theorem CountedAs.recalculateAllScores (run : Nat → Fin n → Byte) (counted : RefCounted s)
    (small : n < 2 ^ 32) (cfg : RatingConfig) :
    CountedAs s (recalculateAllScores cfg run s) := by
  have enrolled := CountedAs.enrolAll run counted
  refine List.foldlRecOn _ _ enrolled fun s' so_far c member => ?_
  obtain ⟨i, -, c_of⟩ := List.mem_flatMap.mp member
  obtain ⟨q, candidate, rfl⟩ := List.mem_map.mp c_of
  have inside := enrolled.counted.candidates i q candidate
  rw [enrolled.length, ← so_far.length] at inside
  have next := CountedAs.updateBitmapRescore so_far.counted small cfg inside i
  exact ⟨next.counted, next.length.trans so_far.length⟩

/-! ## Culling -/

/-- A change of entries that keeps their references. -/
theorem RefCounted.modify (counted : RefCounted s) (q : Nat) {f : RatedEntry → RatedEntry}
    (same : (f (s.entry q)).tcRef = (s.entry q).tcRef) : RefCounted (s.modify q f) :=
  counted.same rfl rfl (length_modify q f) (entry_modify_field RatedEntry.tcRef same) rfl

theorem RefCounted.map (counted : RefCounted s) {f : RatedEntry → RatedEntry}
    (same : ∀ e, (f e).tcRef = e.tcRef) :
    RefCounted { s with queueBuf := s.queueBuf.map f } := by
  refine ⟨?_, ?_, ?_, counted.underflowed⟩
  · simpa using counted.topRated
  · simpa using counted.candidates
  · intro q inside
    rw [List.length_map] at inside
    rw [entry_map inside, same]
    exact counted.count q inside

theorem markAsRedundant_tcRef (cfg : RatingConfig) (state : Bool) (e : RatedEntry) :
    (markAsRedundant cfg state e).tcRef = e.tcRef := by
  unfold markAsRedundant
  split <;> rfl

theorem RefCounted.favor (counted : RefCounted s) (q : Nat) : RefCounted (s.favor q) := by
  unfold Ratings.favor
  split
  · exact counted
  · exact (counted.modify q rfl).same rfl rfl rfl (fun _ => rfl) rfl

theorem RefCounted.cullIndex {c : Ratings n × List Byte} (counted : RefCounted c.1)
    (i : Fin n) : RefCounted (cullIndex c i).1 := by
  unfold Ratings.cullIndex
  split
  · exact counted
  · exact counted.favor _

theorem RefCounted.cullQueue (counted : RefCounted s) (cfg : RatingConfig) :
    RefCounted (cullQueue cfg s) := by
  unfold Ratings.cullQueue
  split
  · exact counted
  have cleared : RefCounted { s with queueBuf := s.queueBuf.map ({ · with favored := false }) } :=
    counted.map fun _ => rfl
  have start : RefCounted s.startCull.1 := cleared.same rfl rfl rfl (fun _ => rfl) rfl
  have chosen : RefCounted ((List.finRange n).foldl Ratings.cullIndex s.startCull).1 :=
    List.foldlRecOn (motive := fun c : Ratings n × List Byte => RefCounted c.1) _ _ start
      fun _ so_far i _ => so_far.cullIndex i
  refine (chosen.map ?_).same rfl rfl rfl (fun _ => rfl) rfl
  intro e
  split
  · rfl
  · exact markAsRedundant_tcRef ..

/-! ## Runs -/

theorem RefCounted.addToQueue (counted : RefCounted s) (merit : Merit) (wasFuzzed : Bool) :
    RefCounted (s.addToQueue merit wasFuzzed) := by
  have longer := length_addToQueue (s := s) merit wasFuzzed
  refine ⟨?_, ?_, ?_, counted.underflowed⟩
  · intro i q at_
    have inside := counted.topRated i q at_
    omega
  · intro i q member
    have inside := counted.candidates i q member
    omega
  · intro q inside
    by_cases old : q < s.queueBuf.length
    · have same : (s.addToQueue merit wasFuzzed).entry q = s.entry q := by
        simp only [entry, Ratings.addToQueue, List.getElem?_append_left old]
      rw [same]
      exact counted.count q old
    · -- the new entry has no slots yet
      obtain rfl : q = s.queueBuf.length := by omega
      have none_held : s.slots s.queueBuf.length = ∅ := by
        rw [slots, Finset.filter_eq_empty_iff]
        intro i _ at_
        exact (counted.topRated i _ at_).false
      have new_slots : (s.addToQueue merit wasFuzzed).slots s.queueBuf.length = ∅ := none_held
      rw [new_slots, entry_addToQueue_length]
      rfl

/-- No call breaks the count. -/
theorem RefCounted.apply (counted : RefCounted s) (small : n < 2 ^ 32) (c : RatingCall n)
    (valid : c.Valid s) : RefCounted (c.apply s) := by
  cases c with
  | add merit wasFuzzed => exact counted.addToQueue merit wasFuzzed
  | change q merit => exact counted.modify q rfl
  | disable q => exact counted.modify q rfl
  | score cfg trace q haveTrace =>
    have traced : RefCounted { s with traceBits := trace } :=
      counted.same rfl rfl rfl (fun _ => rfl) rfl
    exact (CountedAs.updateBitmapScore traced small cfg valid haveTrace).counted
  | rescore cfg trace q i =>
    have traced : RefCounted { s with traceBits := trace } :=
      counted.same rfl rfl rfl (fun _ => rfl) rfl
    exact (CountedAs.updateBitmapRescore traced small cfg valid i).counted
  | recalculate cfg run => exact (CountedAs.recalculateAllScores run counted small cfg).counted
  | redundant cfg q state => exact counted.modify q (markAsRedundant_tcRef cfg state _)
  | cull cfg => exact counted.cullQueue cfg

end Ratings

open Ratings

theorem RatingRun.refCounted {Allowed : Ratings n → RatingCall n → Prop} (small : n < 2 ^ 32)
    {s : Ratings n} (run : RatingRun Allowed s) : RefCounted s := by
  induction run with
  | start => exact .initial
  | call _ c valid _ counted => exact counted.apply small c valid

/-- In every run an entry has as many references as it holds slots, and no reference count
was decremented at zero. -/
theorem tcRef_counts_slots (small : n < 2 ^ 32) {s : Ratings n}
    (run : RatingRun (fun _ _ => True) s) :
    (∀ q < s.queueBuf.length,
      (s.entry q).tcRef.toNat = (Finset.univ.filter (s.topRated · = some q)).card) ∧
    s.underflowed = false :=
  ⟨(run.refCounted small).count, (run.refCounted small).underflowed⟩

/-- Two entries that share two indices. -/
theorem tcRef_counts_slots_shared :
    let cfg : RatingConfig := ⟨.explore, false, fun _ => 0, false, false⟩
    let s : Ratings 2 := [.add ⟨2, 1, 0, 0⟩ false, .score cfg (fun _ => 1) 0 true,
      .add ⟨1, 1, 0, 0⟩ false, .score cfg (fun i => if i = 1 then 1 else 0) 1 true,
      .cull cfg].foldl RatingCall.apply (.initial 2)
    (∀ q < s.queueBuf.length,
      (s.entry q).tcRef.toNat = (Finset.univ.filter (s.topRated · = some q)).card) ∧
    s.underflowed = false := by
  intro cfg s
  have empty : RatingRun (fun _ _ => True) (.initial 2) := .start
  have first := empty.call (.add ⟨2, 1, 0, 0⟩ false) trivial trivial
  have scored := first.call (.score cfg (fun _ => 1) 0 true) (by decide) trivial
  have second := scored.call (.add ⟨1, 1, 0, 0⟩ false) trivial trivial
  have shared := second.call (.score cfg (fun i => if i = 1 then 1 else 0) 1 true)
    (by decide) trivial
  exact tcRef_counts_slots (by decide) (shared.call (.cull cfg) trivial trivial)

end Swam.Afl
