import Swam.Afl.CacheAccounting

/-!
# Eviction from the testcase cache

The eviction loop draws slots until one has an occupant other than the current entry. The
slots and the count stay in step in every run, whatever trims do to the size, so with two
occupied slots there is always such an occupant. The loop is entered with fewer only when the
table is for one or two entries.
-/
namespace Swam.Afl

open Lib

/-! ## Random sources -/

/-- Every index below the limit comes again and again. -/
def YieldsAll (limit : Nat) (source : Nat → Nat) : Prop :=
  ∀ i < limit, ∀ pos, ∃ k ≥ pos, TestcaseCache.randBelow limit (source k) = i

/-- Some draws of a source, from a position on. -/
def drawsFrom (source : Nat → Nat) (pos n : Nat) : List Nat := (List.range' pos n).map source

theorem drawsFrom_succ (source : Nat → Nat) (pos n : Nat) :
    drawsFrom source pos (n + 1) = source pos :: drawsFrom source (pos + 1) n := rfl

namespace TestcaseCache

variable {s s' : TestcaseCache}

/-! ## What holds whatever the size -/

/-- The size and its limit replaced. -/
def resize (s : TestcaseCache) (size : BitVec 64) : TestcaseCache :=
  { s with cacheSize := size, maxCacheSize := 0 }

/-- Slots, counts and buffers are in step: with another size the cache is accounted. -/
def Slotted (s : TestcaseCache) : Prop := ∃ size, Accounted (s.resize size)

namespace Slotted

theorem initial (maxCacheSize : BitVec 64) (maxCacheEntries : BitVec 32) :
    Slotted (.initial maxCacheSize maxCacheEntries) :=
  ⟨0, Accounted.initial 0 maxCacheEntries⟩

theorem addToQueue (slotted : Slotted s) (len : BitVec 32) : Slotted (s.addToQueue len) :=
  let ⟨size, accounted⟩ := slotted
  ⟨size, accounted.addToQueue len⟩

theorem learnMaxEntries (slotted : Slotted s) (newCells : Nat → Option Nat) (len : BitVec 32) :
    Slotted (s.learnMaxEntries newCells len) := by
  by_cases learns : s.learns len = true
  · obtain ⟨size, accounted⟩ := slotted
    refine ⟨size, ?_⟩
    have learned := accounted.learnMaxEntries newCells len
    -- with no limit on the size the cache is too large
    have also : (s.resize size).learns len = true :=
      decide_eq_true ⟨decide_eq_true (BitVec.le_def.mpr (Nat.zero_le _)),
        (of_decide_eq_true learns).2⟩
    rw [TestcaseCache.learnMaxEntries, if_pos also] at learned
    rw [TestcaseCache.learnMaxEntries, if_pos learns]
    exact learned
  · rw [TestcaseCache.learnMaxEntries, if_neg learns]
    exact slotted

theorem register (slotted : Slotted s) {q tid : Nat} (inside : q < s.queueBuf.length)
    (uncached : (s.entry q).testcaseBuf = false)
    (found : Slots.freeFrom s.cache tid < s.maxCacheEntries)
    (registered : s.register q tid = some s') : Slotted s' := by
  obtain ⟨size, accounted⟩ := slotted
  refine ⟨size + (s.entry q).len.setWidth 64, ?_⟩
  rw [TestcaseCache.register] at registered
  split at registered
  next within =>
    cases registered
    refine accounted.register inside uncached found ?_
    exact if_pos within
  next => cases registered

/-- A place in the count is a free slot of the table. -/
theorem registerFrom (slotted : Slotted s) {q tid : Nat} (inside : q < s.queueBuf.length)
    (uncached : (s.entry q).testcaseBuf = false) (start : SearchFrom s tid)
    (place : s.cacheCount < s.maxEntriesLessOne)
    (registered :
      s.register q (if s.maxCacheEntries ≤ tid then s.smallestFree else tid) = some s') :
    Slotted s' ∧ s'.cacheCount = s.cacheCount + 1 ∧ s'.maxCacheEntries = s.maxCacheEntries ∧
      0 < s.maxCacheEntries := by
  have accounted : ∃ size, Accounted (s.resize size) := slotted
  obtain ⟨size, accounted⟩ := accounted
  have some_ : 0 < s.maxCacheEntries := by
    rcases Nat.eq_zero_or_pos s.maxCacheEntries with zero | some_
    · have none_ : s.cache = [] := accounted.unallocated zero
      rw [TestcaseCache.register, if_neg (by simp [none_])] at registered
      cases registered
    · exact some_
  have found := @Accounted.found _ accounted tid start some_ place
  have registered' := slotted.register inside uncached found registered
  rw [TestcaseCache.register] at registered
  generalize (if s.maxCacheEntries ≤ tid then s.smallestFree else tid) = from_ at registered
  split at registered
  next =>
    cases registered
    exact ⟨registered', rfl, rfl, some_⟩
  next => cases registered

/-- A trim touches no slot and no buffer. -/
theorem trimCase (slotted : Slotted s) {q : Nat} (inside : q < s.queueBuf.length) (t : Trim) :
    Slotted (s.trimCase q t) := by
  obtain ⟨size, accounted⟩ := slotted
  rw [trimCase_eq inside]
  have entries (p : Nat) : (s.modify q ({ · with len := t.len })).entry p =
      if p = q then { s.entry q with len := t.len } else s.entry p := entry_modify inside _ p
  refine ⟨BitVec.ofNat 64 (Slots.weight (s.modify q ({ · with len := t.len })).lenOf s.slots), ?_⟩
  refine ⟨?_, accounted.count, accounted.beyond, ?_, accounted.dense, accounted.max, accounted.room,
    accounted.small, accounted.unallocated⟩
  · have fits : Slots.weight (s.modify q ({ · with len := t.len })).lenOf s.slots < 2 ^ 64 :=
      weight_lt (fun p => ((s.modify q ({ · with len := t.len })).entry p).len.isLt)
        accounted.beyond (Nat.lt_of_le_of_lt accounted.max accounted.small)
    exact (BitVec.toNat_ofNat _ _).trans (Nat.mod_eq_of_lt fits)
  · intro p
    have buffer : ((s.modify q ({ · with len := t.len })).entry p).testcaseBuf =
        (s.entry p).testcaseBuf := by
      rw [entries]
      split
      next here => rw [here]
      next => rfl
    refine (accounted.once p).trans ?_
    exact congrArg (fun cached : Bool => if cached then 1 else 0) buffer.symm

theorem count (slotted : Slotted s) : s.cacheCount = Slots.occupied s.slots :=
  let ⟨_, accounted⟩ := slotted
  accounted.count

theorem beyond (slotted : Slotted s) {i q : Nat} (at_ : s.slots[i]? = some (some q)) :
    i < s.maxCacheCount :=
  let ⟨_, accounted⟩ := slotted
  accounted.beyond i q at_

theorem once (slotted : Slotted s) (q : Nat) :
    Slots.holds s.slots q = if (s.entry q).testcaseBuf then 1 else 0 :=
  let ⟨_, accounted⟩ := slotted
  accounted.once q

theorem max (slotted : Slotted s) : s.maxCacheCount ≤ s.maxCacheEntries :=
  let ⟨_, accounted⟩ := slotted
  accounted.max

theorem unallocated (slotted : Slotted s) (zero : s.maxCacheEntries = 0) : s.cache = [] :=
  let ⟨_, accounted⟩ := slotted
  accounted.unallocated zero

theorem small (slotted : Slotted s) : s.maxCacheEntries < 2 ^ 32 :=
  let ⟨_, accounted⟩ := slotted
  accounted.small

theorem count_le (slotted : Slotted s) : s.cacheCount ≤ s.maxCacheCount := by
  rw [slotted.count]
  exact Slots.occupied_le fun _ _ at_ => slotted.beyond at_

end Slotted

/-! ## Victims -/

/-- A slot has an occupant that is not in use. -/
def Victim (queueCur : Option Nat) (s : TestcaseCache) (tid : Nat) : Prop :=
  tid < s.maxCacheCount ∧ ∃ v, s.cache[tid]? = some (some v) ∧ queueCur ≠ some v

theorem Slotted.held (slotted : Slotted s) {i v : Nat} (below : i < s.maxCacheCount)
    (held : s.cache[i]? = some (some v)) : s.slots[i]? = some (some v) :=
  (slots_getElem? (Nat.lt_of_lt_of_le below slotted.max)).trans held

/-- Of two occupied slots one has an occupant that is not in use. -/
theorem Slotted.exists_victim (slotted : Slotted s) (queueCur : Option Nat) (two : 2 ≤ s.cacheCount) :
    ∃ tid, Victim queueCur s tid := by
  by_contra! none_
  have only : ∀ (i v : Nat), s.slots[i]? = some (some v) → queueCur = some v := by
    intro i v at_
    by_contra other
    exact none_ i ⟨slotted.beyond at_, v, (of_slots at_).2, other⟩
  have many : 2 ≤ Slots.occupied s.slots := slotted.count ▸ two
  obtain ⟨i, v, at_⟩ := Slots.exists_of_occupied_pos (by omega : 0 < Slots.occupied s.slots)
  have cur := only i v at_
  have same : Slots.occupied s.slots = Slots.holds s.slots v := by
    apply Slots.occupied_eq_holds
    intro j w at_'
    exact Option.some.inj ((only j w at_').symm.trans cur)
  have once := slotted.once v
  split at once <;> omega

/-- A table for one entry has no victim, nor has a table for two that holds the current one. -/
theorem Slotted.no_victim (slotted : Slotted s) {queueCur : Option Nat}
    (bounded : s.cacheCount + 1 ≤ s.maxCacheEntries)
    (tight : s.maxCacheEntries = 1 ∨
      s.maxCacheEntries = 2 ∧ ∃ c, queueCur = some c ∧ (s.entry c).testcaseBuf = true) (tid : Nat) :
    ¬ Victim queueCur s tid := by
  rintro ⟨below, v, cell, other⟩
  have held := slotted.held below cell
  have positive := Slots.occupied_set_none held
  have count := slotted.count
  rcases tight with one | ⟨two, c, rfl, cached⟩
  · omega
  · have remains := Slots.holds_set_none held c
    have once := slotted.once c
    have apart : v ≠ c := fun same => other (congrArg some same.symm)
    have among := Slots.holds_le_occupied (s.slots.set tid none) c
    rw [if_pos cached] at once
    simp only [Ne.symm apart, if_false] at remains
    omega

/-! ## The search for a victim -/

theorem victim_iff {queueCur : Option Nat} {tid : Nat} (below : tid < s.maxCacheCount) :
    Victim queueCur s tid ↔ ¬ (s.slot tid = none ∨ s.slot tid = queueCur) := by
  unfold Victim slot
  cases at_ : s.cache[tid]? with
  | none => simp
  | some o =>
    cases o with
    | none => simp
    | some v => simp [below, eq_comm]

/-- Draws that do not lead to a victim are passed over. -/
theorem pickVictim_draws {queueCur : Option Nat} {source : Nat → Nat} {d pos : Nat}
    (some_ : 0 < s.maxCacheCount)
    (victim : Victim queueCur s (randBelow s.maxCacheCount (source (pos + d)))) :
    ∃ tid pos', Victim queueCur s tid ∧ ∀ m, ∃ n,
      s.pickVictim queueCur (drawsFrom source pos n) = some (tid, drawsFrom source pos' m) := by
  have below (draw : Nat) : randBelow s.maxCacheCount draw < s.maxCacheCount := by
    unfold randBelow
    split
    · exact some_
    · exact Nat.mod_lt _ some_
  induction d generalizing pos with
  | zero =>
    refine ⟨_, pos + 1, victim, fun m => ⟨m + 1, ?_⟩⟩
    rw [drawsFrom_succ, pickVictim]
    exact if_neg ((victim_iff (below _)).mp victim)
  | succ d ih =>
    by_cases now : Victim queueCur s (randBelow s.maxCacheCount (source pos))
    · refine ⟨_, pos + 1, now, fun m => ⟨m + 1, ?_⟩⟩
      rw [drawsFrom_succ, pickVictim]
      exact if_neg ((victim_iff (below _)).mp now)
    · obtain ⟨tid, pos', found, picks⟩ := @ih (pos + 1) (by rwa [Nat.add_right_comm])
      refine ⟨tid, pos', found, fun m => ?_⟩
      obtain ⟨n, picked⟩ := picks m
      refine ⟨n + 1, ?_⟩
      rw [drawsFrom_succ, pickVictim]
      rw [victim_iff (below _), not_not] at now
      exact (if_pos now).trans picked

/-! ## The eviction loop -/

theorem evict_of_held {tid v : Nat} (held : s.cache[tid]? = some (some v)) :
    s.evict tid = { s.modify v ({ · with testcaseBuf := false }) with
      cacheSize := s.cacheSize - (s.entry v).len.setWidth 64
      cache := s.cache.set tid none
      cacheCount := s.cacheCount - 1
      smallestFree := if tid < s.smallestFree then tid else s.smallestFree } := by
  have occupant : s.slot tid = some v := by rw [slot, held]; rfl
  simp only [TestcaseCache.evict, occupant]

/-- What an eviction leaves as it was. -/
theorem Slotted.evicted (slotted : Slotted s) {tid v : Nat} (held : s.slots[tid]? = some (some v)) :
    Slotted (s.evict tid) ∧ SearchFrom (s.evict tid) tid ∧
      (s.evict tid).queueBuf.length = s.queueBuf.length ∧
      ∀ p, (s.entry p).testcaseBuf = false → ((s.evict tid).entry p).testcaseBuf = false := by
  obtain ⟨size, accounted⟩ := slotted
  obtain ⟨evicted, from_⟩ := Evicted.evict (s := s.resize size) accounted held
  rw [evict_of_held (s := s.resize size) (of_slots held).2] at evicted from_
  rw [evict_of_held (of_slots held).2]
  exact ⟨⟨_, evicted.accounted⟩, from_, evicted.length, evicted.uncached⟩

/-- What learning the number of entries leaves as it was. -/
theorem Slotted.learned (slotted : Slotted s) (newCells : Nat → Option Nat) (len : BitVec 32)
    (queueCur : Option Nat) :
    Slotted (s.learnMaxEntries newCells len) ∧
      (s.learnMaxEntries newCells len).cacheCount = s.cacheCount ∧
      (s.learnMaxEntries newCells len).maxCacheCount = s.maxCacheCount ∧
      (s.cacheCount + 1 ≤ s.maxCacheEntries →
        s.cacheCount + 1 ≤ (s.learnMaxEntries newCells len).maxCacheEntries) ∧
      ∀ tid, Victim queueCur s tid → Victim queueCur (s.learnMaxEntries newCells len) tid := by
  have after := slotted.learnMaxEntries newCells len
  have few := slotted.count_le
  rcases learned_or_same few newCells len with ⟨-, learned⟩ | ⟨-, same⟩
  · refine ⟨after, learned.count, learned.maxCount, ?_, ?_⟩
    · intro _
      rw [learned.maxEntries]
      omega
    · rintro tid ⟨below, v, held, other⟩
      have inside := (List.getElem?_eq_some_iff.mp held).1
      refine ⟨learned.maxCount ▸ below, v, ?_, other⟩
      rw [learned.cache, Slots.realloc_getElem? (by omega) inside, held]
  · rw [same]
    exact ⟨slotted, rfl, rfl, id, fun _ => id⟩

/-- The slot that is drawn holds an entry. -/
theorem Slotted.pickVictim_held (slotted : Slotted s) {queueCur : Option Nat}
    {draws rest : List Nat} {tid : Nat}
    (picked : s.pickVictim queueCur draws = some (tid, rest)) :
    ∃ v, s.slots[tid]? = some (some v) := by
  obtain ⟨size, accounted⟩ := slotted
  have same : (s.resize size).pickVictim queueCur draws = s.pickVictim queueCur draws := by
    -- a draw does not look at the size
    clear picked
    induction draws with
    | nil => rfl
    | cons draw draws ih =>
      rw [pickVictim, pickVictim, ih]
      rfl
  exact accounted.pickVictim_held (same.trans picked)

/-- With a victim for the first round the loop ends: after an eviction the count is below its
limit, so that a further round finds two occupied slots. -/
theorem evictUntilRoom_ends {newCells : Nat → Option Nat} {queueCur : Option Nat}
    {len : BitVec 32} {source : Nat → Nat} {pos tid : Nat} (slotted : Slotted s)
    (bounded : s.cacheCount + 1 ≤ s.maxCacheEntries) (fair : YieldsAll s.maxCacheCount source)
    (victim : s.full len = true → ∃ tid, Victim queueCur s tid) :
    ∃ n s' tid', evictUntilRoom newCells queueCur len s.cacheCount (drawsFrom source pos n) s tid =
      some (s', tid') := by
  induction count : s.cacheCount generalizing s pos tid with
  | zero =>
    by_cases full : s.full len = true
    · obtain ⟨_, below, v, cell, _⟩ := victim full
      have positive := Slots.occupied_set_none (slotted.held below cell)
      have := slotted.count
      omega
    · exact ⟨0, s, tid, by rw [evictUntilRoom, if_neg full]⟩
  | succ rounds ih =>
    by_cases full : s.full len = true
    · obtain ⟨first, found⟩ := victim full
      obtain ⟨learned, counts, most, bounded', victims⟩ := slotted.learned newCells len queueCur
      have usable := victims first found
      obtain ⟨k, late, drawn⟩ := fair first found.1 pos
      obtain ⟨d, rfl⟩ := Nat.exists_eq_add_of_le late
      obtain ⟨chosen, pos', ⟨below, v, cell, _⟩, picks⟩ :=
        @pickVictim_draws _ queueCur source d pos
          (Nat.lt_of_le_of_lt (Nat.zero_le _) usable.1) (by rw [most, drawn]; exact usable)
      obtain ⟨evicted, -, -, -⟩ := learned.evicted (learned.held below cell)
      have freed := freed_of_held cell
      have room := bounded' bounded
      have fewer := freed.count
      have entries := freed.maxEntries
      obtain ⟨m, s', tid', ended⟩ := @ih _ pos' chosen evicted (by omega)
        (by rw [freed.maxCount, most]; exact fair) (by
          intro again
          apply evicted.exists_victim
          have small := learned.small
          have reasons := of_decide_eq_true again
          unfold maxEntriesLessOne at reasons
          omega) (by omega)
      obtain ⟨n, picked⟩ := picks m
      refine ⟨n, s', tid', ?_⟩
      rw [evictUntilRoom, if_pos full]
      simp only [picked]
      exact ended
    · exact ⟨0, s, tid, by rw [evictUntilRoom, if_neg full]⟩

/-! ## Calls -/

/-- What holds of the cache in every run: the count leaves one entry free. -/
structure Stocked (s : TestcaseCache) : Prop where
  slotted : Slotted s
  bounded : 0 < s.maxCacheEntries → s.cacheCount + 1 ≤ s.maxCacheEntries

/-- What is left when the loop ends. -/
theorem Slotted.evictUntilRoom {newCells : Nat → Option Nat} {queueCur : Option Nat}
    {len : BitVec 32} {rounds : Nat} {draws : List Nat} {tid tid' : Nat} (slotted : Slotted s)
    (start : SearchFrom s tid)
    (ends : evictUntilRoom newCells queueCur len rounds draws s tid = some (s', tid')) :
    Slotted s' ∧ SearchFrom s' tid' ∧ s'.full len = false ∧
      s'.queueBuf.length = s.queueBuf.length ∧
      ∀ p, (s.entry p).testcaseBuf = false → (s'.entry p).testcaseBuf = false := by
  induction rounds generalizing s tid draws with
  | zero =>
    unfold TestcaseCache.evictUntilRoom at ends
    split at ends
    next => cases ends
    next room =>
      cases ends
      exact ⟨slotted, start, by simpa using room, rfl, fun _ => id⟩
  | succ rounds ih =>
    unfold TestcaseCache.evictUntilRoom at ends
    split at ends
    next =>
      dsimp only at ends
      split at ends
      next => cases ends
      next victim rest picked =>
        have learned := slotted.learnMaxEntries newCells len
        have queue := queueBuf_learnMaxEntries (s := s) newCells len
        obtain ⟨v, held⟩ := learned.pickVictim_held picked
        obtain ⟨evicted, from_, length, uncached⟩ := learned.evicted held
        obtain ⟨slotted', found, room, length', uncached'⟩ := ih evicted from_ ends
        refine ⟨slotted', found, room, ?_, ?_⟩
        · rw [length', length, queue]
        · intro p free
          exact uncached' p (uncached p (by rwa [entry, queue]))
    next room =>
      cases ends
      exact ⟨slotted, start, by simpa using room, rfl, fun _ => id⟩

theorem Slotted.stocked_register (slotted : Slotted s) {q tid : Nat} (inside : q < s.queueBuf.length)
    (uncached : (s.entry q).testcaseBuf = false) (start : SearchFrom s tid)
    (place : s.cacheCount < s.maxEntriesLessOne)
    (registered :
      s.register q (if s.maxCacheEntries ≤ tid then s.smallestFree else tid) = some s') :
    Stocked s' := by
  obtain ⟨slotted', count, entries, some_⟩ := slotted.registerFrom inside uncached start place registered
  refine ⟨slotted', fun _ => ?_⟩
  have small := slotted.small
  unfold maxEntriesLessOne at place
  rw [count, entries]
  omega

theorem Stocked.queueTestcaseGet (stocked : Stocked s) {newCells : Nat → Option Nat}
    {queueCur : Option Nat} {light : Bool} {q : Nat} {draws : List Nat}
    (inside : q < s.queueBuf.length)
    (returns : queueTestcaseGet newCells queueCur light s q draws = some s') : Stocked s' := by
  unfold TestcaseCache.queueTestcaseGet at returns
  split at returns
  next =>
    cases returns
    exact stocked
  next uncached =>
    split at returns
    next =>
      cases returns
      exact stocked
    next =>
      split at returns
      next => cases returns
      next room tid ends =>
        obtain ⟨slotted, found, place, length, free⟩ := stocked.slotted.evictUntilRoom (.inl rfl) ends
        have below : room.cacheCount < room.maxEntriesLessOne := by
          simp only [full, decide_eq_false_iff_not, not_or] at place
          omega
        exact slotted.stocked_register (length ▸ inside) (free q (by simpa using uncached)) found
          below returns

theorem Stocked.queueTestcaseStoreMem (stocked : Stocked s) {build : EffBuild} {light : Bool}
    {q : Nat} (inside : q < s.queueBuf.length) (uncached : (s.entry q).testcaseBuf = false)
    (returns : queueTestcaseStoreMem build light s q = some s') : Stocked s' := by
  unfold TestcaseCache.queueTestcaseStoreMem at returns
  split at returns
  next =>
    cases returns
    exact stocked
  next space =>
    have place : s.cacheCount < s.maxEntriesLessOne := by
      simp only [noSpace, decide_eq_true_iff, not_or] at space
      omega
    exact stocked.slotted.stocked_register inside uncached (.inl rfl) place returns

end TestcaseCache

open TestcaseCache

/-- Only an entry that is not cached is stored: it has just been added to the queue. -/
def CacheCall.Fresh (s : TestcaseCache) : CacheCall → Prop
  | .storeMem _ _ q => (s.entry q).testcaseBuf = false
  | .addToQueue _ | .get .. | .trim .. => True

theorem TestcaseCache.Stocked.apply {s s' : TestcaseCache} (stocked : Stocked s) {c : CacheCall}
    (valid : c.Valid s) (fresh : c.Fresh s) (returns : c.apply s = some s') : Stocked s' := by
  cases c with
  | addToQueue len =>
    cases returns
    exact ⟨stocked.slotted.addToQueue len, stocked.bounded⟩
  | get newCells queueCur light q draws => exact stocked.queueTestcaseGet valid returns
  | storeMem build light q => exact stocked.queueTestcaseStoreMem valid fresh returns
  | trim q t =>
    cases returns
    refine ⟨stocked.slotted.trimCase valid t, ?_⟩
    rw [trimCase_eq valid]
    exact stocked.bounded

theorem CacheRun.stocked {s : TestcaseCache} (run : CacheRun (fun s c => c.Fresh s) s) : Stocked s := by
  induction run with
  | start maxCacheSize maxCacheEntries => exact ⟨.initial maxCacheSize maxCacheEntries, id⟩
  | call _ c valid fresh returns stocked => exact stocked.apply valid fresh returns

/-! ## When eviction ends -/

/-- There is a slot to evict, a search for one ends, and the loop ends after at most as many
evictions as entries are cached, whatever a table that grows holds in its new cell. -/
structure EvictionEnds (queueCur : Option Nat) (s : TestcaseCache) (len : BitVec 32) : Prop where
  victim : ∃ tid, Victim queueCur s tid
  search : ∀ newCells source, YieldsAll s.maxCacheCount source →
    ∃ n, ((s.learnMaxEntries newCells len).pickVictim queueCur (drawsFrom source 0 n)).isSome
  evictions : ∀ newCells source, YieldsAll s.maxCacheCount source → ∃ n s' tid,
    evictUntilRoom newCells queueCur len s.cacheCount (drawsFrom source 0 n) s s.maxCacheCount =
      some (s', tid)

theorem TestcaseCache.Slotted.evictionEnds {s : TestcaseCache} (slotted : Slotted s)
    {queueCur : Option Nat} {len : BitVec 32} (bounded : s.cacheCount + 1 ≤ s.maxCacheEntries)
    (victim : ∃ tid, Victim queueCur s tid) : EvictionEnds queueCur s len where
  victim
  search := by
    intro newCells source fair
    obtain ⟨tid, found⟩ := victim
    obtain ⟨_, _, most, _, victims⟩ := slotted.learned newCells len queueCur
    have usable := victims tid found
    obtain ⟨k, _, drawn⟩ := fair tid found.1 0
    obtain ⟨chosen, pos', _, picks⟩ := @pickVictim_draws _ queueCur source k 0
      (Nat.lt_of_le_of_lt (Nat.zero_le _) usable.1) (by rw [most, Nat.zero_add, drawn]; exact usable)
    obtain ⟨n, picked⟩ := picks 0
    exact ⟨n, by rw [picked]; rfl⟩
  evictions := fun _ _ fair => evictUntilRoom_ends slotted bounded fair fun _ => victim

/-- Eviction ends unless the table is for one entry, or for two and holds the current one. -/
theorem eviction_ends {s : TestcaseCache} (run : CacheRun (fun s c => c.Fresh s) s)
    (queueCur : Option Nat) (light : Bool) (q : Nat) :
    (EntersEviction light s q → EvictionEnds queueCur s (s.entry q).len) ↔
      (EntersEviction light s q → s.maxCacheEntries ≠ 1 ∧
        (s.maxCacheEntries = 2 → ∀ c, queueCur = some c → (s.entry c).testcaseBuf = false)) := by
  have stocked := run.stocked
  have slotted := stocked.slotted
  have small := slotted.small
  refine forall_congr' fun enters => ?_
  have reasons := of_decide_eq_true enters.2.2.2
  have some_ : 0 < s.maxCacheEntries := by
    by_contra zero
    have none_ : s.cache = [] := slotted.unallocated (by omega)
    have count : s.cacheCount = 0 := by
      simp [slotted.count, slots, none_, Slots.occupied]
    unfold maxEntriesLessOne at reasons
    omega
  have bounded := stocked.bounded some_
  constructor
  · intro ends
    obtain ⟨tid, victim⟩ := ends.victim
    constructor
    · intro one
      exact slotted.no_victim bounded (.inl one) tid victim
    · intro two c cur
      rw [← Bool.not_eq_true]
      intro cached
      exact slotted.no_victim bounded (.inr ⟨two, c, cur, cached⟩) tid victim
  · rintro ⟨notOne, ifTwo⟩
    apply slotted.evictionEnds bounded
    unfold maxEntriesLessOne at reasons
    by_cases two : s.maxCacheEntries = 2
    · have positive : 0 < Slots.occupied s.slots := by
        rw [← slotted.count]
        omega
      obtain ⟨tid, v, held⟩ := Slots.exists_of_occupied_pos positive
      refine ⟨tid, slotted.beyond held, v, (of_slots held).2, ?_⟩
      intro cur
      have once := slotted.once v
      have holds := Slots.holds_pos held
      rw [ifTwo two v cur] at once
      simp only [Bool.false_eq_true, if_false] at once
      omega
    · exact slotted.exists_victim queueCur (by omega)

/-- A table for two entries that holds the current one, and an entry to be loaded. -/
def tableForTwo : TestcaseCache :=
  ⟨[⟨100, true⟩, ⟨200, false⟩], [some 0, none], 52428800, 2, 100, 1, 1, 0, false⟩

theorem tableForTwo_run : CacheRun (fun s c => c.Fresh s) tableForTwo := by
  have empty : CacheRun (fun s c => c.Fresh s) (.initial 52428800 2) := .start ..
  have first := empty.call (.addToQueue 100) trivial trivial rfl
  have loaded := first.call (.get (fun _ => none) none false 0 []) (by decide) trivial rfl
  exact loaded.call (.addToQueue 200) trivial trivial rfl

theorem eviction_ends_tableForTwo :
    (EntersEviction false tableForTwo 1 →
      EvictionEnds none tableForTwo (tableForTwo.entry 1).len) ↔
      (EntersEviction false tableForTwo 1 → tableForTwo.maxCacheEntries ≠ 1 ∧
        (tableForTwo.maxCacheEntries = 2 → ∀ c, none = some c →
          (tableForTwo.entry c).testcaseBuf = false)) :=
  eviction_ends tableForTwo_run none false 1

/-- The one cached entry is the current one: the search for another never ends. -/
theorem eviction_endless :
    CacheRun (fun s c => c.Fresh s) tableForTwo ∧ EntersEviction false tableForTwo 1 ∧
      ¬ EvictionEnds (some 0) tableForTwo (tableForTwo.entry 1).len ∧
      ∀ draws, tableForTwo.pickVictim (some 0) draws = none := by
  refine ⟨tableForTwo_run, ⟨rfl, rfl, by decide, by decide⟩, ?_, ?_⟩
  · intro ends
    obtain ⟨tid, below, v, held, other⟩ := ends.victim
    have first : tid = 0 := Nat.lt_one_iff.mp below
    subst first
    cases held
    exact other rfl
  · intro draws
    induction draws with
    | nil => rfl
    | cons draw draws ih => exact ih

end Swam.Afl
