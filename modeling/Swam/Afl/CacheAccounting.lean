import Swam.Afl.TestcaseCache

/-!
# Accounting of the testcase cache

Loading, evicting and storing entries keep the size, the count and the slots in step. Trimming
changes the length of a cached entry and adjusts the size only on some branches, and then by a
difference of `u32`: the size stays right exactly when the length does, or when it grows on
a branch that adjusts.
-/
namespace Swam.Afl

open Lib

namespace TestcaseCache

variable {s s' : TestcaseCache}

/-! ## Access -/

theorem entry_modify {q : Nat} (inside : q < s.queueBuf.length) (f : CachedEntry → CachedEntry)
    (p : Nat) : (s.modify q f).entry p = if p = q then f (s.entry q) else s.entry p := by
  by_cases here : p = q
  · subst here
    simp [entry, modify, List.getElem?_eq_getElem inside]
  · simp [entry, modify, List.getElem?_modify_ne _ _ (Ne.symm here), here]

theorem length_modify (q : Nat) (f : CachedEntry → CachedEntry) :
    (s.modify q f).queueBuf.length = s.queueBuf.length := List.length_modify ..

/-- An entry with a buffer is one of the queue. -/
theorem inside_of_testcaseBuf {q : Nat} (cached : (s.entry q).testcaseBuf) :
    q < s.queueBuf.length := by
  by_contra outside
  rw [entry, List.getElem?_eq_none (by omega)] at cached
  cases cached

/-! ## The invariant -/

def lenOf (s : TestcaseCache) (q : Nat) : Nat := (s.entry q).len.toNat

/-- The slots that entries may take. A table that grew has a cell more, which is not used. -/
def slots (s : TestcaseCache) : List (Option Nat) := s.cache.take s.maxCacheEntries

theorem slots_getElem? {i : Nat} (below : i < s.maxCacheEntries) : s.slots[i]? = s.cache[i]? :=
  List.getElem?_take_of_lt below

theorem of_slots {i q : Nat} (held : s.slots[i]? = some (some q)) :
    i < s.maxCacheEntries ∧ s.cache[i]? = some (some q) := by
  rw [slots, List.getElem?_take] at held
  split at held
  next below => exact ⟨below, held⟩
  next => cases held

/-- The size is the sum of the lengths over the slots, the count that of the occupied slots,
and an entry with a buffer has one slot. The slots from `maxCacheCount` on are free, those
before `smallestFree` are not. -/
structure Accounted (s : TestcaseCache) : Prop where
  size : s.cacheSize.toNat = Slots.weight s.lenOf s.slots
  count : s.cacheCount = Slots.occupied s.slots
  beyond : ∀ i q, s.slots[i]? = some (some q) → i < s.maxCacheCount
  once : ∀ q, Slots.holds s.slots q = if (s.entry q).testcaseBuf then 1 else 0
  dense : ∀ i < s.smallestFree, ∃ q, s.slots[i]? = some (some q)
  max : s.maxCacheCount ≤ s.maxCacheEntries
  room : s.maxCacheEntries ≤ s.cache.length
  small : s.maxCacheEntries < 2 ^ 32
  unallocated : s.maxCacheEntries = 0 → s.cache = []

theorem Accounted.initial (maxCacheSize : BitVec 64) (maxCacheEntries : BitVec 32) :
    Accounted (.initial maxCacheSize maxCacheEntries) := by
  have free : (TestcaseCache.initial maxCacheSize maxCacheEntries).slots =
      List.replicate maxCacheEntries.toNat none := by
    simp [slots, TestcaseCache.initial]
  refine ⟨?_, ?_, ?_, ?_, ?_, Nat.zero_le _, ?_, maxCacheEntries.isLt, ?_⟩
  · rw [free]
    simp [Slots.weight, TestcaseCache.initial]
  · rw [free]
    simp [Slots.occupied, TestcaseCache.initial, List.countP_replicate]
  · intro i q at_
    rw [free] at at_
    cases List.eq_of_mem_replicate (List.mem_of_getElem? at_)
  · intro q
    rw [free]
    simp [Slots.holds, TestcaseCache.initial, entry, List.count_replicate]
  · exact fun i below => absurd below (Nat.not_lt_zero i)
  · simp [TestcaseCache.initial]
  · intro zero
    simp [TestcaseCache.initial, show maxCacheEntries.toNat = 0 from zero]

/-- The sum of the lengths fits in 64 bits. -/
theorem weight_lt {queueLen : Nat → Nat} (len : ∀ q, queueLen q < 2 ^ 32) {cache : List (Option Nat)}
    {maxCount : Nat} (beyond : ∀ i q, cache[i]? = some (some q) → i < maxCount)
    (small : maxCount < 2 ^ 32) : Slots.weight queueLen cache < 2 ^ 64 := by
  have few := Slots.occupied_le beyond
  calc Slots.weight queueLen cache
      ≤ Slots.occupied cache * (2 ^ 32 - 1) := Slots.weight_le fun q => by have := len q; omega
    _ ≤ (2 ^ 32 - 1) * (2 ^ 32 - 1) := Nat.mul_le_mul_right _ (by omega)
    _ < 2 ^ 64 := by decide

/-! ## Registering and evicting -/

/-- The length is the only thing that the weights depend on. -/
theorem weight_congr (cache : List (Option Nat))
    (len : ∀ q, (s'.entry q).len = (s.entry q).len) :
    Slots.weight s'.lenOf cache = Slots.weight s.lenOf cache := by
  have same : s'.lenOf = s.lenOf := funext fun q => by rw [lenOf, len, lenOf]
  rw [same]

/-- What registering changes. -/
structure Registered (s : TestcaseCache) (q t : Nat) (s' : TestcaseCache) : Prop where
  slots : s'.slots = s.slots.set t (some q)
  cache : s'.cache = s.cache.set t (some q)
  entry : ∀ p, s'.entry p = if p = q then { s.entry q with testcaseBuf := true } else s.entry p
  size : s'.cacheSize = s.cacheSize + (s.entry q).len.setWidth 64
  count : s'.cacheCount = s.cacheCount + 1
  maxCount : s'.maxCacheCount = if s.maxCacheCount ≤ t then t + 1 else s.maxCacheCount
  smallest : s'.smallestFree = if s.maxCacheCount ≤ t then s.smallestFree
    else if t = s.smallestFree then t + 1 else s.smallestFree
  maxEntries : s'.maxCacheEntries = s.maxCacheEntries

theorem registered_of_register {q tid : Nat} (inside : q < s.queueBuf.length)
    (registered : s.register q tid = some s') :
    Registered s q (Slots.freeFrom s.cache tid) s' := by
  rw [TestcaseCache.register] at registered
  generalize Slots.freeFrom s.cache tid = t at registered ⊢
  split at registered
  next =>
    cases registered
    exact ⟨List.take_set, rfl, entry_modify inside _, rfl, rfl, rfl, rfl, rfl⟩
  next => cases registered

/-- An entry without a buffer is given a free slot below the maximum of entries. -/
theorem Accounted.register (accounted : Accounted s) {q tid : Nat}
    (inside : q < s.queueBuf.length) (uncached : (s.entry q).testcaseBuf = false)
    (found : Slots.freeFrom s.cache tid < s.maxCacheEntries)
    (registered : s.register q tid = some s') : Accounted s' := by
  have within : Slots.freeFrom s.cache tid < s.cache.length := Nat.lt_of_lt_of_le found accounted.room
  have free := Slots.freeFrom_free within
  rw [← slots_getElem? found] at free
  have after := registered_of_register inside registered
  generalize Slots.freeFrom s.cache tid = t at found within free after
  have len (p : Nat) : (s'.entry p).len = (s.entry p).len := by
    rw [after.entry]
    split
    next here => rw [here]
    next => rfl
  have beyond : ∀ i p, s'.slots[i]? = some (some p) → i < s'.maxCacheCount := by
    intro i p at_
    rw [after.slots, List.getElem?_set] at at_
    rw [after.maxCount]
    split at at_
    · split <;> omega
    · have below := accounted.beyond i p at_
      split <;> omega
  have max : s'.maxCacheCount ≤ s'.maxCacheEntries := by
    have before := accounted.max
    rw [after.maxCount, after.maxEntries]
    split <;> omega
  have small : s'.maxCacheEntries < 2 ^ 32 := after.maxEntries ▸ accounted.small
  refine ⟨?_, ?_, beyond, ?_, ?_, max, ?_, small, ?_⟩
  · have total := Slots.weight_set_some (w := s.lenOf) free q
    have fits : Slots.weight s'.lenOf s'.slots < 2 ^ 64 :=
      weight_lt (fun p => (s'.entry p).len.isLt) beyond (Nat.lt_of_le_of_lt max small)
    have added : ((s.entry q).len.setWidth 64).toNat = s.lenOf q := by
      rw [BitVec.toNat_setWidth, Nat.mod_eq_of_lt]
      · rfl
      · exact Nat.lt_trans (s.entry q).len.isLt (by decide)
    rw [weight_congr _ len, after.slots] at fits ⊢
    rw [after.size, BitVec.toNat_add, added, accounted.size, ← total, Nat.mod_eq_of_lt fits]
  · rw [after.count, accounted.count, after.slots, Slots.occupied_set_some free]
  · intro p
    rw [after.slots, Slots.holds_set_some free, accounted.once, after.entry]
    by_cases here : p = q
    · simp [here, uncached]
    · simp [here]
  · intro i below
    have taken {j : Nat} (at_ : ∃ p, s.slots[j]? = some (some p)) :
        ∃ p, s'.slots[j]? = some (some p) := by
      rw [after.slots, List.getElem?_set]
      split
      next here =>
        subst here
        obtain ⟨p, held⟩ := at_
        exact ⟨q, if_pos (List.getElem?_eq_some_iff.mp held).1⟩
      next => exact at_
    rw [after.smallest] at below
    split at below
    · exact taken (accounted.dense i below)
    · split at below
      next smallest =>
        by_cases last : i = t
        · exact ⟨q, by rw [after.slots, last, List.getElem?_set_self
            (List.getElem?_eq_some_iff.mp free).1]⟩
        · exact taken (accounted.dense i (by omega))
      next => exact taken (accounted.dense i below)
  · rw [after.cache, List.length_set, after.maxEntries]
    exact accounted.room
  · intro zero
    rw [after.maxEntries] at zero
    omega

/-- The occupant of a slot leaves it. -/
structure Freed (s : TestcaseCache) (tid v : Nat) (s' : TestcaseCache) : Prop where
  slots : s'.slots = s.slots.set tid none
  cache : s'.cache = s.cache.set tid none
  queue : s'.queueBuf = (s.modify v ({ · with testcaseBuf := false })).queueBuf
  size : s'.cacheSize = s.cacheSize - (s.entry v).len.setWidth 64
  count : s'.cacheCount = s.cacheCount - 1
  maxCount : s'.maxCacheCount = s.maxCacheCount
  smallest : s'.smallestFree = if tid < s.smallestFree then tid else s.smallestFree
  maxEntries : s'.maxCacheEntries = s.maxCacheEntries
  maxSize : s'.maxCacheSize = s.maxCacheSize
  doOnce : s'.doOnce = s.doOnce

theorem freed_of_held {tid v : Nat} (held : s.cache[tid]? = some (some v)) :
    Freed s tid v (s.evict tid) := by
  have occupant : s.slot tid = some v := by rw [slot, held]; rfl
  simp only [TestcaseCache.evict, occupant]
  exact ⟨List.take_set, rfl, rfl, rfl, rfl, rfl, rfl, rfl, rfl, rfl⟩

theorem Accounted.evict (accounted : Accounted s) {tid v : Nat}
    (held : s.slots[tid]? = some (some v)) : Accounted (s.evict tid) := by
  have after := freed_of_held (of_slots held).2
  generalize s.evict tid = s' at after ⊢
  have holds := accounted.once v
  have cached : (s.entry v).testcaseBuf := by
    by_contra uncached
    rw [if_neg uncached] at holds
    have positive := Slots.holds_pos held
    omega
  have inside := inside_of_testcaseBuf cached
  have entries (p : Nat) : s'.entry p =
      if p = v then { s.entry v with testcaseBuf := false } else s.entry p := by
    rw [entry, after.queue]
    exact entry_modify inside _ p
  have len (p : Nat) : (s'.entry p).len = (s.entry p).len := by
    rw [entries]
    split
    next here => rw [here]
    next => rfl
  have left {i p : Nat} (at_ : s'.slots[i]? = some (some p)) : s.slots[i]? = some (some p) := by
    rw [after.slots, List.getElem?_set] at at_
    split at at_
    · split at at_ <;> cases at_
    · exact at_
  refine ⟨?_, ?_, ?_, ?_, ?_, ?_, ?_, ?_, ?_⟩
  · have total := Slots.weight_set_none (w := s.lenOf) held
    have removed : ((s.entry v).len.setWidth 64).toNat = s.lenOf v := by
      rw [BitVec.toNat_setWidth, Nat.mod_eq_of_lt]
      · rfl
      · exact Nat.lt_trans (s.entry v).len.isLt (by decide)
    rw [weight_congr _ len, after.slots, after.size, BitVec.toNat_sub, removed]
    have size := accounted.size
    have fits := s.cacheSize.isLt
    omega
  · have fewer := Slots.occupied_set_none held
    have count := accounted.count
    rw [after.count, after.slots]
    omega
  · intro i p at_
    rw [after.maxCount]
    exact accounted.beyond i p (left at_)
  · intro p
    have fewer := Slots.holds_set_none held p
    rw [accounted.once] at fewer
    rw [after.slots, entries]
    by_cases here : p = v
    · simp only [here, cached, if_true] at fewer ⊢
      simp
      omega
    · simp only [here, if_false] at fewer ⊢
      omega
  · intro i below
    rw [after.smallest] at below
    have before : i < s.smallestFree ∧ i ≠ tid := by
      split at below <;> omega
    obtain ⟨p, at_⟩ := accounted.dense i before.1
    exact ⟨p, by rw [after.slots, List.getElem?_set, if_neg (Ne.symm before.2), at_]⟩
  · rw [after.maxCount, after.maxEntries]
    exact accounted.max
  · rw [after.cache, List.length_set, after.maxEntries]
    exact accounted.room
  · rw [after.maxEntries]
    exact accounted.small
  · intro zero
    rw [after.maxEntries] at zero
    rw [after.cache, accounted.unallocated zero]
    rfl

theorem Accounted.count_le (accounted : Accounted s) : s.cacheCount ≤ s.maxCacheCount := by
  rw [accounted.count]
  exact Slots.occupied_le accounted.beyond

/-- The learned number leaves one entry more than there were slots in use. -/
theorem learnedEntries_eq (few : s.cacheCount ≤ s.maxCacheCount) :
    s.learnedEntries = s.maxCacheCount + 1 := by
  unfold learnedEntries
  split <;> omega

/-- What learning the number of entries changes. -/
structure Learned (newCells : Nat → Option Nat) (s s' : TestcaseCache) : Prop where
  cache : s'.cache = Slots.realloc newCells (s.maxCacheCount + 1 + 1) s.cache
  maxEntries : s'.maxCacheEntries = s.maxCacheCount + 1
  doOnce : s'.doOnce = true
  below : s.maxCacheCount < s.maxCacheEntries
  queue : s'.queueBuf = s.queueBuf
  size : s'.cacheSize = s.cacheSize
  count : s'.cacheCount = s.cacheCount
  maxCount : s'.maxCacheCount = s.maxCacheCount
  smallest : s'.smallestFree = s.smallestFree

theorem learned_or_same (few : s.cacheCount ≤ s.maxCacheCount) (newCells : Nat → Option Nat)
    (len : BitVec 32) :
    s.learns len = true ∧ Learned newCells s (s.learnMaxEntries newCells len) ∨
      s.learns len = false ∧ s.learnMaxEntries newCells len = s := by
  rw [learnMaxEntries, learnedEntries_eq few]
  split
  next learns =>
    have below := (of_decide_eq_true learns).2.2.1
    exact .inl ⟨learns, ⟨rfl, rfl, rfl, below, rfl, rfl, rfl, rfl, rfl⟩⟩
  next same => exact .inr ⟨by simpa using same, rfl⟩

/-- Of the slots only free ones are cut off; a cell that is added is none of them. -/
theorem Accounted.learnMaxEntries (accounted : Accounted s) (newCells : Nat → Option Nat)
    (len : BitVec 32) : Accounted (s.learnMaxEntries newCells len) := by
  rcases learned_or_same accounted.count_le newCells len with ⟨-, learned⟩ | ⟨-, same⟩
  · generalize s.learnMaxEntries newCells len = s' at learned ⊢
    have room := accounted.room
    have small := accounted.small
    have below := learned.below
    have kept : ∀ i q, s.slots[i]? = some (some q) → i < s.maxCacheCount + 1 := fun i q at_ =>
      Nat.lt_succ_of_lt (accounted.beyond i q at_)
    have slots : s'.slots = s.slots.take (s.maxCacheCount + 1) := by
      rw [TestcaseCache.slots, learned.maxEntries, learned.cache,
        Slots.take_realloc (by omega) (by omega), TestcaseCache.slots, List.take_take,
        Nat.min_eq_left (by omega)]
    have entries (q : Nat) : s'.entry q = s.entry q := by rw [entry, learned.queue, entry]
    refine ⟨?_, ?_, ?_, ?_, ?_, ?_, ?_, ?_, ?_⟩
    · rw [learned.size, accounted.size, slots, Slots.weight_take kept]
      exact (weight_congr _ fun q => by rw [entries]).symm
    · rw [learned.count, accounted.count, slots, Slots.occupied_take kept]
    · intro i q at_
      rw [slots, List.getElem?_take] at at_
      rw [learned.maxCount]
      split at at_
      · exact accounted.beyond i q at_
      · cases at_
    · intro q
      rw [slots, Slots.holds_take kept, accounted.once, entries]
    · intro i before
      rw [learned.smallest] at before
      obtain ⟨q, at_⟩ := accounted.dense i before
      exact ⟨q, by rw [slots, List.getElem?_take, if_pos (kept i q at_), at_]⟩
    · rw [learned.maxCount, learned.maxEntries]
      exact Nat.le_succ _
    · rw [learned.cache, Slots.length_realloc, learned.maxEntries]
      exact Nat.le_succ _
    · rw [learned.maxEntries]
      omega
    · rw [learned.maxEntries]
      exact fun zero => absurd zero (Nat.succ_ne_zero _)
  · rw [same]
    exact accounted

/-- A victim is drawn among the slots in use. -/
theorem Accounted.pickVictim_held (accounted : Accounted s) {queueCur : Option Nat}
    {draws rest : List Nat} {tid : Nat}
    (picked : s.pickVictim queueCur draws = some (tid, rest)) :
    ∃ v, s.slots[tid]? = some (some v) := by
  induction draws with
  | nil => cases picked
  | cons draw draws ih =>
    unfold pickVictim at picked
    dsimp only at picked
    split at picked
    · exact ih picked
    next usable =>
      cases picked
      have held : s.slot (randBelow s.maxCacheCount draw) ≠ none := fun free => usable (.inl free)
      obtain ⟨v, at_⟩ := Option.ne_none_iff_exists'.mp held
      have cell := Option.join_eq_some_iff.mp at_
      have max := accounted.max
      have table : s.maxCacheEntries ≠ 0 := by
        intro zero
        rw [accounted.unallocated zero] at cell
        cases cell
      have below : randBelow s.maxCacheCount draw < s.maxCacheEntries := by
        unfold randBelow
        split
        · omega
        · have := Nat.mod_lt draw (by omega : 0 < s.maxCacheCount)
          omega
      exact ⟨v, (slots_getElem? below).trans cell⟩

/-- A position from which the search finds a slot: the end of the used ones, or a free one. -/
def SearchFrom (s : TestcaseCache) (tid : Nat) : Prop :=
  tid = s.maxCacheCount ∨ tid < s.maxCacheCount ∧ s.cache[tid]? = some none

/-- What evictions leave of the entries. -/
structure Evicted (s s' : TestcaseCache) : Prop where
  accounted : Accounted s'
  length : s'.queueBuf.length = s.queueBuf.length
  uncached : ∀ p, (s.entry p).testcaseBuf = false → (s'.entry p).testcaseBuf = false

theorem Evicted.evict (accounted : Accounted s) {tid v : Nat}
    (held : s.slots[tid]? = some (some v)) :
    Evicted s (s.evict tid) ∧ SearchFrom (s.evict tid) tid := by
  have after := freed_of_held (of_slots held).2
  have below := accounted.beyond tid v held
  refine ⟨⟨accounted.evict held, ?_, ?_⟩, .inr ⟨after.maxCount ▸ below, ?_⟩⟩
  · rw [after.queue, length_modify]
  · intro p uncached
    rw [entry, after.queue]
    by_cases inside : v < s.queueBuf.length
    · have modified := entry_modify inside ({ · with testcaseBuf := false }) p
      rw [entry] at modified
      rw [modified]
      split
      · rfl
      · exact uncached
    · simp only [modify]
      rw [List.modify_eq_self (by omega)]
      exact uncached
  · obtain ⟨inside, -⟩ := List.getElem?_eq_some_iff.mp (of_slots held).2
    simp [after.cache, inside]

theorem queueBuf_learnMaxEntries (newCells : Nat → Option Nat) (len : BitVec 32) :
    (s.learnMaxEntries newCells len).queueBuf = s.queueBuf := by
  rw [TestcaseCache.learnMaxEntries]
  split <;> rfl

theorem evictUntilRoom_spec {newCells : Nat → Option Nat} {queueCur : Option Nat}
    {len : BitVec 32} {rounds : Nat} {draws : List Nat} {tid tid' : Nat}
    (accounted : Accounted s) (start : SearchFrom s tid)
    (ends : evictUntilRoom newCells queueCur len rounds draws s tid = some (s', tid')) :
    Evicted s s' ∧ SearchFrom s' tid' ∧ s'.full len = false := by
  induction rounds generalizing s tid draws with
  | zero =>
    unfold evictUntilRoom at ends
    split at ends
    · cases ends
    next room =>
      cases ends
      exact ⟨⟨accounted, rfl, fun _ => id⟩, start, by simpa using room⟩
  | succ rounds ih =>
    unfold evictUntilRoom at ends
    split at ends
    next =>
      dsimp only at ends
      split at ends
      · cases ends
      next victim rest picked =>
        have learned := accounted.learnMaxEntries newCells len
        obtain ⟨v, held⟩ := learned.pickVictim_held picked
        have step := Evicted.evict learned held
        obtain ⟨evicted, found, room⟩ := ih step.1.accounted step.2 ends
        have kept := queueBuf_learnMaxEntries (s := s) newCells len
        refine ⟨⟨evicted.accounted, ?_, fun p uncached => ?_⟩, found, room⟩
        · rw [evicted.length, step.1.length, kept]
        · exact evicted.uncached p (step.1.uncached p (by rwa [entry, kept]))
    next room =>
      cases ends
      exact ⟨⟨accounted, rfl, fun _ => id⟩, start, by simpa using room⟩

/-- With a place left in the count, the search finds a slot below the maximum of entries. -/
theorem Accounted.found (accounted : Accounted s) {tid : Nat} (start : SearchFrom s tid)
    (some_ : 0 < s.maxCacheEntries) (place : s.cacheCount < s.maxEntriesLessOne) :
    Slots.freeFrom s.cache (if s.maxCacheEntries ≤ tid then s.smallestFree else tid) <
      s.maxCacheEntries := by
  have max := accounted.max
  have room := accounted.room
  have small := accounted.small
  have fewer : s.cacheCount + 1 < s.maxCacheEntries := by
    unfold maxEntriesLessOne at place
    omega
  split
  next beyond =>
    obtain rfl : tid = s.maxCacheCount := by
      rcases start with rfl | ⟨below, -⟩
      · rfl
      · omega
    -- were no slot free from `smallestFree` on, all would be taken
    have free : ∃ j < s.maxCacheCount, s.smallestFree ≤ j ∧ s.cache[j]? = some none := by
      by_contra none_
      have taken : ∀ j < s.maxCacheCount, ∃ q, s.slots[j]? = some (some q) := by
        intro j below
        by_cases dense : j < s.smallestFree
        · exact accounted.dense j dense
        · have within : j < s.cache.length := by omega
          rw [slots_getElem? (by omega), List.getElem?_eq_getElem within]
          cases at_ : s.cache[j] with
          | none =>
            refine absurd ⟨j, below, by omega, ?_⟩ none_
            rw [List.getElem?_eq_getElem within, at_]
          | some q => exact ⟨q, rfl⟩
      have many := Slots.le_occupied taken
      rw [← accounted.count] at many
      omega
    obtain ⟨j, below, from_, at_⟩ := free
    have stops := Slots.freeFrom_le from_ at_
    omega
  next within =>
    have at_ : s.cache[tid]? = some none := by
      rcases start with rfl | ⟨-, at_⟩
      · have inside : s.maxCacheCount < s.cache.length := by omega
        cases occupant : s.cache[s.maxCacheCount] with
        | none => rw [List.getElem?_eq_getElem inside, occupant]
        | some q =>
          have below := accounted.beyond s.maxCacheCount q
            (by rw [slots_getElem? (by omega), List.getElem?_eq_getElem inside, occupant])
          omega
      · exact at_
    have stops := Slots.freeFrom_le (Nat.le_refl tid) at_
    omega

theorem Accounted.registerFrom (accounted : Accounted s) {q tid : Nat}
    (inside : q < s.queueBuf.length) (uncached : (s.entry q).testcaseBuf = false)
    (start : SearchFrom s tid) (place : s.cacheCount < s.maxEntriesLessOne)
    (registered :
      s.register q (if s.maxCacheEntries ≤ tid then s.smallestFree else tid) = some s') :
    Accounted s' := by
  rcases Nat.eq_zero_or_pos s.maxCacheEntries with zero | some_
  · -- there is no table
    rw [TestcaseCache.register, if_neg (by simp [accounted.unallocated zero])] at registered
    cases registered
  · exact accounted.register inside uncached (accounted.found start some_ place) registered

theorem Accounted.queueTestcaseGet (accounted : Accounted s) {newCells : Nat → Option Nat}
    {queueCur : Option Nat} {light : Bool} {q : Nat} {draws : List Nat}
    (inside : q < s.queueBuf.length)
    (returns : queueTestcaseGet newCells queueCur light s q draws = some s') : Accounted s' := by
  unfold TestcaseCache.queueTestcaseGet at returns
  split at returns
  · cases returns
    exact accounted
  next uncached =>
    split at returns
    · cases returns
      exact accounted
    · split at returns
      · cases returns
      next room tid ends =>
        obtain ⟨evicted, found, place⟩ := evictUntilRoom_spec accounted (.inl rfl) ends
        have below : room.cacheCount < room.maxEntriesLessOne := by
          simp only [full, decide_eq_false_iff_not, not_or] at place
          omega
        exact evicted.accounted.registerFrom (evicted.length ▸ inside)
          (evicted.uncached q (by simpa using uncached)) found below returns

theorem Accounted.queueTestcaseStoreMem (accounted : Accounted s) {build : EffBuild} {light : Bool}
    {q : Nat} (inside : q < s.queueBuf.length)
    (uncached : (s.entry q).testcaseBuf → noSpace build light s q)
    (returns : queueTestcaseStoreMem build light s q = some s') : Accounted s' := by
  unfold TestcaseCache.queueTestcaseStoreMem at returns
  split at returns
  · cases returns
    exact accounted
  next space =>
    have place : s.cacheCount < s.maxEntriesLessOne := by
      simp only [noSpace, decide_eq_true_iff, not_or] at space
      omega
    have free : (s.entry q).testcaseBuf = false := by
      by_contra cached
      exact space (uncached (by simpa using cached))
    exact accounted.registerFrom inside free (.inl rfl) place returns

theorem Accounted.addToQueue (accounted : Accounted s) (len : BitVec 32) :
    Accounted (s.addToQueue len) := by
  have old {q : Nat} (inside : q < s.queueBuf.length) : (s.addToQueue len).entry q = s.entry q := by
    simp only [entry, TestcaseCache.addToQueue, List.getElem?_append_left inside]
  have uncached {q : Nat} (outside : ¬ q < s.queueBuf.length) :
      ((s.addToQueue len).entry q).testcaseBuf = (s.entry q).testcaseBuf := by
    have before : s.entry q = ⟨0, false⟩ := by
      rw [entry, List.getElem?_eq_none (by omega), Option.getD_none]
    rw [before, entry, TestcaseCache.addToQueue, List.getElem?_append_right (by omega)]
    cases q - s.queueBuf.length <;> rfl
  refine ⟨?_, accounted.count, accounted.beyond, ?_, accounted.dense, accounted.max,
    accounted.room, accounted.small, accounted.unallocated⟩
  · -- only entries of the queue are in the table
    refine accounted.size.trans ?_
    refine congrArg List.sum (List.map_congr_left fun o member => ?_)
    cases o with
    | none => rfl
    | some q =>
      obtain ⟨i, at_⟩ := List.mem_iff_getElem?.mp member
      have positive := Slots.holds_pos at_
      rw [accounted.once] at positive
      have inside : q < s.queueBuf.length := by
        refine inside_of_testcaseBuf ?_
        by_contra free
        rw [if_neg free] at positive
        omega
      simp only [Option.elim_some, lenOf, old inside]
  · intro q
    refine (accounted.once q).trans ?_
    by_cases inside : q < s.queueBuf.length
    · rw [old inside]
    · rw [uncached inside]

/-! ## Trimming -/

/-- The trims of a cached entry whose new length is accounted for: the length stays, or it
grows on a branch that adjusts the size. -/
def Trim.Adjusts (oldLen : BitVec 32) : Trim → Prop
  | .custom len => oldLen ≤ len
  | .stopped len => len = oldLen
  | .written len inPlace => len = oldLen ∨ inPlace = false ∧ oldLen < len ∧ len + 1024 < oldLen

instance (oldLen : BitVec 32) : (t : Trim) → Decidable (t.Adjusts oldLen)
  | .custom len => inferInstanceAs (Decidable (oldLen ≤ len))
  | .stopped len => inferInstanceAs (Decidable (len = oldLen))
  | .written len inPlace => inferInstanceAs (Decidable (len = oldLen ∨ inPlace = false ∧ _ ∧ _))

def Trim.len : Trim → BitVec 32
  | .custom len | .stopped len | .written len _ => len

/-- The difference that is added to the size, if any. -/
def Trim.adds (oldLen : BitVec 32) : Trim → BitVec 64
  | .custom len =>
    if oldLen < len ∨ len + 1024 < oldLen then (len - oldLen).setWidth 64 else 0
  | .stopped _ => 0
  | .written len inPlace =>
    if inPlace = false ∧ len + 1024 < oldLen then (len - oldLen).setWidth 64 else 0

/-- A trim changes the length of its entry and, if that is cached, the size. -/
theorem trimCase_eq {q : Nat} (inside : q < s.queueBuf.length) (t : Trim) :
    s.trimCase q t = { s.modify q ({ · with len := t.len }) with
      cacheSize := s.cacheSize +
        if (s.entry q).testcaseBuf then t.adds (s.entry q).len else 0 } := by
  have own : (s.modify q ({ · with len := t.len })).entry q = { s.entry q with len := t.len } :=
    (entry_modify inside _ q).trans (if_pos rfl)
  cases t with
  | custom len =>
    simp only [trimCase, queueTestcaseRetake, Trim.len, Trim.adds] at own ⊢
    rw [own]
    cases (s.entry q).testcaseBuf with
    | false => simp [modify]
    | true =>
      simp only [true_and, if_true]
      split
      · rfl
      · simp [modify]
  | stopped len => simp [trimCase, Trim.len, Trim.adds, modify]
  | written len inPlace =>
    simp only [trimCase, queueTestcaseRetakeMem, Trim.len, Trim.adds] at own ⊢
    rw [own]
    cases (s.entry q).testcaseBuf with
    | false => simp [modify]
    | true =>
      simp only [true_and, if_true]
      split
      · rfl
      · simp [modify]

/-- The difference of `u32` is right for a greater length only, no difference for the same. -/
theorem Trim.adds_iff {size : BitVec 64} {oldLen : BitVec 32} (held : oldLen.toNat ≤ size.toNat)
    (t : Trim) (fits : size.toNat - oldLen.toNat + t.len.toNat < 2 ^ 64) :
    (size + t.adds oldLen).toNat = size.toNat - oldLen.toNat + t.len.toNat ↔
      t.Adjusts oldLen := by
  have difference (len : BitVec 32) (fits : size.toNat - oldLen.toNat + len.toNat < 2 ^ 64) :
      (size + (len - oldLen).setWidth 64).toNat = size.toNat - oldLen.toNat + len.toNat ↔
        oldLen ≤ len := by
    have := oldLen.isLt
    have := len.isLt
    simp only [BitVec.toNat_add, BitVec.toNat_setWidth, BitVec.toNat_sub, BitVec.le_def]
    omega
  have nothing (len : BitVec 32) : (size + 0).toNat = size.toNat - oldLen.toNat + len.toNat ↔
      len = oldLen := by
    have zero : size + 0 = size := BitVec.add_zero size
    rw [zero, ← BitVec.toNat_inj]
    omega
  cases t with
  | custom len =>
    simp only [adds, Adjusts, Trim.len] at fits ⊢
    split
    · exact difference len fits
    next same =>
      rw [nothing]
      bv_omega
  | stopped len => exact nothing len
  | written len inPlace =>
    simp only [adds, Adjusts, Trim.len] at fits ⊢
    split
    next adjusts =>
      rw [difference len fits]
      have := adjusts.2
      constructor
      · intro grows
        by_cases same : len = oldLen
        · exact .inl same
        · exact .inr ⟨adjusts.1, by bv_omega, adjusts.2⟩
      · rintro (rfl | ⟨-, grows, -⟩)
        · exact BitVec.le_refl _
        · exact BitVec.le_of_lt grows
    next no =>
      rw [nothing]
      constructor
      · exact .inl
      · rintro (same | ⟨other, -, less⟩)
        · exact same
        · exact absurd ⟨other, less⟩ no

/-- A trim keeps the accounting exactly when it adjusts the size of a cached entry rightly. -/
theorem Accounted.trimCase_iff (accounted : Accounted s) {q : Nat}
    (inside : q < s.queueBuf.length) (t : Trim) :
    Accounted (s.trimCase q t) ↔ ((s.entry q).testcaseBuf → t.Adjusts (s.entry q).len) := by
  have entries (p : Nat) : (s.trimCase q t).entry p =
      if p = q then { s.entry q with len := t.len } else s.entry p := by
    rw [trimCase_eq inside]
    exact entry_modify inside _ p
  have slots : (s.trimCase q t).slots = s.slots := by rw [trimCase_eq inside]; rfl
  have size : (s.trimCase q t).cacheSize = s.cacheSize +
      if (s.entry q).testcaseBuf then t.adds (s.entry q).len else 0 := by
    rw [trimCase_eq inside]
  have own : (s.trimCase q t).lenOf q = t.len.toNat := by rw [lenOf, entries, if_pos rfl]
  have others {p : Nat} (other : p ≠ q) : (s.trimCase q t).lenOf p = s.lenOf p := by
    rw [lenOf, entries, if_neg other, lenOf]
  have weights : Slots.weight (s.trimCase q t).lenOf s.slots + Slots.holds s.slots q * s.lenOf q =
      Slots.weight s.lenOf s.slots + Slots.holds s.slots q * (s.trimCase q t).lenOf q :=
    Slots.weight_update s.slots fun p => others
  rw [own, accounted.once] at weights
  have buffers (p : Nat) :
      ((s.trimCase q t).entry p).testcaseBuf = (s.entry p).testcaseBuf := by
    rw [entries]
    split
    next here => rw [here]
    next => rfl
  -- everything but the size is as it was
  have reduced : Accounted (s.trimCase q t) ↔
      (s.trimCase q t).cacheSize.toNat = Slots.weight (s.trimCase q t).lenOf s.slots := by
    constructor
    · intro trimmed
      rw [trimmed.size, slots]
    · intro total
      rw [← slots] at total
      refine ⟨total, ?_, ?_, ?_, ?_, ?_, ?_, ?_, ?_⟩
      · rw [slots, trimCase_eq inside]
        exact accounted.count
      · rw [slots, trimCase_eq inside]
        exact accounted.beyond
      · intro p
        rw [slots, accounted.once, buffers]
      · rw [slots, trimCase_eq inside]
        exact accounted.dense
      · rw [trimCase_eq inside]
        exact accounted.max
      · rw [trimCase_eq inside]
        exact accounted.room
      · rw [trimCase_eq inside]
        exact accounted.small
      · rw [trimCase_eq inside]
        exact accounted.unallocated
  rw [reduced, size]
  cases cached : (s.entry q).testcaseBuf with
  | false =>
    simp only [cached, Bool.false_eq_true, if_false, Nat.zero_mul, Nat.add_zero] at weights
    have zero : s.cacheSize + 0 = s.cacheSize := BitVec.add_zero _
    simp [weights, accounted.size]
  | true =>
    simp only [cached, if_true, Nat.one_mul, forall_const] at weights ⊢
    -- the entry's own length is part of the sum
    have part : Slots.weight (fun p => if p = q then 0 else s.lenOf p) s.slots +
        Slots.holds s.slots q * s.lenOf q = Slots.weight s.lenOf s.slots + _ :=
      Slots.weight_update s.slots fun p other => if_neg other
    rw [accounted.once, cached, if_pos rfl, if_pos rfl] at part
    have fits : Slots.weight (s.trimCase q t).lenOf s.slots < 2 ^ 64 :=
      weight_lt (fun p => ((s.trimCase q t).entry p).len.isLt) accounted.beyond
        (Nat.lt_of_le_of_lt accounted.max accounted.small)
    have before := accounted.size
    have old : s.lenOf q = (s.entry q).len.toNat := rfl
    have held : (s.entry q).len.toNat ≤ s.cacheSize.toNat := by omega
    have after : Slots.weight (s.trimCase q t).lenOf s.slots =
        s.cacheSize.toNat - (s.entry q).len.toNat + t.len.toNat := by omega
    rw [after]
    exact Trim.adds_iff held t (after ▸ fits)

/-! ## The cell that is added -/

/-- No cell beyond the slots holds anything. -/
def Clean (s : TestcaseCache) : Prop := ∀ i q, s.cache[i]? = some (some q) → i < s.maxCacheEntries

theorem Clean.held (clean : Clean s) {i q : Nat} (held : s.cache[i]? = some (some q)) :
    s.slots[i]? = some (some q) := (slots_getElem? (clean i q held)).trans held

/-- Loading the entry enters the eviction loop. -/
def EntersEviction (light : Bool) (s : TestcaseCache) (q : Nat) : Prop :=
  (s.entry q).testcaseBuf = false ∧ light = false ∧ s.maxCacheSize ≠ 0 ∧
    s.full (s.entry q).len = true

/-- There the number of entries is learned, and the table gets a cell more than it had. -/
def GrowsTable (light : Bool) (s : TestcaseCache) (q : Nat) : Prop :=
  EntersEviction light s q ∧ s.learns (s.entry q).len = true ∧ s.cache.length ≤ s.learnedEntries

/-- A table that does not grow, or gets an empty cell, has nothing beyond its slots. -/
theorem Clean.learnMaxEntries (clean : Clean s) (accounted : Accounted s)
    {newCells : Nat → Option Nat} {len : BitVec 32}
    (safe : s.learns len = true → s.cache.length ≤ s.learnedEntries → newCells 0 = none) :
    Clean (s.learnMaxEntries newCells len) := by
  rcases learned_or_same accounted.count_le newCells len with ⟨learns, learned⟩ | ⟨-, same⟩
  · intro i q held
    rw [learned.maxEntries]
    rw [learned.cache] at held
    rcases Slots.held_of_realloc held with before | ⟨beyond, short, added⟩
    · have below := accounted.beyond i q (clean.held before)
      omega
    · -- the one cell that can be added is the first beyond the old table
      have room := accounted.room
      have below := learned.below
      have entries := learnedEntries_eq accounted.count_le
      obtain rfl : i = s.cache.length := by omega
      rw [Nat.sub_self, safe learns (by omega)] at added
      cases added
  · rw [same]
    exact clean

theorem Clean.evict (clean : Clean s) {tid v : Nat} (held : s.slots[tid]? = some (some v)) :
    Clean (s.evict tid) := by
  have after := freed_of_held (of_slots held).2
  intro i q at_
  rw [after.cache, List.getElem?_set] at at_
  rw [after.maxEntries]
  split at at_
  · split at at_ <;> cases at_
  · exact clean i q at_

/-- An eviction only makes room: what is too large then was so before. -/
theorem tooLarge_of_evict (accounted : Accounted s) {tid v : Nat} {len : BitVec 32}
    (held : s.slots[tid]? = some (some v)) (large : (s.evict tid).tooLarge len = true) :
    s.tooLarge len = true := by
  have after := freed_of_held (of_slots held).2
  have total := Slots.weight_set_none (w := s.lenOf) held
  have size := accounted.size
  have few := Slots.occupied_le accounted.beyond
  have max := accounted.max
  have small := accounted.small
  -- the sum does not come near the end of the 64 bits
  have bound : Slots.weight s.lenOf s.slots ≤ (2 ^ 32 - 1) * (2 ^ 32 - 1) :=
    calc Slots.weight s.lenOf s.slots
        ≤ Slots.occupied s.slots * (2 ^ 32 - 1) :=
          Slots.weight_le fun q => Nat.le_sub_one_of_lt (s.entry q).len.isLt
      _ ≤ (2 ^ 32 - 1) * (2 ^ 32 - 1) := Nat.mul_le_mul_right _ (by omega)
  have own : s.lenOf v = (s.entry v).len.toNat := rfl
  have := len.isLt
  have := (s.entry v).len.isLt
  have := of_decide_eq_true large
  apply decide_eq_true
  rw [after.maxSize, after.size] at this
  simp only [BitVec.le_def, BitVec.toNat_add, BitVec.toNat_sub, BitVec.toNat_setWidth] at this ⊢
  omega

/-- The number is not learned in a later round when it was not in this one. -/
theorem learns_of_evict (accounted : Accounted s) {tid v : Nat} {len : BitVec 32}
    (held : s.slots[tid]? = some (some v)) (learns : (s.evict tid).learns len = true) :
    s.learns len = true := by
  have after := freed_of_held (of_slots held).2
  obtain ⟨large, -, below, first⟩ := of_decide_eq_true learns
  rw [after.maxCount, after.maxEntries] at below
  rw [after.doOnce] at first
  have few := accounted.count_le
  exact decide_eq_true ⟨tooLarge_of_evict accounted held large, by omega, below, first⟩

theorem Clean.evictUntilRoom {newCells : Nat → Option Nat} {queueCur : Option Nat}
    {len : BitVec 32} {rounds : Nat} {draws : List Nat} {tid tid' : Nat}
    (clean : Clean s) (accounted : Accounted s)
    (safe : s.full len = true → s.learns len = true → s.cache.length ≤ s.learnedEntries →
      newCells 0 = none)
    (ends : evictUntilRoom newCells queueCur len rounds draws s tid = some (s', tid')) :
    Clean s' := by
  induction rounds generalizing s tid draws with
  | zero =>
    unfold TestcaseCache.evictUntilRoom at ends
    split at ends
    · cases ends
    · cases ends
      exact clean
  | succ rounds ih =>
    unfold TestcaseCache.evictUntilRoom at ends
    split at ends
    next full =>
      dsimp only at ends
      split at ends
      · cases ends
      next victim rest picked =>
        have cleaned := @Clean.learnMaxEntries _ clean accounted newCells _ (safe full)
        have learned := accounted.learnMaxEntries newCells len
        obtain ⟨v, held⟩ := learned.pickVictim_held picked
        refine ih (cleaned.evict held) (learned.evict held) ?_ ends
        intro _ again
        -- only the first round may learn the number
        have learns := learns_of_evict learned held again
        rcases learned_or_same accounted.count_le newCells len with ⟨-, once⟩ | ⟨never, same⟩
        · obtain ⟨-, -, -, first⟩ := of_decide_eq_true learns
          rw [once.doOnce] at first
          cases first
        · rw [same, never] at learns
          cases learns
    next =>
      cases ends
      exact clean

/-- Entries are registered in slots. -/
theorem Clean.registerFrom (clean : Clean s) (accounted : Accounted s) {q tid : Nat}
    (inside : q < s.queueBuf.length) (start : SearchFrom s tid)
    (place : s.cacheCount < s.maxEntriesLessOne)
    (registered :
      s.register q (if s.maxCacheEntries ≤ tid then s.smallestFree else tid) = some s') :
    Clean s' := by
  rcases Nat.eq_zero_or_pos s.maxCacheEntries with zero | some_
  · rw [TestcaseCache.register, if_neg (by simp [accounted.unallocated zero])] at registered
    cases registered
  · have found := accounted.found start some_ place
    have after := registered_of_register inside registered
    generalize Slots.freeFrom s.cache _ = t at found after
    intro i p at_
    rw [after.cache, List.getElem?_set] at at_
    rw [after.maxEntries]
    split at at_
    next here => exact here ▸ found
    next => exact clean i p at_

theorem Clean.queueTestcaseGet (clean : Clean s) (accounted : Accounted s)
    {newCells : Nat → Option Nat} {queueCur : Option Nat} {light : Bool} {q : Nat}
    {draws : List Nat} (inside : q < s.queueBuf.length)
    (safe : GrowsTable light s q → newCells 0 = none)
    (returns : queueTestcaseGet newCells queueCur light s q draws = some s') : Clean s' := by
  unfold TestcaseCache.queueTestcaseGet at returns
  split at returns
  · cases returns
    exact clean
  next uncached =>
    split at returns
    · cases returns
      exact clean
    next loads =>
      split at returns
      · cases returns
      next room tid ends =>
        obtain ⟨evicted, found, place⟩ := evictUntilRoom_spec accounted (.inl rfl) ends
        have below : room.cacheCount < room.maxEntriesLessOne := by
          simp only [full, decide_eq_false_iff_not, not_or] at place
          omega
        have cleaned := clean.evictUntilRoom accounted (fun full learns grows =>
          safe ⟨⟨by simpa using uncached, by simpa using fun light => loads (.inl light),
            fun zero => loads (.inr zero), full⟩, learns, grows⟩) ends
        exact cleaned.registerFrom evicted.accounted (evicted.length ▸ inside) found below returns

theorem Clean.queueTestcaseStoreMem (clean : Clean s) (accounted : Accounted s)
    {build : EffBuild} {light : Bool} {q : Nat} (inside : q < s.queueBuf.length)
    (returns : queueTestcaseStoreMem build light s q = some s') : Clean s' := by
  unfold TestcaseCache.queueTestcaseStoreMem at returns
  split at returns
  · cases returns
    exact clean
  next space =>
    have place : s.cacheCount < s.maxEntriesLessOne := by
      simp only [noSpace, decide_eq_true_iff, not_or] at space
      omega
    exact clean.registerFrom accounted inside (.inl rfl) place returns

end TestcaseCache

/-! ## Runs -/

namespace CacheCall

open TestcaseCache

/-- Entries are stored when they are not cached, or there is no space for them; trims of cached
entries adjust the size rightly; and when loading an entry makes the table grow, the new cell
happens to be empty. -/
def Keeps (s : TestcaseCache) : CacheCall → Prop
  | addToQueue _ => True
  | get newCells _ light q _ => GrowsTable light s q → newCells 0 = none
  | storeMem build light q => (s.entry q).testcaseBuf → noSpace build light s q
  | trim q t => (s.entry q).testcaseBuf → t.Adjusts (s.entry q).len

end CacheCall

open TestcaseCache

theorem TestcaseCache.Accounted.apply {s s' : TestcaseCache} (accounted : Accounted s)
    {c : CacheCall} (valid : c.Valid s) (keeps : c.Keeps s) (returns : c.apply s = some s') :
    Accounted s' := by
  cases c with
  | addToQueue len =>
    cases returns
    exact accounted.addToQueue len
  | get newCells queueCur light q draws => exact accounted.queueTestcaseGet valid returns
  | storeMem build light q => exact accounted.queueTestcaseStoreMem valid keeps returns
  | trim q t =>
    cases returns
    exact (accounted.trimCase_iff valid t).mpr keeps

theorem TestcaseCache.Clean.apply {s s' : TestcaseCache} (clean : Clean s)
    (accounted : Accounted s) {c : CacheCall} (valid : c.Valid s) (keeps : c.Keeps s)
    (returns : c.apply s = some s') : Clean s' := by
  cases c with
  | addToQueue len =>
    cases returns
    exact clean
  | get newCells queueCur light q draws =>
    exact clean.queueTestcaseGet accounted valid keeps returns
  | storeMem build light q => exact clean.queueTestcaseStoreMem accounted valid returns
  | trim q t =>
    cases returns
    rw [Clean, trimCase_eq valid]
    exact clean

theorem CacheRun.accounted {s : TestcaseCache} (run : CacheRun (fun s c => c.Keeps s) s) :
    Accounted s ∧ Clean s := by
  induction run with
  | start maxCacheSize maxCacheEntries =>
    refine ⟨.initial maxCacheSize maxCacheEntries, ?_⟩
    intro i q held
    have inside := (List.getElem?_eq_some_iff.mp held).1
    simpa [TestcaseCache.initial] using inside
  | call _ c valid keeps returns before =>
    exact ⟨before.1.apply valid keeps returns, before.2.apply before.1 valid keeps returns⟩

/-- In a run whose stores and trims keep the accounting and whose table does not grow by a cell
that holds something, the size is the sum of the lengths over the slots, the count that of the
occupied slots, all of these are below `maxCacheCount`, and an entry has a buffer exactly when
it has one slot. -/
theorem cache_accounted {s : TestcaseCache} (run : CacheRun (fun s c => c.Keeps s) s) :
    s.cacheSize.toNat = Slots.weight (fun q => (s.entry q).len.toNat) s.cache ∧
    s.cacheCount = Slots.occupied s.cache ∧
    (∀ i q, s.cache[i]? = some (some q) → i < s.maxCacheCount) ∧
    ∀ q < s.queueBuf.length, (s.entry q).testcaseBuf = true ↔ Slots.holds s.cache q = 1 := by
  obtain ⟨accounted, clean⟩ := run.accounted
  refine ⟨?_, ?_, ?_, fun q _ => ?_⟩
  · exact accounted.size.trans (Slots.weight_take clean)
  · exact accounted.count.trans (Slots.occupied_take clean)
  · exact fun i q held => accounted.beyond i q (clean.held held)
  · rw [← Slots.holds_take clean, show s.cache.take s.maxCacheEntries = s.slots from rfl,
      accounted.once]
    cases (s.entry q).testcaseBuf <;> simp

/-- Three entries in a table of three: the last one evicts the first. -/
theorem cache_accounted_evicted :
    let s : TestcaseCache := ⟨[⟨100, false⟩, ⟨250, true⟩, ⟨300, true⟩], [some 2, some 1, none],
      52428800, 3, 550, 2, 2, 1, false⟩
    s.cacheSize.toNat = Slots.weight (fun q => (s.entry q).len.toNat) s.cache ∧
    s.cacheCount = Slots.occupied s.cache ∧
    (∀ i q, s.cache[i]? = some (some q) → i < s.maxCacheCount) ∧
    ∀ q < s.queueBuf.length, (s.entry q).testcaseBuf = true ↔ Slots.holds s.cache q = 1 := by
  intro s
  have empty : CacheRun (fun s c => c.Keeps s) (.initial 52428800 3) := .start ..
  have first := empty.call (.addToQueue 100) trivial trivial rfl
  have stored := first.call (.storeMem .swam false 0) (by decide) (fun cached => by cases cached) rfl
  have second := stored.call (.addToQueue 250) trivial trivial rfl
  have loaded := second.call (.get (fun _ => none) none false 1 []) (by decide) (fun _ => rfl) rfl
  have third := loaded.call (.addToQueue 300) trivial trivial rfl
  have evicted : CacheRun (fun s c => c.Keeps s) s :=
    third.call (.get (fun _ => none) (some 1) false 2 [2]) (by decide) (fun _ => rfl) rfl
  exact cache_accounted evicted

/-- A cached entry of 100 bytes is trimmed in place to 90: the size still counts 100. A custom
trim of a cached entry of 5000 bytes to 100 adds 2^32 to the size. Three entries of 500000 bytes
in a table of three with room for 2^20 bytes: when the last one is loaded, the table grows by a
cell that holds some pointer. -/
theorem cacheSize_after_trim :
    let s : TestcaseCache := ⟨[⟨90, true⟩], [some 0, none, none], 52428800, 3, 100, 1, 1, 0, false⟩
    let s' : TestcaseCache :=
      ⟨[⟨100, true⟩], [some 0, none, none], 52428800, 3, 4294967396, 1, 1, 0, false⟩
    let grown : TestcaseCache := ⟨[⟨500000, false⟩, ⟨500000, true⟩, ⟨500000, true⟩],
      [some 2, some 1, none, some 7], 1048576, 3, 1000000, 2, 2, 1, true⟩
    CacheRun (fun _ _ => True) s ∧
      s.cacheSize.toNat ≠ Slots.weight (fun q => (s.entry q).len.toNat) s.cache ∧
    CacheRun (fun _ _ => True) s' ∧
      s'.cacheSize.toNat ≠ Slots.weight (fun q => (s'.entry q).len.toNat) s'.cache ∧
    CacheRun (fun _ _ => True) grown ∧ grown.cacheCount ≠ Slots.occupied grown.cache ∧
      ¬ ∀ i q, grown.cache[i]? = some (some q) → i < grown.maxCacheCount := by
  intro s s' grown
  have empty : CacheRun (fun _ _ => True) (.initial 52428800 3) := .start ..
  have short := empty.call (.addToQueue 100) trivial trivial rfl
  have loaded := short.call (.get (fun _ => none) none false 0 []) (by decide) trivial rfl
  have trimmed : CacheRun (fun _ _ => True) s :=
    loaded.call (.trim 0 (.written 90 true)) (by decide) trivial rfl
  have long := empty.call (.addToQueue 5000) trivial trivial rfl
  have loaded' := long.call (.get (fun _ => none) none false 0 []) (by decide) trivial rfl
  have trimmed' : CacheRun (fun _ _ => True) s' :=
    loaded'.call (.trim 0 (.custom 100)) (by decide) trivial rfl
  have small : CacheRun (fun _ _ => True) (.initial 1048576 3) := .start ..
  have first := small.call (.addToQueue 500000) trivial trivial rfl
  have second := first.call (.addToQueue 500000) trivial trivial rfl
  have third := second.call (.addToQueue 500000) trivial trivial rfl
  have one := third.call (.get (fun _ => none) none false 0 []) (by decide) trivial rfl
  have two := one.call (.get (fun _ => none) none false 1 []) (by decide) trivial rfl
  have grew : CacheRun (fun _ _ => True) grown :=
    two.call (.get (fun _ => some 7) (some 1) false 2 [0]) (by decide) trivial rfl
  refine ⟨trimmed, by decide, trimmed', by decide, grew, by decide, ?_⟩
  intro all
  exact absurd (all 3 7 rfl) (by decide)

end Swam.Afl
