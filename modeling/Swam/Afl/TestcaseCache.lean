import Swam.Afl.Skipdet
import Swam.Lib.Slots

/-!
# The testcase cache

Entries whose bytes are kept in memory, in a table of slots with a bound on the number of
entries and on the sum of their lengths. An entry is named by its index in `queue_buf`; the
bytes themselves are left out.
-/
namespace Swam.Afl

open Lib

/-- An entry's length, and whether its `testcase_buf` is set. -/
structure CachedEntry where
  len : BitVec 32
  testcaseBuf : Bool
  deriving DecidableEq, Repr

/-- The fields `q_testcase_*` of the fuzzer's state; `doOnce` is a static variable of
`queue_testcase_get`. -/
structure TestcaseCache where
  queueBuf : List CachedEntry
  cache : List (Option Nat)
  maxCacheSize : BitVec 64
  maxCacheEntries : Nat
  cacheSize : BitVec 64
  maxCacheCount : Nat
  cacheCount : Nat
  smallestFree : Nat
  doOnce : Bool
  deriving DecidableEq, Repr

namespace TestcaseCache

/-- A cache of the configured size. -/
def initial (maxCacheSize : BitVec 64) (maxCacheEntries : BitVec 32) : TestcaseCache where
  queueBuf := []
  cache := List.replicate maxCacheEntries.toNat none
  maxCacheSize
  maxCacheEntries := maxCacheEntries.toNat
  cacheSize := 0
  maxCacheCount := 0
  cacheCount := 0
  smallestFree := 0
  doOnce := false

def entry (s : TestcaseCache) (q : Nat) : CachedEntry := s.queueBuf[q]?.getD ⟨0, false⟩

def modify (s : TestcaseCache) (q : Nat) (f : CachedEntry → CachedEntry) : TestcaseCache :=
  { s with queueBuf := s.queueBuf.modify q f }

/-! ## Loading an entry -/

/-- `q_testcase_max_cache_entries - 1`, as a `u32`. -/
def maxEntriesLessOne (s : TestcaseCache) : Nat := (s.maxCacheEntries + (2 ^ 32 - 1)) % 2 ^ 32

/-- With `len` more bytes the cache is too large. -/
def tooLarge (s : TestcaseCache) (len : BitVec 32) : Bool :=
  s.maxCacheSize ≤ s.cacheSize + len.setWidth 64

def full (s : TestcaseCache) (len : BitVec 32) : Bool :=
  s.tooLarge len ∧ 1 < s.cacheCount ∨ s.maxEntriesLessOne ≤ s.cacheCount

/-- The number of entries is learned once: when the cache is filled by size, below both
limits. -/
def learns (s : TestcaseCache) (len : BitVec 32) : Bool :=
  s.tooLarge len ∧ s.cacheCount < s.maxCacheEntries ∧ s.maxCacheCount < s.maxCacheEntries ∧
    s.doOnce = false

def learnedEntries (s : TestcaseCache) : Nat :=
  if s.cacheCount < s.maxCacheCount then s.maxCacheCount + 1 else s.cacheCount + 1

/-- Once the cache is filled by size, that is the maximum of its entries. The table is
reallocated with one cell more than entries. Should it grow, nothing initialises the new cell:
`newCells` is what `realloc` leaves in it, `some` for any pointer but `NULL`. -/
def learnMaxEntries (newCells : Nat → Option Nat) (s : TestcaseCache) (len : BitVec 32) :
    TestcaseCache :=
  if s.learns len then
    { s with
      maxCacheEntries := s.learnedEntries
      doOnce := true
      cache := Slots.realloc newCells (s.learnedEntries + 1) s.cache }
  else s

/-- `rand_below`, given the value that was drawn. -/
def randBelow (limit draw : Nat) : Nat := if limit ≤ 1 then 0 else draw % limit

/-- The occupant of a slot. -/
def slot (s : TestcaseCache) (tid : Nat) : Option Nat := s.cache[tid]?.join

/-- Draw until a slot has an occupant that is not in use; with it the draws that are left. -/
def pickVictim (queueCur : Option Nat) (s : TestcaseCache) : List Nat → Option (Nat × List Nat)
  | [] => none
  | draw :: draws =>
    let tid := randBelow s.maxCacheCount draw
    if s.slot tid = none ∨ s.slot tid = queueCur then pickVictim queueCur s draws
    else some (tid, draws)

def evict (s : TestcaseCache) (tid : Nat) : TestcaseCache :=
  match s.slot tid with
  | none => s
  | some oldCached =>
    { s.modify oldCached ({ · with testcaseBuf := false }) with
      cacheSize := s.cacheSize - (s.entry oldCached).len.setWidth 64
      cache := s.cache.set tid none
      cacheCount := s.cacheCount - 1
      smallestFree := if tid < s.smallestFree then tid else s.smallestFree }

/-- Evict until there is room; with the state the last slot that was freed. `none` when the
draws run out: every eviction uses one, so their number bounds the rounds. -/
def evictUntilRoom (newCells : Nat → Option Nat) (queueCur : Option Nat) (len : BitVec 32) :
    Nat → List Nat → TestcaseCache → Nat → Option (TestcaseCache × Nat)
  | rounds, draws, s, tid =>
    if s.full len then
      match rounds with
      | 0 => none
      | rounds + 1 =>
        let s := s.learnMaxEntries newCells len
        match s.pickVictim queueCur draws with
        | none => none
        | some (tid, draws) => evictUntilRoom newCells queueCur len rounds draws (s.evict tid) tid
    else some (s, tid)

/-- Register a testcase as cached in the first free slot from `tid` on. `none` when there is
none in the table: the search leaves it. -/
def register (s : TestcaseCache) (q tid : Nat) : Option TestcaseCache :=
  let tid := Slots.freeFrom s.cache tid
  if tid < s.cache.length then
    some { s.modify q ({ · with testcaseBuf := true }) with
      cache := s.cache.set tid (some q)
      cacheSize := s.cacheSize + (s.entry q).len.setWidth 64
      cacheCount := s.cacheCount + 1
      maxCacheCount := if s.maxCacheCount ≤ tid then tid + 1 else s.maxCacheCount
      smallestFree := if s.maxCacheCount ≤ tid then s.smallestFree
        else if tid = s.smallestFree then tid + 1 else s.smallestFree }
  else none

/-- `light` is a weight below average. -/
def queueTestcaseGet (newCells : Nat → Option Nat) (queueCur : Option Nat) (light : Bool)
    (s : TestcaseCache) (q : Nat) (draws : List Nat) : Option TestcaseCache :=
  if (s.entry q).testcaseBuf then some s
  else if light ∨ s.maxCacheSize = 0 then some s
  else
    match evictUntilRoom newCells queueCur (s.entry q).len draws.length draws s
        s.maxCacheCount with
    | none => none
    | some (s, tid) => s.register q (if s.maxCacheEntries ≤ tid then s.smallestFree else tid)

/-- No space, or an uninteresting entry: only the upstream build leaves light entries out. -/
def noSpace (build : EffBuild) (light : Bool) (s : TestcaseCache) (q : Nat) : Bool :=
  build = .upstream ∧ light ∨ s.tooLarge (s.entry q).len ∨ s.maxEntriesLessOne ≤ s.cacheCount

def queueTestcaseStoreMem (build : EffBuild) (light : Bool) (s : TestcaseCache) (q : Nat) :
    Option TestcaseCache :=
  if noSpace build light s q then some s
  else
    s.register q (if s.maxCacheEntries ≤ s.maxCacheCount then s.smallestFree else s.maxCacheCount)

/-! ## Trimming -/

/-- After a custom trim; the difference of the lengths is one of `u32`. -/
def queueTestcaseRetake (s : TestcaseCache) (q : Nat) (oldLen : BitVec 32) : TestcaseCache :=
  let len := (s.entry q).len
  if (s.entry q).testcaseBuf ∧ (oldLen < len ∨ len + 1024 < oldLen) then
    { s with cacheSize := s.cacheSize + (len - oldLen).setWidth 64 }
  else s

/-- After a normal trim; `inPlace` says that the trimmed bytes are the entry's own buffer. -/
def queueTestcaseRetakeMem (s : TestcaseCache) (q : Nat) (inPlace : Bool) (len oldLen : BitVec 32) :
    TestcaseCache :=
  if (s.entry q).testcaseBuf ∧ inPlace = false ∧ len + 1024 < oldLen then
    { s with cacheSize := s.cacheSize + (len - oldLen).setWidth 64 }
  else s

/-- What the trimmers and the target make of an entry: the length after custom trimming; the
length when trimming stops early; or the length that is written, after post-processing, and
whether the bytes are still those of the buffer that was trimmed. -/
inductive Trim where
  | custom (len : BitVec 32)
  | stopped (len : BitVec 32)
  | written (len : BitVec 32) (inPlace : Bool)
  deriving DecidableEq, Repr

def trimCase (s : TestcaseCache) (q : Nat) (t : Trim) : TestcaseCache :=
  let origLen := (s.entry q).len
  match t with
  | .custom len => (s.modify q ({ · with len })).queueTestcaseRetake q origLen
  | .stopped len => s.modify q ({ · with len })
  | .written len inPlace =>
    (s.modify q ({ · with len })).queueTestcaseRetakeMem q inPlace len origLen

/-- `len` is the length once custom mutators have seen the entry; it is not cached till then. -/
def addToQueue (s : TestcaseCache) (len : BitVec 32) : TestcaseCache :=
  { s with queueBuf := s.queueBuf ++ [⟨len, false⟩] }

end TestcaseCache

/-! ## Runs -/

inductive CacheCall where
  | addToQueue (len : BitVec 32)
  | get (newCells : Nat → Option Nat) (queueCur : Option Nat) (light : Bool) (q : Nat)
    (draws : List Nat)
  | storeMem (build : EffBuild) (light : Bool) (q : Nat)
  | trim (q : Nat) (t : TestcaseCache.Trim)

namespace CacheCall

open TestcaseCache

def apply (s : TestcaseCache) : CacheCall → Option TestcaseCache
  | addToQueue len => some (s.addToQueue len)
  | get newCells queueCur light q draws => queueTestcaseGet newCells queueCur light s q draws
  | storeMem build light q => queueTestcaseStoreMem build light s q
  | trim q t => some (s.trimCase q t)

/-- Calls are about entries of the queue. -/
def Valid (s : TestcaseCache) : CacheCall → Prop
  | addToQueue _ => True
  | get _ _ _ q _ | storeMem _ _ q | trim q _ => q < s.queueBuf.length

instance (s : TestcaseCache) : (c : CacheCall) → Decidable (c.Valid s)
  | addToQueue _ => inferInstanceAs (Decidable True)
  | get _ _ _ q _ | storeMem _ _ q | trim q _ => inferInstanceAs (Decidable (q < s.queueBuf.length))

end CacheCall

/-- The states reached from an empty cache by calls that return and are allowed in the state
they are made in. -/
inductive CacheRun (Allowed : TestcaseCache → CacheCall → Prop) : TestcaseCache → Prop where
  | start (maxCacheSize : BitVec 64) (maxCacheEntries : BitVec 32) :
    CacheRun Allowed (.initial maxCacheSize maxCacheEntries)
  | call {s s' : TestcaseCache} (run : CacheRun Allowed s) (c : CacheCall) (valid : c.Valid s)
      (allowed : Allowed s c) (returns : c.apply s = some s') : CacheRun Allowed s'

end Swam.Afl
