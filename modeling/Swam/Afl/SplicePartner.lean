import Swam.Afl.CacheEviction
import Swam.Lib.Trace

/-!
# Partners for splicing

The custom-mutator stage draws entries of the queue until one may be spliced with. Whether it
starts to is decided by a count of long entries; whether an entry will do is decided by its
length and by a flag that is set on one path of the testcase cache only. So the count says
little: the search ends just when an entry has come along that path.
-/
namespace Swam.Afl

open Lib TestcaseCache

/-- The queue, as far as it matters for splicing: the testcase cache with the lengths of the
entries, and the flags `custom` and `trim_done` of each. -/
structure PartnerQueue where
  cache : TestcaseCache
  custom : List Bool
  trimDone : List Bool
  readyForSplicingCount : Nat

namespace PartnerQueue

def queuedItems (s : PartnerQueue) : Nat := s.cache.queueBuf.length

def len (s : PartnerQueue) (q : Nat) : BitVec 32 := (s.cache.entry q).len

/-- The loop goes on past this entry. -/
def rejects (s : PartnerQueue) (currentEntry tid : Nat) : Bool :=
  tid = currentEntry || s.len tid < 4 || !s.custom.getD tid false

/-- The `do`-`while` loop, given the draws. -/
def pickPartner (s : PartnerQueue) (currentEntry : Nat) : List Nat → Option Nat
  | [] => none
  | draw :: draws =>
    let tid := randBelow s.queuedItems draw
    if s.rejects currentEntry tid then pickPartner s currentEntry draws else some tid

end PartnerQueue

/-! ## Runs -/

/-- A call, whether `current_custom_fuzz` is set or `start_time` is zero during it, whether it
stores an entry in the cache, and the length of the file of a new entry should a custom mutator
rewrite it in `afl_custom_queue_new_entry`. -/
structure PartnerCall where
  call : CacheCall
  customFuzz : Bool
  stores : Bool
  rewritten : Option (BitVec 32)

/-- Whether the call finds space to store an entry. -/
def PartnerCall.hasSpace (s : PartnerQueue) (c : PartnerCall) : Bool :=
  match c.call with
  | .storeMem build light q => !noSpace build light s.cache q
  | .addToQueue _ | .get .. | .trim .. => false

namespace PartnerQueue

def start (cache : TestcaseCache) : PartnerQueue := ⟨cache, [], [], 0⟩

/-- `run_afl_custom_queue_new_entry` on the entry just added: its length is read again when a
mutator says that it changed the file. -/
def customQueueNewEntry (rewritten : Option (BitVec 32)) (q : Nat) (cache : TestcaseCache) :
    TestcaseCache :=
  match rewritten with
  | some len => cache.modify q ({ · with len })
  | none => cache

/-- What the call does besides its effect on the cache. -/
def apply (s : PartnerQueue) (c : PartnerCall) : Option PartnerQueue :=
  (c.call.apply s.cache).map fun cache =>
    match c.call with
    | .addToQueue len =>
      -- the count is of the length before a custom mutator may change it
      { cache := customQueueNewEntry c.rewritten s.queuedItems cache
        custom := s.custom ++ [false]
        trimDone := s.trimDone ++ [false]
        readyForSplicingCount :=
          if 4 < len then s.readyForSplicingCount + 1 else s.readyForSplicingCount }
    | .get .. => { s with cache }
    | .storeMem _ _ q =>
      { s with cache, custom := if c.stores && c.customFuzz then s.custom.set q true else s.custom }
    | .trim q _ =>
      { s with
        cache
        trimDone := s.trimDone.set q true
        -- the entry may not be ready for splicing any more
        readyForSplicingCount :=
          if (cache.entry q).len ≤ 4 ∧ 4 < s.len q then s.readyForSplicingCount - 1
          else s.readyForSplicingCount }

end PartnerQueue

/-- A call of a SWAM build that returns. An entry is trimmed once. -/
structure PartnerStep (s : PartnerQueue) (c : PartnerCall) (s' : PartnerQueue) : Prop where
  valid : c.call.Valid s.cache
  fresh : c.call.Fresh s.cache
  swam : ∀ build light q, c.call = .storeMem build light q → build = .swam
  stores : c.stores = c.hasSpace s
  once : ∀ q t, c.call = .trim q t → s.trimDone[q]? = some false
  returns : s.apply c = some s'

/-- The queue is empty at first, and the cache configured. -/
def PartnerStart (s : PartnerQueue) : Prop :=
  ∃ maxCacheSize maxCacheEntries, s = .start (.initial maxCacheSize maxCacheEntries)

/-- Runs, with the calls made. -/
abbrev PartnerRun : List PartnerCall → PartnerQueue → Prop := Trace PartnerStart PartnerStep

/-- The call stored the entry in the cache while a custom mutator was at work. -/
def PartnerCall.Marks (c : PartnerCall) (i : Nat) : Prop :=
  c.stores = true ∧ c.customFuzz = true ∧ ∃ build light, c.call = .storeMem build light i

/-! ## The search -/

namespace PartnerQueue

variable {s : PartnerQueue}

theorem pickPartner_ends {currentEntry : Nat} {source : Nat → Nat} {d pos : Nat}
    (accepted : s.rejects currentEntry (randBelow s.queuedItems (source (pos + d))) = false) :
    (s.pickPartner currentEntry (drawsFrom source pos (d + 1))).isSome := by
  induction d generalizing pos with
  | zero =>
    rw [Nat.add_zero] at accepted
    rw [drawsFrom_succ, pickPartner]
    simp only [accepted, Bool.false_eq_true, if_false, Option.isSome_some]
  | succ d ih =>
    rw [drawsFrom_succ, pickPartner]
    split
    · exact @ih (pos + 1) (by rwa [Nat.add_right_comm])
    · rfl

/-- An entry will do, and every source that yields all indices leads to one. -/
structure SearchEnds (s : PartnerQueue) (currentEntry : Nat) : Prop where
  partner : ∃ tid < s.queuedItems, s.rejects currentEntry tid = false
  search : ∀ source, YieldsAll s.queuedItems source →
    ∃ n, (s.pickPartner currentEntry (drawsFrom source 0 n)).isSome

theorem searchEnds_iff {currentEntry : Nat} :
    s.SearchEnds currentEntry ↔ ∃ tid < s.queuedItems, s.rejects currentEntry tid = false := by
  constructor
  · exact SearchEnds.partner
  · rintro ⟨tid, inside, accepted⟩
    refine ⟨⟨tid, inside, accepted⟩, fun source fair => ?_⟩
    obtain ⟨k, _, drawn⟩ := fair tid inside 0
    exact ⟨k + 1, pickPartner_ends (by rw [Nat.zero_add, drawn]; exact accepted)⟩

end PartnerQueue

/-! ## The number of entries -/

namespace TestcaseCache

variable {s s' : TestcaseCache}

theorem length_evict (tid : Nat) : (s.evict tid).queueBuf.length = s.queueBuf.length := by
  rw [TestcaseCache.evict]
  split
  · rfl
  · exact length_modify _ _

theorem length_evictUntilRoom {newCells : Nat → Option Nat} {queueCur : Option Nat}
    {len : BitVec 32} {rounds : Nat} {draws : List Nat} {tid tid' : Nat}
    (ends : evictUntilRoom newCells queueCur len rounds draws s tid = some (s', tid')) :
    s'.queueBuf.length = s.queueBuf.length := by
  induction rounds generalizing s tid draws with
  | zero =>
    unfold TestcaseCache.evictUntilRoom at ends
    split at ends
    next => cases ends
    next =>
      cases ends
      rfl
  | succ rounds ih =>
    unfold TestcaseCache.evictUntilRoom at ends
    split at ends
    next =>
      dsimp only at ends
      split at ends
      next => cases ends
      next => rw [ih ends, length_evict, queueBuf_learnMaxEntries]
    next =>
      cases ends
      rfl

theorem length_register {q tid : Nat} (registered : s.register q tid = some s') :
    s'.queueBuf.length = s.queueBuf.length := by
  rw [TestcaseCache.register] at registered
  generalize Slots.freeFrom s.cache tid = t at registered
  split at registered
  next =>
    cases registered
    exact length_modify _ _
  next => cases registered

end TestcaseCache

theorem PartnerQueue.length_customQueueNewEntry (rewritten : Option (BitVec 32)) (q : Nat)
    (cache : TestcaseCache) :
    (customQueueNewEntry rewritten q cache).queueBuf.length = cache.queueBuf.length := by
  cases rewritten with
  | none => rfl
  | some len => exact length_modify _ _

/-- Only `add_to_queue` changes the number of entries. -/
theorem CacheCall.length_apply {s s' : TestcaseCache} {c : CacheCall} (valid : c.Valid s)
    (returns : c.apply s = some s') (other : ∀ len, c ≠ .addToQueue len) :
    s'.queueBuf.length = s.queueBuf.length := by
  cases c with
  | addToQueue len => exact absurd rfl (other len)
  | get newCells queueCur light q draws =>
    rw [CacheCall.apply, queueTestcaseGet] at returns
    split at returns
    next =>
      cases returns
      rfl
    next =>
      split at returns
      next =>
        cases returns
        rfl
      next =>
        split at returns
        next => cases returns
        next ends => rw [length_register returns, length_evictUntilRoom ends]
  | storeMem build light q =>
    rw [CacheCall.apply, queueTestcaseStoreMem] at returns
    split at returns
    next =>
      cases returns
      rfl
    next => exact length_register returns
  | trim q t =>
    cases returns
    rw [trimCase_eq valid]
    exact length_modify _ _

/-! ## The flag -/

/-- Every entry has its flags, and has the flag `custom` when a call marked it. -/
structure FlagsKept (calls : List PartnerCall) (s : PartnerQueue) : Prop where
  custom_length : s.custom.length = s.queuedItems
  custom_iff : ∀ i, s.custom[i]? = some true ↔ ∃ c ∈ calls, c.Marks i

theorem marks_cons {calls : List PartnerCall} {c : PartnerCall} {i : Nat} :
    (∃ d ∈ c :: calls, d.Marks i) ↔ c.Marks i ∨ ∃ d ∈ calls, d.Marks i := by
  simp

/-- A call that stores nothing marks nothing. -/
theorem not_marks {c : PartnerCall} (other : ∀ build light q, c.call ≠ .storeMem build light q)
    (i : Nat) : ¬ c.Marks i := fun ⟨_, _, build, light, same⟩ => other build light i same

theorem FlagsKept.start {s : PartnerQueue} (initial : PartnerStart s) : FlagsKept [] s := by
  obtain ⟨_, _, rfl⟩ := initial
  exact ⟨rfl, by simp [PartnerQueue.start]⟩

theorem FlagsKept.step {calls : List PartnerCall} {c : PartnerCall} {s s' : PartnerQueue}
    (kept : FlagsKept calls s) (step : PartnerStep s c s') : FlagsKept (c :: calls) s' := by
  obtain ⟨cache, called, rfl⟩ := Option.map_eq_some_iff.mp step.returns
  have length := CacheCall.length_apply step.valid called
  cases call : c.call with
  | addToQueue len =>
    have none_ := not_marks (c := c) (by simp [call])
    rw [call] at called
    cases called
    refine ⟨?_, fun i => ?_⟩
    · have entries : (s.cache.addToQueue len).queueBuf.length = s.queuedItems + 1 :=
        List.length_append
      refine Eq.trans ?_ (PartnerQueue.length_customQueueNewEntry ..).symm
      rw [entries, List.length_append, List.length_singleton, kept.custom_length]
    · rw [marks_cons, or_iff_right (none_ i), ← kept.custom_iff]
      simp only [List.getElem?_append]
      split
      · rfl
      next beyond =>
        have absent : s.custom[i]? = none := List.getElem?_eq_none (by omega)
        rw [absent]
        cases i - s.custom.length <;> simp
  | get newCells queueCur light q draws =>
    have none_ := not_marks (c := c) (by simp [call])
    refine ⟨kept.custom_length.trans (length (by simp [call])).symm, fun i => ?_⟩
    rw [marks_cons, or_iff_right (none_ i), ← kept.custom_iff]
  | storeMem build light q =>
    have inside : q < s.custom.length := by
      have valid := step.valid
      rw [call] at valid
      rw [kept.custom_length]
      exact valid
    refine ⟨?_, fun i => ?_⟩
    · dsimp only
      rw [apply_ite List.length, List.length_set, ite_self]
      exact kept.custom_length.trans (length (by simp [call])).symm
    · rw [marks_cons, ← kept.custom_iff]
      dsimp only
      by_cases marks : (c.stores && c.customFuzz) = true
      · rw [if_pos marks, List.getElem?_set]
        rw [Bool.and_eq_true] at marks
        by_cases here : q = i
        · subst here
          have marked : c.Marks q := ⟨marks.1, marks.2, build, light, call⟩
          simp [inside, marked]
        · have other : ¬ c.Marks i := by
            rintro ⟨_, _, build', light', same⟩
            rw [call] at same
            cases same
            exact here rfl
          rw [if_neg here, or_iff_right other]
      · have other : ¬ c.Marks i := by
          rintro ⟨stores, custom, _⟩
          exact marks (by rw [stores, custom]; rfl)
        rw [if_neg marks, or_iff_right other]
  | trim q t =>
    have none_ := not_marks (c := c) (by simp [call])
    refine ⟨kept.custom_length.trans (length (by simp [call])).symm, fun i => ?_⟩
    rw [marks_cons, or_iff_right (none_ i), ← kept.custom_iff]

theorem PartnerRun.flagsKept {calls : List PartnerCall} {s : PartnerQueue} (run : PartnerRun calls s) :
    FlagsKept calls s :=
  run.history (fun _ initial => .start initial) fun _ _ _ _ kept step => kept.step step

/-! ## When the search ends -/

/-- Once there are enough long entries, the search for a partner ends just when some other entry
that still has four bytes was stored in the cache while a custom mutator was at work. -/
theorem splice_partner_iff {calls : List PartnerCall} {s : PartnerQueue} (run : PartnerRun calls s)
    (currentEntry : Nat) :
    (1 < s.readyForSplicingCount → s.SearchEnds currentEntry) ↔
      (1 < s.readyForSplicingCount →
        ∃ tid, tid ≠ currentEntry ∧ 4 ≤ s.len tid ∧ ∃ c ∈ calls, c.Marks tid) := by
  have kept := run.flagsKept
  refine forall_congr' fun _ => ?_
  rw [PartnerQueue.searchEnds_iff]
  refine exists_congr fun tid => ?_
  rw [← kept.custom_iff]
  have flagged : s.custom.getD tid false = true ↔ s.custom[tid]? = some true := by
    rw [List.getD_eq_getElem?_getD]
    cases s.custom[tid]? with
    | none => simp
    | some flag => simp
  have inside : s.custom[tid]? = some true → tid < s.queuedItems := by
    intro at_
    rw [← kept.custom_length]
    exact (List.getElem?_eq_some_iff.mp at_).1
  simp only [PartnerQueue.rejects, Bool.or_eq_false_iff, decide_eq_false_iff_not,
    Bool.not_eq_false', flagged, BitVec.not_lt]
  tauto

/-- Two entries of ten bytes each, read from the disk. -/
def twoSeeds : PartnerQueue :=
  ⟨⟨[⟨10, false⟩, ⟨10, false⟩], [none, none, none], 52428800, 3, 0, 0, 0, 0, false⟩,
    [false, false], [false, false], 2⟩

def seedCalls : List PartnerCall := 
  [⟨.addToQueue 10, false, false, none⟩, ⟨.addToQueue 10, false, false, none⟩]

theorem twoSeeds_run : PartnerRun seedCalls twoSeeds := by
  have empty : PartnerRun [] (.start (.initial 52428800 3)) := .start ⟨52428800, 3, rfl⟩
  have first : PartnerRun [⟨.addToQueue 10, false, false, none⟩] _ :=
    empty.next ⟨trivial, trivial, by simp, rfl, by simp, rfl⟩
  exact first.next ⟨trivial, trivial, by simp, rfl, by simp, rfl⟩

theorem splice_partner_twoSeeds :
    (1 < twoSeeds.readyForSplicingCount → twoSeeds.SearchEnds 0) ↔
      (1 < twoSeeds.readyForSplicingCount →
        ∃ tid, tid ≠ 0 ∧ 4 ≤ twoSeeds.len tid ∧ ∃ c ∈ seedCalls, c.Marks tid) :=
  splice_partner_iff twoSeeds_run 0

/-- Two seeds are enough to start the search, and none of them will ever do. -/
theorem splice_partner_endless :
    PartnerRun seedCalls twoSeeds ∧ 1 < twoSeeds.readyForSplicingCount ∧
      ¬ twoSeeds.SearchEnds 0 ∧ ∀ draws, twoSeeds.pickPartner 0 draws = none := by
  have rejected (tid : Nat) : twoSeeds.rejects 0 tid = true := by
    have unflagged : twoSeeds.custom.getD tid false = false := by
      match tid with
      | 0 => rfl
      | 1 => rfl
      | _ + 2 => rfl
    simp only [PartnerQueue.rejects, unflagged, Bool.not_false, Bool.or_true]
  refine ⟨twoSeeds_run, by decide, ?_, ?_⟩
  · rintro ⟨⟨tid, _, accepted⟩, _⟩
    rw [rejected tid] at accepted
    cases accepted
  · intro draws
    induction draws with
    | nil => rfl
    | cons draw draws ih =>
      rw [PartnerQueue.pickPartner]
      simp only [rejected, if_true]
      exact ih

end Swam.Afl
