import Mathlib.Algebra.Order.Ring.Int
import Mathlib.Logic.Function.Basic
import Mathlib.Tactic.IntervalCases

/-!
# Coverage maps

A map is the memory behind `trace_bits` and the virgin maps, read in 64-bit words. Hit
counts are put into buckets by a 16-bit table; a virgin map holds a set bit for each
bucket that no execution has hit so far.
-/
namespace Swam.Afl

abbrev Word := BitVec 64

/-- Byte `k` of a word in memory. -/
def Word.byte (w : Word) (k : Nat) : BitVec 8 := w.extractLsb' (8 * k) 8

/-- The `k`-th element of the word read as `u16[4]`. -/
def Word.half (w : Word) (k : Nat) : BitVec 16 := w.extractLsb' (16 * k) 16

def wordAt (mem : List Word) (i : Nat) : Word := mem[i]?.getD 0

def byteAt (mem : List Word) (j : Nat) : BitVec 8 := (wordAt mem (j / 8)).byte (j % 8)

/-! ## Buckets -/

def countClassLookup8 (count : BitVec 8) : BitVec 8 :=
  let n := count.toNat
  if n = 0 then 0
  else if n = 1 then 1
  else if n = 2 then 2
  else if n = 3 then 4
  else if n ≤ 7 then 8
  else if n ≤ 15 then 16
  else if n ≤ 31 then 32
  else if n ≤ 127 then 64
  else 128

/-- The table `count_class_lookup16` as `init_count_class16` leaves it. -/
def initCountClass16 : Nat → BitVec 16 :=
  (List.range 256).foldl (fun table b1 =>
    (List.range 256).foldl (fun table b2 =>
      Function.update table (b1 * 256 + b2)
        ((countClassLookup8 (BitVec.ofNat 8 b1)).setWidth 16 <<< 8 |||
          (countClassLookup8 (BitVec.ofNat 8 b2)).setWidth 16)) table) fun _ => 0

def countClassLookup16 (counts : BitVec 16) : BitVec 16 := initCountClass16 counts.toNat

def classifyWord (word : Word) : Word :=
  countClassLookup16 (word.half 3) ++ countClassLookup16 (word.half 2) ++
    countClassLookup16 (word.half 1) ++ countClassLookup16 (word.half 0)

def simplifyLookup (count : BitVec 8) : BitVec 8 := if count = 0 then 1 else 128

def simplifyWord (word : Word) : Word :=
  if word = 0 then 0x0101010101010101
  else
    simplifyLookup (word.byte 7) ++ simplifyLookup (word.byte 6) ++ simplifyLookup (word.byte 5) ++
      simplifyLookup (word.byte 4) ++ simplifyLookup (word.byte 3) ++
      simplifyLookup (word.byte 2) ++ simplifyLookup (word.byte 1) ++ simplifyLookup (word.byte 0)

/-! ## State -/

inductive VirginMap where
  | bits | tmout | crash
  deriving DecidableEq, Repr

/-- The maps of `afl_state_t`. -/
structure Coverage where
  mapSize : Nat
  realMapSize : Nat
  traceBits : List Word
  virginBits : List Word
  virginTmout : List Word
  virginCrash : List Word
  bitmapChanged : Bool
  deriving DecidableEq, Repr

namespace Coverage

def virgin (c : Coverage) : VirginMap → List Word
  | .bits => c.virginBits
  | .tmout => c.virginTmout
  | .crash => c.virginCrash

def setVirgin (c : Coverage) (which : VirginMap) (mem : List Word) : Coverage :=
  match which with
  | .bits => { c with virginBits := mem }
  | .tmout => { c with virginTmout := mem }
  | .crash => { c with virginCrash := mem }

end Coverage

/-- The first `words` words of a map, rewritten one by one. -/
def rewriteWords (f : Word → Word) (words : Nat) (mem : List Word) : List Word :=
  (mem.take words).map f ++ mem.drop words

def classifyCounts (c : Coverage) : Coverage :=
  { c with traceBits :=
      rewriteWords (fun w => if w ≠ 0 then classifyWord w else w) (c.mapSize / 8) c.traceBits }

def simplifyTrace (c : Coverage) : Coverage :=
  { c with traceBits := rewriteWords simplifyWord (c.mapSize / 8) c.traceBits }

/-! ## New coverage -/

/-- Reports in `ret` whether a count or a whole byte is new, and clears what was seen. -/
def discoverWord (ret : Nat) (current virgin : Word) : Nat × Word :=
  if current &&& virgin ≠ 0 then
    (if ret < 2 then
        if (List.range 8).any fun k => current.byte k ≠ 0 ∧ virgin.byte k = 0xff then 2 else 1
      else ret,
      virgin &&& ~~~current)
  else (ret, virgin)

/-- The loop of `has_new_bits` over the words of both maps. -/
def discoverWords : List Word → List Word → Nat → Nat × List Word
  | current :: currents, virgin :: virgins, ret =>
    let (ret, virgin) := if current ≠ 0 then discoverWord ret current virgin else (ret, virgin)
    let (ret, virgins) := discoverWords currents virgins ret
    (ret, virgin :: virgins)
  | _, virgins, ret => (ret, virgins)

def hasNewBits (which : VirginMap) (c : Coverage) : Nat × Coverage :=
  let (ret, virgin) := discoverWords (c.traceBits.take ((c.realMapSize + 7) / 8)) (c.virgin which) 0
  let c := c.setVirgin which virgin
  (ret, if ret ≠ 0 ∧ which = .bits then { c with bitmapChanged := true } else c)

/-- The instruction sets `skim` is written for. -/
inductive SkimBuild where
  | portable | avx2 | avx512
  deriving DecidableEq, Repr

/-- Words looked at in one round. -/
def SkimBuild.pack : SkimBuild → Nat
  | .portable | .avx2 => 4
  | .avx512 => 8

/-- The rounds of `skim` from word `start` on. The vector builds first skip a pack that is all
zero. -/
def skimRounds (build : SkimBuild) (virgin current : List Word) : Nat → Nat → Bool
  | 0, _ => false
  | rounds + 1, start =>
    let pack := List.range build.pack
    if build ≠ .portable ∧ pack.all fun x => wordAt current (start + x) = 0 then
      skimRounds build virgin current rounds (start + build.pack)
    else if pack.any fun x => wordAt current (start + x) ≠ 0 ∧
        classifyWord (wordAt current (start + x)) &&& wordAt virgin (start + x) ≠ 0 then true
    else skimRounds build virgin current rounds (start + build.pack)

/-- The scan over `bytes` bytes of a trace, a whole number of packs. -/
def skim (build : SkimBuild) (virgin current : List Word) (bytes : Nat) : Bool :=
  skimRounds build virgin current (bytes / (8 * build.pack)) 0

/-- `0` leaves the trace as it is; otherwise the trace is classified and the flag set. -/
def hasNewBitsUnclassified (build : SkimBuild) (which : VirginMap) (c : Coverage)
    (classified : Bool) : Nat × Coverage × Bool :=
  if skim build (c.virgin which) c.traceBits c.mapSize = false then (0, c, classified)
  else
    let (ret, c) := hasNewBits which (classifyCounts c)
    (ret, c, true)

/-- A scan writes one virgin map and nothing else. -/
theorem hasNewBits_same (which : VirginMap) (c : Coverage) :
    (hasNewBits which c).2.mapSize = c.mapSize ∧ (hasNewBits which c).2.realMapSize = c.realMapSize ∧
      (hasNewBits which c).2.traceBits = c.traceBits ∧
      ∀ other, other ≠ which → (hasNewBits which c).2.virgin other = c.virgin other := by
  simp only [hasNewBits]
  split <;> cases which <;> refine ⟨rfl, rfl, rfl, fun other different => ?_⟩ <;> cases other <;>
    first | rfl | exact absurd rfl different

/-! ## Words and bytes -/

theorem Word.eq_zero_of_bytes {w : Word} (zero : ∀ k, k < 8 → w.byte k = 0) : w = 0 := by
  apply BitVec.eq_of_getLsbD_eq
  intro i bound
  have byte := congrArg (·.getLsbD (i % 8)) (zero (i / 8) (by omega))
  have position : 8 * (i / 8) + i % 8 = i := Nat.div_add_mod i 8
  simpa [Word.byte, position, Nat.mod_lt i] using byte

private theorem update_rounds {α : Type} (table : Nat → α) (base : Nat) (entry : Nat → α) :
    ∀ n v, (List.range n).foldl (fun t b => Function.update t (base + b) (entry b)) table v =
      if base ≤ v ∧ v < base + n then entry (v - base) else table v
  | 0, v => by
    rw [if_neg (by omega)]
    rfl
  | n + 1, v => by
    rw [List.range_succ, List.foldl_append, List.foldl_cons, List.foldl_nil, Function.update_apply]
    by_cases last : v = base + n
    · subst last
      rw [if_pos rfl, if_pos (by omega), Nat.add_sub_cancel_left]
    · rw [if_neg last, update_rounds table base entry n v]
      by_cases inside : base ≤ v ∧ v < base + n
      · rw [if_pos inside, if_pos (by omega)]
      · rw [if_neg inside, if_neg (by omega)]

private theorem update_grid {α : Type} (table : Nat → α) (entry : Nat → Nat → α) :
    ∀ n v, (List.range n).foldl (fun t b1 =>
        (List.range 256).foldl (fun t b2 => Function.update t (b1 * 256 + b2) (entry b1 b2)) t)
          table v =
      if v < n * 256 then entry (v / 256) (v % 256) else table v
  | 0, v => by
    rw [if_neg (by omega)]
    rfl
  | n + 1, v => by
    have bound : v < (n + 1) * 256 ↔ v < n * 256 ∨ n * 256 ≤ v ∧ v < n * 256 + 256 := by omega
    rw [List.range_succ (n := n), List.foldl_append, List.foldl_cons, List.foldl_nil, update_rounds]
    by_cases last : n * 256 ≤ v ∧ v < n * 256 + 256
    · have high : v / 256 = n := by omega
      have low : v - n * 256 = v % 256 := by omega
      rw [if_pos last, if_pos (bound.mpr (Or.inr last)), high, low]
    · rw [if_neg last, update_grid table entry n v]
      simp only [bound, last, or_false]

private theorem shift_or_eq_append (a b : BitVec 8) :
    a.setWidth 16 <<< 8 ||| b.setWidth 16 = a ++ b := by
  apply BitVec.eq_of_getLsbD_eq
  intro i bound
  rw [BitVec.getLsbD_append]
  by_cases low : i < 8
  · simp [low, bound]
  · have above : b.getLsbD i = false := BitVec.getLsbD_of_ge b i (by omega)
    simp [low, bound, above]

/-- The table classifies the two bytes of its index. -/
theorem countClassLookup16_eq (counts : BitVec 16) :
    countClassLookup16 counts =
      countClassLookup8 (counts.extractLsb' 8 8) ++ countClassLookup8 (counts.extractLsb' 0 8) := by
  have bound : counts.toNat < 256 * 256 := counts.isLt
  have high : BitVec.ofNat 8 (counts.toNat / 256) = counts.extractLsb' 8 8 := by
    apply BitVec.eq_of_toNat_eq
    simp [Nat.shiftRight_eq_div_pow]
  have low : BitVec.ofNat 8 (counts.toNat % 256) = counts.extractLsb' 0 8 := by
    apply BitVec.eq_of_toNat_eq
    simp
  rw [countClassLookup16, initCountClass16, update_grid, if_pos bound, high, low, shift_or_eq_append]

private theorem extract_append_low {m n : Nat} (x : BitVec m) (y : BitVec n) {start : Nat}
    (below : start + 8 ≤ n) : (x ++ y).extractLsb' start 8 = y.extractLsb' start 8 := by
  apply BitVec.eq_of_getLsbD_eq
  intro i bound
  have low : start + i < n := by omega
  simp only [BitVec.getLsbD_extractLsb', BitVec.getLsbD_append, low, if_true]

private theorem extract_append_high {m n : Nat} (x : BitVec m) (y : BitVec n) {start : Nat}
    (above : n ≤ start) : (x ++ y).extractLsb' start 8 = x.extractLsb' (start - n) 8 := by
  apply BitVec.eq_of_getLsbD_eq
  intro i bound
  have high : ¬ start + i < n := by omega
  have position : start + i - n = start - n + i := by omega
  simp only [BitVec.getLsbD_extractLsb', BitVec.getLsbD_append, high, if_false, position]

private theorem Word.half_byte (w : Word) (n j : Nat) (bound : j < 2) :
    (w.half n).extractLsb' (8 * j) 8 = w.byte (2 * n + j) := by
  apply BitVec.eq_of_getLsbD_eq
  intro i inside
  have within : 8 * j + i < 16 := by omega
  have position : 16 * n + (8 * j + i) = 8 * (2 * n + j) + i := by omega
  simp only [Word.half, Word.byte, BitVec.getLsbD_extractLsb', within, position, decide_true,
    Bool.true_and]

/-- Classification works on the bytes of a word one by one. -/
theorem classifyWord_byte (w : Word) {k : Nat} (bound : k < 8) :
    (classifyWord w).byte k = countClassLookup8 (w.byte k) := by
  have halves : ∀ n, countClassLookup16 (w.half n) =
      countClassLookup8 (w.byte (2 * n + 1)) ++ countClassLookup8 (w.byte (2 * n)) := by
    intro n
    have low : (w.half n).extractLsb' 0 8 = w.byte (2 * n) := Word.half_byte w n 0 (by decide)
    have high : (w.half n).extractLsb' 8 8 = w.byte (2 * n + 1) := Word.half_byte w n 1 (by decide)
    rw [countClassLookup16_eq, low, high]
  have whole : ∀ b : BitVec 8, b.extractLsb' 0 8 = b := fun b => BitVec.extractLsb'_eq_self
  simp only [classifyWord, halves]
  interval_cases k <;>
    simp (disch := decide) only [Word.byte, extract_append_low, extract_append_high] <;>
    exact whole _

/-- An empty byte stays empty, and only an empty byte becomes one. -/
theorem countClassLookup8_eq_zero_iff (count : BitVec 8) :
    countClassLookup8 count = 0 ↔ count = 0 := by
  constructor
  · intro empty
    by_contra nonzero
    have positive : count.toNat ≠ 0 := fun zero => nonzero (BitVec.eq_of_toNat_eq zero)
    simp only [countClassLookup8, positive, if_false] at empty
    split_ifs at empty <;> simp at empty
  · rintro rfl
    rfl

end Swam.Afl
