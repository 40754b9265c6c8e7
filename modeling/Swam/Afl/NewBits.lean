import Swam.Afl.Coverage

/-!
# The fast scan for new coverage

`has_new_bits_unclassified` looks at a raw trace without writing it and only then takes the
slow path. Both agree on every trace whose bytes past the real map are zero.
-/
namespace Swam.Afl

/-! ## Words of a map -/

theorem wordAt_of_lt {mem : List Word} {i : Nat} (bound : i < mem.length) :
    mem[i]? = some (wordAt mem i) := by
  rw [wordAt, List.getElem?_eq_getElem bound, Option.getD_some]

theorem wordAt_of_ge {mem : List Word} {i : Nat} (past : mem.length ≤ i) : wordAt mem i = 0 := by
  rw [wordAt, List.getElem?_eq_none past, Option.getD_none]

theorem rewriteWords_length (f : Word → Word) (words : Nat) (mem : List Word) :
    (rewriteWords f words mem).length = mem.length := by
  simp only [rewriteWords, List.length_append, List.length_map, List.length_take, List.length_drop]
  omega

theorem wordAt_rewriteWords (f : Word → Word) {words : Nat} {mem : List Word}
    (all : mem.length ≤ words) {i : Nat} (bound : i < mem.length) :
    wordAt (rewriteWords f words mem) i = f (wordAt mem i) := by
  rw [rewriteWords, List.take_of_length_le all, List.drop_of_length_le all, List.append_nil, wordAt,
    List.getElem?_map, wordAt_of_lt bound, Option.map_some, Option.getD_some]

/-! ## What the scans see -/

/-- Word `i` of the raw trace hits a bucket that is still virgin. -/
def Fresh (virgin current : List Word) (i : Nat) : Prop :=
  wordAt current i ≠ 0 ∧ classifyWord (wordAt current i) &&& wordAt virgin i ≠ 0

/-- Some word of the rounds' packs is fresh, whether or not zero packs are skipped. -/
theorem skimRounds_iff (build : SkimBuild) (virgin current : List Word) :
    ∀ rounds start, skimRounds build virgin current rounds start = true ↔
      ∃ i, start ≤ i ∧ i < start + rounds * build.pack ∧ Fresh virgin current i
  | 0, start => by
    simp only [skimRounds, Bool.false_eq_true, false_iff]
    rintro ⟨i, low, high, _⟩
    omega
  | rounds + 1, start => by
    have ih := skimRounds_iff build virgin current rounds (start + build.pack)
    have size : (rounds + 1) * build.pack = rounds * build.pack + build.pack := Nat.succ_mul ..
    -- once this pack is known to hold nothing fresh, the later rounds decide
    have skip : (∀ x, x < build.pack → ¬ Fresh virgin current (start + x)) →
        ((∃ i, start + build.pack ≤ i ∧ i < start + build.pack + rounds * build.pack ∧
          Fresh virgin current i) ↔
        ∃ i, start ≤ i ∧ i < start + (rounds + 1) * build.pack ∧ Fresh virgin current i) := by
      intro stale
      constructor
      · rintro ⟨i, low, high, fresh⟩
        exact ⟨i, by omega, by omega, fresh⟩
      · rintro ⟨i, low, high, fresh⟩
        by_cases inPack : i < start + build.pack
        · exfalso
          apply stale (i - start) (by omega)
          rw [Nat.add_sub_of_le low]
          exact fresh
        · exact ⟨i, by omega, by omega, fresh⟩
    rw [skimRounds]
    split
    next zero =>
      rw [ih]
      apply skip
      intro x inPack fresh
      have empty := List.all_eq_true.mp zero.2 x (List.mem_range.mpr inPack)
      exact fresh.1 (of_decide_eq_true empty)
    next =>
      split
      next hit =>
        obtain ⟨x, member, found⟩ := List.any_eq_true.mp hit
        have inPack := List.mem_range.mp member
        simp only [true_iff]
        simp only [decide_eq_true_eq] at found
        exact ⟨start + x, by omega, by omega, found⟩
      next miss =>
        rw [ih]
        apply skip
        intro x inPack fresh
        apply miss
        apply List.any_eq_true.mpr
        refine ⟨x, List.mem_range.mpr inPack, ?_⟩
        simp only [decide_eq_true_eq]
        exact fresh

private theorem discoverWord_le (ret : Nat) (current virgin : Word) :
    ret ≤ (discoverWord ret current virgin).1 := by
  unfold discoverWord
  split_ifs <;> simp only <;> omega

private theorem discoverWord_pos (ret : Nat) {current virgin : Word}
    (hit : current &&& virgin ≠ 0) : 0 < (discoverWord ret current virgin).1 := by
  unfold discoverWord
  split_ifs <;> simp only <;> omega

theorem discoverWords_le : ∀ currents virgins ret, ret ≤ (discoverWords currents virgins ret).1
  | [], virgins, ret => by simp [discoverWords]
  | current :: currents, [], ret => by simp [discoverWords]
  | current :: currents, virgin :: virgins, ret => by
    simp only [discoverWords]
    split
    · exact Nat.le_trans (discoverWord_le ret current virgin) (discoverWords_le ..)
    · exact discoverWords_le ..

/-- Nothing to discover leaves the virgin map as it is. -/
theorem discoverWords_none : ∀ (currents virgins : List Word) (ret : Nat),
    (∀ i, wordAt currents i &&& wordAt virgins i = 0) →
      discoverWords currents virgins ret = (ret, virgins)
  | [], virgins, ret, _ => by simp [discoverWords]
  | current :: currents, [], ret, _ => by simp [discoverWords]
  | current :: currents, virgin :: virgins, ret, apart => by
    have here : current &&& virgin = 0 := apart 0
    have rest := discoverWords_none currents virgins ret fun i => apart (i + 1)
    simp only [discoverWords, discoverWord, here, ne_eq, not_true_eq_false, if_false, ite_self, rest]

/-- A word of the trace that meets the virgin map is reported. -/
theorem discoverWords_some : ∀ (currents virgins : List Word) (ret i : Nat),
    i < currents.length → i < virgins.length → wordAt currents i &&& wordAt virgins i ≠ 0 →
      0 < (discoverWords currents virgins ret).1
  | current :: currents, virgin :: virgins, ret, 0, _, _, hit => by
    have meets : current &&& virgin ≠ 0 := hit
    have nonzero : current ≠ 0 := by
      rintro rfl
      exact meets (BitVec.zero_and)
    simp only [discoverWords, nonzero, ne_eq, not_false_eq_true, if_true]
    exact Nat.lt_of_lt_of_le (discoverWord_pos ret meets) (discoverWords_le ..)
  | current :: currents, virgin :: virgins, ret, i + 1, inTrace, inMap, hit => by
    simp only [discoverWords]
    exact discoverWords_some currents virgins _ i (Nat.lt_of_succ_lt_succ inTrace)
      (Nat.lt_of_succ_lt_succ inMap) hit

/-! ## Agreement -/

/-- The maps have their declared sizes and the trace is empty past the real map. -/
structure Coverage.Ready (c : Coverage) : Prop where
  packs : 64 ∣ c.mapSize
  real : c.realMapSize ≤ c.mapSize
  trace : c.traceBits.length = c.mapSize / 8
  virgin : ∀ which, (c.virgin which).length = c.mapSize / 8
  rest : ∀ j, c.realMapSize ≤ j → j < c.mapSize → byteAt c.traceBits j = 0

namespace Coverage.Ready

variable {c : Coverage}

theorem skim_iff (ready : c.Ready) (build : SkimBuild) (which : VirginMap) :
    skim build (c.virgin which) c.traceBits c.mapSize = true ↔
      ∃ i, Fresh (c.virgin which) c.traceBits i := by
  obtain ⟨packs, size⟩ := ready.packs
  have words : c.traceBits.length = 8 * packs := by
    rw [ready.trace, size]
    omega
  have covered : c.mapSize / (8 * build.pack) * build.pack = 8 * packs := by
    rw [size]
    cases build <;> simp only [SkimBuild.pack] <;> omega
  rw [skim, skimRounds_iff, covered]
  constructor
  · rintro ⟨i, _, _, fresh⟩
    exact ⟨i, fresh⟩
  · rintro ⟨i, fresh⟩
    have inside : i < c.traceBits.length := by
      by_contra past
      exact fresh.1 (wordAt_of_ge (Nat.le_of_not_lt past))
    exact ⟨i, by omega, by omega, fresh⟩

/-- A word past the real map is empty. -/
theorem word_past_real (ready : c.Ready) {i : Nat} (past : (c.realMapSize + 7) / 8 ≤ i) :
    wordAt c.traceBits i = 0 := by
  by_cases inside : i < c.traceBits.length
  · apply Word.eq_zero_of_bytes
    intro k small
    obtain ⟨packs, size⟩ := ready.packs
    have length := ready.trace
    have empty := ready.rest (8 * i + k) (by omega) (by omega)
    have word : (8 * i + k) / 8 = i := by omega
    have byte : (8 * i + k) % 8 = k := by omega
    rwa [byteAt, word, byte] at empty
  · exact wordAt_of_ge (Nat.le_of_not_lt inside)

theorem wordAt_classifyCounts (ready : c.Ready) {i : Nat} (bound : i < c.traceBits.length) :
    wordAt (classifyCounts c).traceBits i =
      if wordAt c.traceBits i ≠ 0 then classifyWord (wordAt c.traceBits i)
      else wordAt c.traceBits i := by
  rw [classifyCounts]
  exact wordAt_rewriteWords _ (Nat.le_of_eq ready.trace) bound

/-- The classified trace holds the bucket of every count. -/
theorem byteAt_classifyCounts (ready : c.Ready) {j : Nat} (bound : j < c.mapSize) :
    byteAt (classifyCounts c).traceBits j = countClassLookup8 (byteAt c.traceBits j) := by
  obtain ⟨packs, size⟩ := ready.packs
  have inside : j / 8 < c.traceBits.length := by
    rw [ready.trace]
    omega
  rw [byteAt, byteAt, ready.wordAt_classifyCounts inside]
  split
  · exact classifyWord_byte _ (Nat.mod_lt _ (by decide))
  next zero =>
    have empty : wordAt c.traceBits (j / 8) = 0 := not_not.mp zero
    rw [empty]
    simp [Word.byte, countClassLookup8]

private theorem classified_meets (ready : c.Ready) (virgin : List Word) {i : Nat}
    (bound : i < c.traceBits.length) :
    wordAt (classifyCounts c).traceBits i &&& wordAt virgin i ≠ 0 ↔
      Fresh virgin c.traceBits i := by
  rw [ready.wordAt_classifyCounts bound]
  by_cases zero : wordAt c.traceBits i = 0
  · simp [Fresh, zero]
  · rw [if_pos zero]
    exact ⟨fun hit => ⟨zero, hit⟩, fun fresh => fresh.2⟩

private theorem wordAt_take {mem : List Word} {n i : Nat} :
    wordAt (mem.take n) i = if i < n then wordAt mem i else 0 := by
  rw [wordAt, List.getElem?_take]
  split <;> rfl

/-- The slow path finds something exactly when the raw trace holds a fresh word, and
otherwise changes nothing. -/
theorem hasNewBits_stale (ready : c.Ready) (which : VirginMap)
    (stale : ∀ i, ¬ Fresh (c.virgin which) c.traceBits i) :
    hasNewBits which (classifyCounts c) = (0, classifyCounts c) := by
  have same : (classifyCounts c).virgin which = c.virgin which := by cases which <;> rfl
  have nothing : discoverWords ((classifyCounts c).traceBits.take ((c.realMapSize + 7) / 8))
      (c.virgin which) 0 = (0, c.virgin which) := by
    apply discoverWords_none
    intro i
    rw [wordAt_take]
    split
    · by_cases bound : i < c.traceBits.length
      · by_contra hit
        exact stale i ((ready.classified_meets _ bound).mp hit)
      · have length : (classifyCounts c).traceBits.length = c.traceBits.length :=
          rewriteWords_length ..
        rw [wordAt_of_ge (by omega)]
        exact BitVec.zero_and
    · exact BitVec.zero_and
  have real : (classifyCounts c).realMapSize = c.realMapSize := rfl
  rw [hasNewBits, same, real, nothing]
  cases which <;> rfl

theorem hasNewBits_fresh (ready : c.Ready) (which : VirginMap)
    (fresh : ∃ i, Fresh (c.virgin which) c.traceBits i) :
    (hasNewBits which (classifyCounts c)).1 ≠ 0 := by
  obtain ⟨i, fresh⟩ := fresh
  have same : (classifyCounts c).virgin which = c.virgin which := by cases which <;> rfl
  have real : i < ((classifyCounts c).realMapSize + 7) / 8 := by
    by_contra past
    exact fresh.1 (ready.word_past_real (Nat.le_of_not_lt past))
  have bound : i < c.traceBits.length := by
    by_contra past
    exact fresh.1 (wordAt_of_ge (Nat.le_of_not_lt past))
  have length : (classifyCounts c).traceBits.length = c.traceBits.length := rewriteWords_length ..
  apply Nat.ne_of_gt
  apply discoverWords_some _ _ 0 i
  · rw [List.length_take]
    exact Nat.lt_min.mpr ⟨real, length ▸ bound⟩
  · rw [same, ready.virgin which, ← ready.trace]
    exact bound
  · rw [same, wordAt_take, if_pos real]
    exact (ready.classified_meets _ bound).mpr fresh

end Coverage.Ready

/-- The fast path returns what the slow path returns and leaves the same virgin maps. On `0`
the trace stays raw and the flag as it was; otherwise the trace is the classified one, every
byte of it the bucket of its count, and the flag is set. -/
theorem hasNewBitsUnclassified_eq (build : SkimBuild) (which : VirginMap) (c : Coverage)
    (classified : Bool) (ready : c.Ready) :
    let fast := hasNewBitsUnclassified build which c classified
    let slow := hasNewBits which (classifyCounts c)
    fast.1 = slow.1 ∧ (∀ w, fast.2.1.virgin w = slow.2.virgin w) ∧
      fast.2.1.bitmapChanged = slow.2.bitmapChanged ∧
      (fast.1 = 0 → fast.2.1.traceBits = c.traceBits ∧ fast.2.2 = classified) ∧
      (fast.1 ≠ 0 → fast.2.1.traceBits = (classifyCounts c).traceBits ∧
        (∀ j, j < c.mapSize →
          byteAt fast.2.1.traceBits j = countClassLookup8 (byteAt c.traceBits j)) ∧
        fast.2.2 = true) := by
  dsimp only
  have scan := ready.skim_iff build which
  by_cases fresh : ∃ i, Fresh (c.virgin which) c.traceBits i
  · have hit := scan.mpr fresh
    have found := ready.hasNewBits_fresh which fresh
    have trace := (hasNewBits_same which (classifyCounts c)).2.2.1
    have slow : hasNewBitsUnclassified build which c classified =
        ((hasNewBits which (classifyCounts c)).1, (hasNewBits which (classifyCounts c)).2,
          true) := by
      rw [hasNewBitsUnclassified, hit, if_neg (by decide)]
    rw [slow]
    refine ⟨rfl, fun _ => rfl, rfl, fun zero => absurd zero found, fun _ => ⟨trace, ?_, rfl⟩⟩
    intro j bound
    rw [trace]
    exact ready.byteAt_classifyCounts bound
  · have miss : skim build (c.virgin which) c.traceBits c.mapSize = false := by
      apply Bool.eq_false_iff.mpr
      exact fun hit => fresh (scan.mp hit)
    have nothing := ready.hasNewBits_stale which (not_exists.mp fresh)
    rw [hasNewBitsUnclassified, if_pos miss, nothing]
    refine ⟨rfl, ?_, rfl, fun _ => ⟨rfl, rfl⟩, fun nonzero => absurd rfl nonzero⟩
    intro w
    cases w <;> rfl

/-- One pack, eight real bytes, the first edge hit four times. -/
def fourHits : Coverage where
  mapSize := 64
  realMapSize := 8
  traceBits := 4 :: List.replicate 7 0
  virginBits := List.replicate 8 (BitVec.allOnes 64)
  virginTmout := List.replicate 8 (BitVec.allOnes 64)
  virginCrash := List.replicate 8 (BitVec.allOnes 64)
  bitmapChanged := false

theorem fourHits_ready : fourHits.Ready where
  packs := by decide
  real := by decide
  trace := by decide
  virgin := by
    intro which
    cases which <;> decide
  rest := by
    intro j low high
    have past : ∀ j, j < 64 → 8 ≤ j → byteAt fourHits.traceBits j = 0 := by decide
    exact past j high low

theorem hasNewBitsUnclassified_fourHits :
    (hasNewBitsUnclassified .avx2 .bits fourHits false).1 =
      (hasNewBits .bits (classifyCounts fourHits)).1 :=
  (hasNewBitsUnclassified_eq .avx2 .bits fourHits false fourHits_ready).1

end Swam.Afl
