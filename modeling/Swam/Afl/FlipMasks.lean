import Swam.Afl.StageRuns

/-!
# Flips as masks

`could_be_bitflip` sees only the mask between an old and a new word. The walking bit flips number
the bits from the most significant end of each byte, so that two or four adjacent bits of a
little-endian word that lie in two bytes are flipped by none of them.
-/
namespace Swam.Afl

open Lib

/-! ## Masks over a buffer -/

/-- The seed with the mask `d p` applied to every byte `p`. -/
def Masked (buf : List Byte) (d : Nat → Byte) (out : List Byte) : Prop :=
  ∀ p, out[p]? = buf[p]?.map (· ^^^ d p)

section
variable {buf out out' : List Byte} {d d' : Nat → Byte}

theorem Masked.eq (masked : Masked buf d out) (masked' : Masked buf d' out')
    (same : ∀ p < buf.length, d p = d' p) : out = out' := by
  apply List.ext_getElem?
  intro p
  rw [masked, masked']
  by_cases inside : p < buf.length
  · rw [same p inside]
  · rw [List.getElem?_eq_none (by omega)]
    rfl

theorem Masked.same (masked : Masked buf d out) (masked' : Masked buf d' out) {p : Nat}
    (inside : p < buf.length) : d p = d' p := by
  have here := (masked p).symm.trans (masked' p)
  rw [List.getElem?_eq_getElem inside, Option.map_some, Option.map_some, Option.some.injEq] at here
  exact (BitVec.xor_right_inj _).mp here

theorem masked_self : Masked buf (fun _ => 0) buf := by
  intro p
  simp

end

/-- The bytes of `x` from byte `i` on. -/
def wordMask (blen i : Nat) (x : BitVec 32) (p : Nat) : Byte :=
  if i ≤ p ∧ p < i + blen then nthByte x (p - i) else 0

section
variable {buf : List Byte} {blen i : Nat}

theorem masked_flipBits (n b : Nat) : Masked buf (flipMask n b) (DetRun.flipBits n buf b) :=
  getElem?_flipBits n buf b

theorem masked_storeWord (small : blen ≤ 4) (inside : i + blen ≤ buf.length) (v : BitVec 32) :
    Masked buf (wordMask blen i (loadWord blen buf i ^^^ v)) (storeWord blen buf i v) := by
  intro p
  rw [getElem?_storeWord inside, wordMask]
  split
  next within =>
    rw [nthByte_xor, nthByte_loadWord small, if_pos (by omega), cell_eq (by omega),
      Nat.add_sub_cancel' within.1, Option.map_some, ← BitVec.xor_assoc, BitVec.xor_self,
      BitVec.zero_xor]
  next => simp

theorem masked_flipWord (small : blen ≤ 4) (inside : i + blen ≤ buf.length) :
    Masked buf (fun p => if i ≤ p ∧ p < i + blen then 0xFF else 0)
      (DetRun.flipWord blen buf i) := by
  intro p
  rw [getElem?_flipWord small inside]
  dsimp only
  split
  · rfl
  · simp

end

/-! ## The masks of walking bits -/

theorem flipMask_succ (n b p : Nat) :
    flipMask (n + 1) b p =
      if (b + n) / 8 = p then flipMask n b p ^^^ (128 >>> ((b + n) % 8)) else flipMask n b p := by
  simp only [flipMask, List.range_succ, List.foldl_append, List.foldl_cons, List.foldl_nil]

theorem flipMask_outside {n b p : Nat} (outside : ∀ t < n, (b + t) / 8 ≠ p) :
    flipMask n b p = 0 := by
  induction n with
  | zero => rfl
  | succ n ih =>
    rw [flipMask_succ, if_neg (outside n (by omega)), ih fun t bound => outside t (by omega)]

/-- The mask moves with the byte of its first bit. -/
theorem flipMask_shift (n q c p : Nat) :
    flipMask n (8 * q + c) p = if q ≤ p then flipMask n c (p - q) else 0 := by
  induction n with
  | zero => exact (ite_self _).symm
  | succ n ih =>
    rw [flipMask_succ, flipMask_succ, ih, show (8 * q + c + n) % 8 = (c + n) % 8 by omega]
    by_cases after : q ≤ p
    · have same : (8 * q + c + n) / 8 = p ↔ (c + n) / 8 = p - q := by omega
      simp only [if_pos after, same]
    · rw [if_neg (show ¬ (8 * q + c + n) / 8 = p by omega), if_neg after, if_neg after]

theorem width_bounds {n : Nat} (listed : n ∈ [1, 2, 4]) : 0 < n ∧ n ≤ 4 := by
  simp only [List.mem_cons, List.not_mem_nil, or_false] at listed
  omega

/-- `n` set bits at the low end. -/
def lowBits (n : Nat) : BitVec 32 := (BitVec.allOnes n).setWidth 32

/-- Two or four adjacent bits of a word that lie in two bytes. -/
def crossingMasks : List (BitVec 32) :=
  ([0x180, 0x1e0, 0x3c0, 0x780] : List (BitVec 32)).flatMap fun m => [m, m <<< 8, m <<< 16]

/-- Adjacent bits within a byte are walked over; the others cross. -/
theorem walked_or_crossing :
    ∀ n ∈ [1, 2, 4], ∀ sh < 32, sh + n ≤ 32 →
      sh % 8 + n ≤ 8 ∧ nthByte (lowBits n <<< sh) (sh / 8) ≠ 0 ∧ (∀ j < 4,
        flipMask n (8 * (sh / 8) + (8 - sh % 8 - n)) j = nthByte (lowBits n <<< sh) j) ∨
      lowBits n <<< sh ∈ crossingMasks := by
  decide

theorem nthByte_lowBytes :
    ∀ m ∈ [1, 2, 4], ∀ s < 4, s + m ≤ 4 → ∀ j < 4,
      nthByte (lowBits (8 * m) <<< (8 * s)) j = if s ≤ j ∧ j < s + m then 0xFF else 0 := by
  decide

/-! ## What `could_be_bitflip` accepts -/

theorem shiftToFirst_eq (fuel sh : Nat) (x : BitVec 32) :
    ∃ d ≤ fuel, shiftToFirst fuel sh x = (sh + d, x >>> d) ∧ x = x >>> d <<< d := by
  induction fuel generalizing sh x with
  | zero => exact ⟨0, Nat.le_refl 0, by simp [shiftToFirst], by simp⟩
  | succ fuel ih =>
    rw [shiftToFirst]
    split
    next even =>
      obtain ⟨d, bound, shifted, whole⟩ := ih (sh + 1) (x >>> 1)
      have halved : x = x >>> 1 <<< 1 := by
        apply BitVec.eq_of_getLsbD_eq
        intro t _
        have low := congrArg (·.getLsbD 0) even
        cases t with
        | zero => simpa using low
        | succ t => simp [Nat.add_comm]; omega
      refine ⟨d + 1, by omega, ?_, ?_⟩
      · rw [shifted, ← BitVec.shiftRight_add, Nat.add_right_comm, Nat.add_assoc, Nat.add_comm 1 d]
      · rw [Nat.add_comm d 1, BitVec.shiftRight_add, Nat.add_comm 1 d, BitVec.shiftLeft_add, ← whole,
          ← halved]
    next => exact ⟨0, Nat.zero_le _, by simp, by simp⟩

/-- The mask is empty, or one of some adjacent bits, or one of some adjacent bytes. -/
theorem couldBeBitflip_masks {x : BitVec 32} (could : couldBeBitflip x = true) :
    x = 0 ∨ (∃ n ∈ [1, 2, 4], ∃ sh < 32, sh + n ≤ 32 ∧ x = lowBits n <<< sh) ∨
      ∃ m ∈ [1, 2, 4], ∃ s < 4, s + m ≤ 4 ∧ x = lowBits (8 * m) <<< (8 * s) := by
  obtain ⟨d, bound, shifted, whole⟩ := shiftToFirst_eq 32 0 x
  rw [couldBeBitflip, shifted, Nat.zero_add] at could
  have bits : ∀ n ∈ [1, 2, 4], ∀ d ≤ 32, lowBits n <<< d >>> d = lowBits n → d + n ≤ 32 := by
    decide
  have bytes : ∀ m ∈ [1, 2, 4], ∀ d ≤ 32, d &&& 7 = 0 →
      lowBits (8 * m) <<< d >>> d = lowBits (8 * m) → d = 8 * (d / 8) ∧ d / 8 + m ≤ 4 := by
    decide
  have from_bits {n : Nat} (listed : n ∈ [1, 2, 4]) (pattern : x >>> d = lowBits n) :
      ∃ n ∈ [1, 2, 4], ∃ sh < 32, sh + n ≤ 32 ∧ x = lowBits n <<< sh := by
    rw [pattern] at whole
    have low := bits n listed d bound (by rw [← whole, pattern])
    have pos := (width_bounds listed).1
    exact ⟨n, listed, d, by omega, low, whole⟩
  have from_bytes {m : Nat} (listed : m ∈ [1, 2, 4]) (aligned : d &&& 7 = 0)
      (pattern : x >>> d = lowBits (8 * m)) :
      ∃ m ∈ [1, 2, 4], ∃ s < 4, s + m ≤ 4 ∧ x = lowBits (8 * m) <<< (8 * s) := by
    rw [pattern] at whole
    obtain ⟨multiple, low⟩ := bytes m listed d bound aligned (by rw [← whole, pattern])
    have pos := (width_bounds listed).1
    exact ⟨m, listed, d / 8, by omega, low, by rw [← multiple]; exact whole⟩
  split at could
  next none => exact .inl none
  next =>
    dsimp only at could
    split at could
    next pattern =>
      rcases pattern with one | two | four
      · exact .inr (.inl (from_bits (n := 1) (by decide) one))
      · exact .inr (.inl (from_bits (n := 2) (by decide) two))
      · exact .inr (.inl (from_bits (n := 4) (by decide) four))
    next =>
      split at could
      next => exact absurd could (by decide)
      next aligned =>
        rcases of_decide_eq_true could with one | two | four
        · exact .inr (.inr (from_bytes (m := 1) (by decide) (not_not.mp aligned) one))
        · exact .inr (.inr (from_bytes (m := 2) (by decide) (not_not.mp aligned) two))
        · exact .inr (.inr (from_bytes (m := 4) (by decide) (not_not.mp aligned) four))

section
variable {buf out : List Byte} {blen i : Nat} {v : BitVec 32}

theorem nthByte_fits (fits : castU blen v = v) {j : Nat} (outside : blen ≤ j) : nthByte v j = 0 := by
  rw [← fits, nthByte_castU, if_neg (by omega)]

/-- The mask that a new value makes has no bits outside the word. -/
theorem nthByte_mask (small : blen ≤ 4) (fits : castU blen v = v) {j : Nat} (outside : blen ≤ j) :
    nthByte (loadWord blen buf i ^^^ v) j = 0 := by
  rw [nthByte_xor, nthByte_loadWord small, if_neg (by omega), nthByte_fits fits outside]
  rfl

theorem storeWord_eq_self (small : blen ≤ 4) (inside : i + blen ≤ buf.length)
    (same : loadWord blen buf i ^^^ v = 0) : storeWord blen buf i v = buf := by
  rw [← BitVec.xor_eq_zero_iff.mp same]
  exact storeWord_loadWord small inside

theorem flips_bits {n : Nat} (listed : n ∈ [1, 2, 4]) (flips : FlipsBits n buf out) :
    Flips buf out := by
  simp only [List.mem_cons, List.not_mem_nil, or_false] at listed
  rcases listed with rfl | rfl | rfl
  · exact .inl flips
  · exact .inr (.inl flips)
  · exact .inr (.inr (.inl flips))

theorem flips_word {m : Nat} (listed : m ∈ [1, 2, 4]) (flips : FlipsWord m buf out) :
    Flips buf out := by
  simp only [List.mem_cons, List.not_mem_nil, or_false] at listed
  rcases listed with rfl | rfl | rfl
  · exact .inr (.inr (.inr (.inl flips)))
  · exact .inr (.inr (.inr (.inr (.inl flips))))
  · exact .inr (.inr (.inr (.inr (.inr flips))))

/-- What `could_be_bitflip` skips is executed by the bit flips, but for the crossing masks. -/
theorem flips_of_couldBeBitflip (small : blen ≤ 4) (inside : i + blen ≤ buf.length)
    (fits : castU blen v = v) (could : couldBeBitflip (loadWord blen buf i ^^^ v) = true)
    (clear : loadWord blen buf i ^^^ v ∉ crossingMasks) :
    storeWord blen buf i v = buf ∨ Flips buf (storeWord blen buf i v) := by
  have masked := masked_storeWord small inside v
  have outside : ∀ j, blen ≤ j → nthByte (loadWord blen buf i ^^^ v) j = 0 :=
    fun j => nthByte_mask small fits
  rcases couldBeBitflip_masks could with
    none | ⟨n, listed, sh, bound, _, pattern⟩ | ⟨m, listed, s, bound, whole, pattern⟩
  · exact .inl (storeWord_eq_self small inside none)
  · rw [pattern] at masked outside clear
    obtain ⟨within, nonzero, walked⟩ := (walked_or_crossing n listed sh bound ‹_›).resolve_right clear
    have low : sh / 8 < blen := by
      by_contra beyond
      exact nonzero (outside _ (by omega))
    refine .inr (flips_bits listed
      ⟨8 * i + (8 * (sh / 8) + (8 - sh % 8 - n)), by omega, masked.eq (masked_flipBits _ _) ?_⟩)
    intro p _
    rw [wordMask, flipMask_shift]
    by_cases after : i ≤ p
    · by_cases before : p < i + blen
      · rw [if_pos ⟨after, before⟩, if_pos after, walked _ (by omega)]
      · rw [if_neg (by omega), if_pos after, flipMask_outside fun t bound => by omega]
    · rw [if_neg (by omega), if_neg after]
  · rw [pattern] at masked outside
    have bytes := nthByte_lowBytes m listed s bound whole
    have pos := (width_bounds listed).1
    have low : s + m ≤ blen := by
      by_contra beyond
      have last := bytes (s + m - 1) (by omega)
      rw [outside _ (by omega), if_pos (by omega)] at last
      exact absurd last (by decide)
    refine .inr (flips_word listed
      ⟨i + s, by omega, masked.eq (masked_flipWord (by omega) (by omega)) ?_⟩)
    intro p _
    rw [wordMask]
    by_cases within : i ≤ p ∧ p < i + blen
    · rw [if_pos within, bytes _ (by omega)]
      exact if_congr (by omega) rfl rfl
    · rw [if_neg within, if_neg (by omega)]

end

/-! ## Crossing masks -/

/-- What the crossing masks do to the two bytes. -/
def crossingPairs : List (Byte × Byte) := [(0x80, 0x01), (0xe0, 0x01), (0xc0, 0x03), (0x80, 0x07)]

/-- The seed with two or four bits flipped that lie in two bytes. -/
def Crossing (buf out : List Byte) : Prop :=
  ∃ q, q + 1 < buf.length ∧ ∃ pair ∈ crossingPairs,
    Masked buf (fun p => if p = q then pair.1 else if p = q + 1 then pair.2 else 0) out

theorem crossingPairs_nonzero (pair : Byte × Byte) (listed : pair ∈ crossingPairs) :
    pair.1 ≠ 0 ∧ pair.1 ≠ 0xFF ∧ pair.2 ≠ 0 := by
  simp only [crossingPairs, List.mem_cons, List.not_mem_nil, or_false] at listed
  rcases listed with rfl | rfl | rfl | rfl <;> decide

/-- The mask of a pair from byte `t` on. -/
def pairMask (pair : Byte × Byte) (t : Nat) : BitVec 32 :=
  pair.1.setWidth 32 <<< (8 * t) ||| pair.2.setWidth 32 <<< (8 * (t + 1))

theorem nthByte_pairMask (pair : Byte × Byte) (t : Nat) {j : Nat} (inside : j < 4) :
    nthByte (pairMask pair t) j = if j = t then pair.1 else if j = t + 1 then pair.2 else 0 := by
  have byte (c : Byte) (u : Nat) : nthByte (c.setWidth 32 <<< (8 * u)) j = if j = u then c else 0 := by
    rw [nthByte_shiftLeft _ _ (by omega)]
    rcases Nat.lt_trichotomy j u with before | rfl | after
    · rw [if_pos before, if_neg (by omega)]
    · rw [if_neg (by omega), if_pos rfl, Nat.sub_self]
      simp [nthByte]
    · rw [if_neg (by omega), if_neg (by omega)]
      apply BitVec.eq_of_getLsbD_eq
      intro t bound
      rw [getLsbD_nthByte, BitVec.getLsbD_setWidth, BitVec.getLsbD_of_ge c _ (by omega)]
      simp
  rw [pairMask, nthByte_or, byte, byte]
  by_cases first : j = t
  · rw [if_pos first, if_pos first, if_neg (by omega)]
    exact BitVec.or_zero
  · rw [if_neg first, if_neg first]
    exact BitVec.zero_or

theorem mem_crossingMasks {m : BitVec 32} (crosses : m ∈ crossingMasks) :
    ∃ t < 3, ∃ pair ∈ crossingPairs, m = pairMask pair t := by
  have listed : crossingMasks =
      crossingPairs.flatMap fun pair => (List.range 3).map (pairMask pair) := by decide
  rw [listed] at crosses
  obtain ⟨pair, known, here⟩ := List.mem_flatMap.mp crosses
  obtain ⟨t, bound, shape⟩ := List.mem_map.mp here
  exact ⟨t, List.mem_range.mp bound, pair, known, shape.symm⟩

/-- `could_be_bitflip` accepts every pair at every place. -/
theorem couldBeBitflip_pairMask (pair : Byte × Byte) (listed : pair ∈ crossingPairs) :
    ∀ t < 3, couldBeBitflip (pairMask pair t) = true := by
  simp only [crossingPairs, List.mem_cons, List.not_mem_nil, or_false] at listed
  rcases listed with rfl | rfl | rfl | rfl <;> decide

theorem walked_never_crosses :
    ∀ n ∈ [1, 2, 4], ∀ c < 8, (flipMask n c 0, flipMask n c 1) ∉ crossingPairs := by
  decide

section
variable {buf out : List Byte} {blen i : Nat} {v : BitVec 32}

theorem Crossing.ne (crossing : Crossing buf out) : out ≠ buf := by
  rintro rfl
  obtain ⟨q, inside, pair, listed, masked⟩ := crossing
  have here := masked.same masked_self (show q < out.length by omega)
  rw [if_pos rfl] at here
  exact (crossingPairs_nonzero pair listed).1 here

theorem Crossing.not_flipsBits {n : Nat} (widths : n ∈ [1, 2, 4]) (crossing : Crossing buf out) :
    ¬ FlipsBits n buf out := by
  rintro ⟨b, _, rfl⟩
  obtain ⟨q, inside, pair, listed, masked⟩ := crossing
  obtain ⟨first, _, second⟩ := crossingPairs_nonzero pair listed
  have byte := masked.same (masked_flipBits n b) (show q < buf.length by omega)
  have next := masked.same (masked_flipBits n b) inside
  rw [if_pos rfl, ← Nat.div_add_mod b 8, flipMask_shift] at byte
  rw [if_neg (by omega), if_pos rfl, ← Nat.div_add_mod b 8, flipMask_shift] at next
  have size := (width_bounds widths).2
  -- the first of the two bytes is the one of bit `b`
  have before : b / 8 ≤ q := by
    by_contra elsewhere
    rw [if_neg elsewhere] at byte
    exact first byte
  have after : q ≤ b / 8 := by
    by_contra elsewhere
    rw [if_pos (by omega), flipMask_outside fun t bound => by omega] at next
    exact second next
  have start : b / 8 = q := by omega
  rw [if_pos (by omega), start, Nat.sub_self] at byte
  rw [if_pos (by omega), start, Nat.add_sub_cancel_left] at next
  apply walked_never_crosses n widths (b % 8) (Nat.mod_lt _ (by decide))
  rw [← byte, ← next]
  exact listed

theorem Crossing.not_flipsWord {m : Nat} (small : m ≤ 4) (crossing : Crossing buf out) :
    ¬ FlipsWord m buf out := by
  rintro ⟨i, whole, rfl⟩
  obtain ⟨q, inside, pair, listed, masked⟩ := crossing
  obtain ⟨nonzero, partly, _⟩ := crossingPairs_nonzero pair listed
  have byte := masked.same (masked_flipWord small whole) (show q < buf.length by omega)
  rw [if_pos rfl] at byte
  split at byte
  · exact partly byte
  · exact nonzero byte

theorem Crossing.not_flips (crossing : Crossing buf out) : ¬ Flips buf out := by
  rintro (one | two | four | byte | word | quad)
  · exact crossing.not_flipsBits (by decide) one
  · exact crossing.not_flipsBits (by decide) two
  · exact crossing.not_flipsBits (by decide) four
  · exact crossing.not_flipsWord (by decide) byte
  · exact crossing.not_flipsWord (by decide) word
  · exact crossing.not_flipsWord (by decide) quad

theorem crossing_of_mask (small : blen ≤ 4) (inside : i + blen ≤ buf.length)
    (fits : castU blen v = v) (crosses : loadWord blen buf i ^^^ v ∈ crossingMasks) :
    Crossing buf (storeWord blen buf i v) := by
  obtain ⟨t, bound, pair, listed, shape⟩ := mem_crossingMasks crosses
  have bytes {j : Nat} (inside : j < 4) := nthByte_pairMask pair t inside
  have low : t + 1 < blen := by
    by_contra beyond
    have last := bytes (show t + 1 < 4 by omega)
    rw [← shape, nthByte_mask small fits (by omega), if_neg (by omega), if_pos rfl] at last
    exact (crossingPairs_nonzero pair listed).2.2 last.symm
  refine ⟨i + t, by omega, pair, listed, fun p => ?_⟩
  rw [masked_storeWord small inside v p, wordMask]
  congr 2
  funext c
  congr 1
  by_cases within : i ≤ p ∧ p < i + blen
  · rw [if_pos within, shape, bytes (by omega)]
    exact if_congr (by omega) rfl (if_congr (by omega) rfl rfl)
  · dsimp only
    rw [if_neg within, if_neg (by omega), if_neg (by omega)]

/-- A word that covers both bytes shows the mask to `could_be_bitflip`. -/
theorem Crossing.couldBeBitflip (small : blen ≤ 4) (inside : i + blen ≤ buf.length)
    (fits : castU blen v = v) (crossing : Crossing buf (storeWord blen buf i v)) :
    couldBeBitflip (loadWord blen buf i ^^^ v) = true := by
  obtain ⟨q, bound, pair, listed, masked⟩ := crossing
  obtain ⟨first, _, second⟩ := crossingPairs_nonzero pair listed
  have same := fun p (inside' : p < buf.length) =>
    masked.same (masked_storeWord small inside v) inside'
  have byte := same q (by omega)
  have next := same (q + 1) bound
  rw [if_pos rfl, wordMask] at byte
  rw [if_neg (by omega), if_pos rfl, wordMask] at next
  have start : i ≤ q := by
    by_contra outside
    rw [if_neg (by omega)] at byte
    exact first byte
  have final : q + 1 < i + blen := by
    by_contra outside
    rw [if_neg (by omega)] at next
    exact second next
  have shape : loadWord blen buf i ^^^ v = pairMask pair (q - i) := by
    apply eq_of_nthByte (m := 4) (by decide)
    intro j low
    rw [nthByte_pairMask pair _ low]
    by_cases within : j < blen
    · have here := same (i + j) (by omega)
      rw [wordMask, if_pos (show i ≤ i + j ∧ i + j < i + blen by omega),
        Nat.add_sub_cancel_left] at here
      rw [← here]
      exact if_congr (by omega) rfl (if_congr (by omega) rfl rfl)
    · rw [nthByte_mask small fits (by omega), if_neg (by omega), if_neg (by omega)]
  rw [shape]
  exact couldBeBitflip_pairMask pair listed (q - i) (by omega)

end

end Swam.Afl
