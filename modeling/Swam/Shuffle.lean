import Mathlib.Data.List.Perm.Basic
import Mathlib.Data.Fintype.Card
import Mathlib.Data.Nat.Factorial.Basic
import Mathlib.Data.Int.CardIntervalMod
import Swam.Helpers
import Swam.Lib.Draws

/-!
# The shuffle

The Fisher–Yates shuffle of an array of `u32` and the draws it is made of. `rand_below` throws
away the words of the generator that would favour the small results. Both are stated for any
generator and any state of it, so that the shuffle can be run on the generator of the fuzzer,
on a fixed vector of choices and on a vector of words.
-/
namespace Swam.Shuffle

open Lib

/-! ## `rand_below` -/

/-- What `rand_below` asks for: the next word, fresh seeds, and the second word of the seed. -/
structure RandSource (σ : Type) where
  randNext : σ → Nat × σ
  ckRead : σ → σ
  randSeed1 : σ → Nat

/-- The fields of `afl_state_t` about randomness. -/
structure RandState (σ : Type) where
  randSeed : σ
  randCnt : Nat
  fixedSeed : Bool
deriving DecidableEq

def uint64Max : Nat := 2 ^ 64 - 1

def reseedRng : Nat := 2500000

/-- The words from here on are thrown away. -/
def acceptBound (limit : Nat) : Nat := uint64Max - uint64Max % limit

section
variable {σ : Type}

/-- The loop of `rand_below`: the first word below the bound. -/
def RandSource.unbiasedRnd (src : RandSource σ) (limit : Nat) : Nat → σ → Option (Nat × σ)
  | 0, _ => none
  | fuel + 1, seed =>
    let (word, seed) := src.randNext seed
    if acceptBound limit ≤ word then src.unbiasedRnd limit fuel seed else some (word, seed)

/-- Counts a draw, and reads a new seed when the count runs out. -/
def RandSource.countDraw (src : RandSource σ) (afl : RandState σ) : RandState σ :=
  let counted := { afl with randCnt := (afl.randCnt + 2 ^ 32 - 1) % 2 ^ 32 }
  if afl.randCnt = 0 ∧ afl.fixedSeed = false then
    let seed := src.ckRead afl.randSeed
    { counted with
      randSeed := seed
      randCnt := reseedRng / 2 + src.randSeed1 seed % reseedRng }
  else counted

/-- `rand_below` with as many words as there is fuel. -/
def RandSource.randBelow (src : RandSource σ) (fuel limit : Nat) (afl : RandState σ) :
    Option (Nat × RandState σ) :=
  if limit ≤ 1 then some (0, afl)
  else
    let afl := src.countDraw afl
    (src.unbiasedRnd limit fuel afl.randSeed).map fun (word, seed) =>
      (word % limit, { afl with randSeed := seed })

end

/-- The seed of the generator, `rand_seed`. -/
structure RandSeed where
  s0 : Nat
  s1 : Nat
  s2 : Nat
deriving Repr, DecidableEq

/-- `ROTL` by 27 of a word of 64 bits. -/
def rotl27 (d : Nat) : Nat := (d <<< 27) % 2 ^ 64 ||| d >>> 37

/-- `rand_next` of a 64-bit host. -/
def romuNext (seed : RandSeed) : Nat × RandSeed :=
  (seed.s0, { seed with
    s0 := 15241094284759029579 * seed.s1 % 2 ^ 64
    s1 := rotl27 ((seed.s1 + 2 ^ 64 - seed.s0) % 2 ^ 64) })

/-- The generator of the fuzzer, over what `/dev/urandom` still gives. -/
def romu : RandSource (RandSeed × List RandSeed) where
  randNext := fun (seed, urandom) => ((romuNext seed).1, (romuNext seed).2, urandom)
  ckRead := fun (seed, urandom) => (urandom.headD seed, urandom.tail)
  randSeed1 := fun (seed, _) => seed.s1

/-! ## `fisher_yates_shuffle` -/

section
variable {α σ : Type}

/-- Exchanges two cells, or fails outside the array. -/
def swapCells (arr : List α) (i j : Nat) : Option (List α) := do
  let temp ← arr[i]?
  let other ← arr[j]?
  return (arr.set i other).set j temp

/-- The loop down from an index; the limit of a draw is computed as a `u32`. -/
def fisherYatesLoop (randBelow : Nat → σ → Option (Nat × σ)) :
    Nat → List α → σ → Option (List α × σ)
  | 0, arr, afl => some (arr, afl)
  | i + 1, arr, afl => do
    let (j, afl) ← randBelow ((i + 2) % 2 ^ 32) afl
    let arr ← swapCells arr (i + 1) j
    fisherYatesLoop randBelow i arr afl

def fisherYatesShuffle (randBelow : Nat → σ → Option (Nat × σ)) (arr : List α) (afl : σ) :
    Option (List α × σ) :=
  if arr.length ≤ 1 then some (arr, afl)
  else fisherYatesLoop randBelow ((arr.length - 1) % 2 ^ 32) arr afl

end

/-! ## Every array is permuted -/

/-- What a draw below a limit may return. -/
def WithinLimits {σ : Type} (randBelow : Nat → σ → Option (Nat × σ)) : Prop :=
  ∀ limit afl j afl', randBelow limit afl = some (j, afl') → j < limit ∨ j = 0

section
variable {α σ : Type} {randBelow : Nat → σ → Option (Nat × σ)} {arr arr' : List α} {i j : Nat}

theorem swapCells_inside (left : i < arr.length) (right : j < arr.length) :
    swapCells arr i j = some ((arr.set i arr[j]).set j arr[i]) := by
  simp [swapCells, left, right]

theorem swapCells_spec (swapped : swapCells arr i j = some arr') :
    ∃ (left : i < arr.length) (right : j < arr.length),
      arr' = (arr.set i arr[j]).set j arr[i] := by
  simp only [swapCells, Option.bind_eq_bind, Option.pure_def, Option.bind_eq_some_iff,
    Option.some.injEq] at swapped
  obtain ⟨temp, atI, other, atJ, rfl⟩ := swapped
  obtain ⟨left, rfl⟩ := List.getElem?_eq_some_iff.mp atI
  obtain ⟨right, rfl⟩ := List.getElem?_eq_some_iff.mp atJ
  exact ⟨left, right, rfl⟩

theorem swapCells_perm (swapped : swapCells arr i j = some arr') : arr'.Perm arr := by
  obtain ⟨left, right, rfl⟩ := swapCells_spec swapped
  exact List.set_set_perm left right

/-- A step of the loop is one draw and one exchange. -/
theorem fisherYatesLoop_succ {afl afl' : σ} :
    fisherYatesLoop randBelow (i + 1) arr afl = some (arr', afl') ↔
      ∃ j afl₁ arr₁, randBelow ((i + 2) % 2 ^ 32) afl = some (j, afl₁) ∧
        swapCells arr (i + 1) j = some arr₁ ∧
        fisherYatesLoop randBelow i arr₁ afl₁ = some (arr', afl') := by
  simp only [fisherYatesLoop, Option.bind_eq_bind, Option.bind_eq_some_iff, Prod.exists]
  constructor
  · rintro ⟨j, afl₁, drawn, arr₁, swapped, rest⟩
    exact ⟨j, afl₁, arr₁, drawn, swapped, rest⟩
  · rintro ⟨j, afl₁, arr₁, drawn, swapped, rest⟩
    exact ⟨j, afl₁, drawn, arr₁, swapped, rest⟩

theorem fisherYatesLoop_perm {afl afl' : σ}
    (shuffled : fisherYatesLoop randBelow i arr afl = some (arr', afl')) : arr'.Perm arr := by
  induction i generalizing arr afl with
  | zero =>
    cases shuffled
    exact .refl _
  | succ i ih =>
    obtain ⟨j, afl₁, arr₁, _, swapped, rest⟩ := fisherYatesLoop_succ.mp shuffled
    exact (ih rest).trans (swapCells_perm swapped)

/-- Draws within the limits keep the loop inside the array. -/
theorem fisherYatesLoop_returns (within : WithinLimits randBelow)
    (total : ∀ limit afl, (randBelow limit afl).isSome = true) (inside : i < arr.length)
    (afl : σ) : (fisherYatesLoop randBelow i arr afl).isSome = true := by
  induction i generalizing arr afl with
  | zero => rfl
  | succ i ih =>
    obtain ⟨⟨j, afl₁⟩, drawn⟩ := Option.isSome_iff_exists.mp (total ((i + 2) % 2 ^ 32) afl)
    have below : j < arr.length := by
      have small := Nat.mod_le (i + 2) (2 ^ 32)
      have := within _ _ _ _ drawn
      omega
    have swapped := swapCells_inside inside below
    obtain ⟨⟨arr', afl'⟩, rest⟩ := Option.isSome_iff_exists.mp
      (@ih ((arr.set (i + 1) arr[j]).set j arr[i + 1]) (by simp; omega) afl₁)
    exact Option.isSome_iff_exists.mpr
      ⟨_, fisherYatesLoop_succ.mpr ⟨j, afl₁, _, drawn, swapped, rest⟩⟩

end

/-! ## Every permutation has one vector of choices -/

/-- The limits of the loop down from an index. -/
def shuffleLimits : Nat → List Nat
  | 0 => []
  | i + 1 => (i + 2) :: shuffleLimits i

/-- The draws read off a vector of choices. -/
def chosen : Nat → List Nat → Option (Nat × List Nat)
  | _, [] => none
  | _, j :: rest => some (j, rest)

/-- A limit of the loop is at least two and at most the number of elements. -/
theorem shuffleLimits_bounds {i limit : Nat} (among : limit ∈ shuffleLimits i) :
    2 ≤ limit ∧ limit ≤ i + 1 := by
  induction i with
  | zero => cases among
  | succ i ih =>
    rcases List.mem_cons.mp among with rfl | among
    · omega
    · have := ih among
      omega

theorem prod_shuffleLimits (i : Nat) : (shuffleLimits i).prod = (i + 1).factorial := by
  induction i with
  | zero => rfl
  | succ i ih => rw [shuffleLimits, List.prod_cons, ih, Nat.factorial_succ (i + 1)]

section
variable {α : Type} {arr arr' p : List α} {i j : Nat}

theorem fisherYatesLoop_chosen {rest v : List Nat} :
    fisherYatesLoop chosen (i + 1) arr (j :: v) = some (arr', rest) ↔
      ∃ arr₁, swapCells arr (i + 1) j = some arr₁ ∧
        fisherYatesLoop chosen i arr₁ v = some (arr', rest) := by
  rw [fisherYatesLoop_succ]
  simp only [chosen, Option.some.injEq, Prod.mk.injEq]
  constructor
  · rintro ⟨_, _, arr₁, ⟨rfl, rfl⟩, swapped, rest⟩
    exact ⟨arr₁, swapped, rest⟩
  · rintro ⟨arr₁, swapped, rest⟩
    exact ⟨_, _, arr₁, ⟨rfl, rfl⟩, swapped, rest⟩

/-- An exchange with an earlier cell settles the later one. -/
theorem swapCells_drop (swapped : swapCells arr i j = some arr') (below : j ≤ i) :
    ∃ other, arr[j]? = some other ∧ arr'.drop i = other :: arr.drop (i + 1) := by
  obtain ⟨left, right, rfl⟩ := swapCells_spec swapped
  refine ⟨arr[j], by simp [right], ?_⟩
  have inside : i < ((arr.set i arr[j]).set j arr[i]).length := by simpa using left
  have top : ((arr.set i arr[j]).set j arr[i])[i] = arr[j] := by
    rw [List.getElem_set]
    split
    · subst j
      rfl
    · simp
  rw [List.drop_eq_getElem_cons inside, top]
  congr 1
  rw [List.drop_set_of_lt (by omega), List.drop_set_of_lt (by omega)]

/-- What lies above the index is settled. -/
theorem fisherYatesLoop_drop {rest v : List Nat} (choices : List.Forall₂ (· < ·) v (shuffleLimits i))
    (shuffled : fisherYatesLoop chosen i arr v = some (arr', rest)) :
    arr'.drop (i + 1) = arr.drop (i + 1) := by
  induction i generalizing arr v with
  | zero =>
    cases shuffled
    rfl
  | succ i ih =>
    obtain ⟨j, v, below, others, rfl⟩ := List.forall₂_cons_right_iff.mp choices
    obtain ⟨arr₁, swapped, remaining⟩ := fisherYatesLoop_chosen.mp shuffled
    obtain ⟨other, _, settled⟩ := swapCells_drop swapped (Nat.le_of_lt_succ below)
    have later := congrArg (List.drop 1) ((ih others remaining).trans settled)
    simpa [List.drop_drop] using later

private theorem eq_of_perm_of_drop_one (perm : p.Perm arr) (settled : p.drop 1 = arr.drop 1) :
    p = arr := by
  cases p with
  | nil => exact (List.nil_perm.mp perm).symm
  | cons a rest =>
    cases arr with
    | nil => cases perm.length_eq
    | cons b rest' =>
      cases (show rest = rest' from settled)
      have first := (List.perm_append_right_iff rest).mp (show ([a] ++ rest).Perm ([b] ++ rest) from perm)
      rw [List.singleton_perm_singleton.mp first]

/-- From a target that agrees above the index, the choices that lead to it are determined. -/
theorem exists_unique_choices (distinct : arr.Nodup) (inside : i < arr.length) (perm : p.Perm arr)
    (settled : p.drop (i + 1) = arr.drop (i + 1)) :
    ∃ v, List.Forall₂ (· < ·) v (shuffleLimits i) ∧
      fisherYatesLoop chosen i arr v = some (p, []) ∧
      ∀ w rest, List.Forall₂ (· < ·) w (shuffleLimits i) →
        fisherYatesLoop chosen i arr w = some (p, rest) → w = v := by
  induction i generalizing arr with
  | zero =>
    refine ⟨[], .nil, ?_, ?_⟩
    · rw [eq_of_perm_of_drop_one perm settled, fisherYatesLoop]
    · intro w _ none_left _
      exact List.forall₂_nil_right_iff.mp none_left
  | succ i ih =>
    have inP : i + 1 < p.length := perm.length_eq ▸ inside
    obtain ⟨j, inJ, found⟩ := List.getElem_of_mem (perm.mem_iff.mp (List.getElem_mem inP))
    -- The wanted element is not among the settled ones, for it occurs once in the target.
    have below : j < i + 2 := by
      by_contra above
      have same : p[j]? = arr[j]? := by
        have at_ := congrArg (·[j - (i + 2)]?) settled
        simpa [List.getElem?_drop, show i + 1 + 1 + (j - (i + 2)) = j by omega] using at_
      rw [List.getElem?_eq_getElem inJ, found] at same
      obtain ⟨inPJ, twice⟩ := List.getElem?_eq_some_iff.mp same
      have := (perm.symm.nodup distinct).getElem_inj_iff.mp twice
      omega
    have swapped := swapCells_inside inside inJ
    set arr₁ := (arr.set (i + 1) arr[j]).set j arr[i + 1]
    have perm₁ : arr₁.Perm arr := swapCells_perm swapped
    have settled₁ : p.drop (i + 1) = arr₁.drop (i + 1) := by
      obtain ⟨other, at_, later⟩ := swapCells_drop swapped (Nat.le_of_lt_succ below)
      rw [List.getElem?_eq_getElem inJ, found] at at_
      cases at_
      rw [later, List.drop_eq_getElem_cons inP, settled]
    obtain ⟨v, choices, reached, only⟩ := ih (perm₁.symm.nodup distinct)
      (by rw [perm₁.length_eq]; omega) (perm.trans perm₁.symm) settled₁
    refine ⟨j :: v, .cons below choices, fisherYatesLoop_chosen.mpr ⟨arr₁, swapped, reached⟩, ?_⟩
    intro w rest choices' reached'
    obtain ⟨j', w, below', others, rfl⟩ := List.forall₂_cons_right_iff.mp choices'
    obtain ⟨arr₂, swapped', remaining⟩ := fisherYatesLoop_chosen.mp reached'
    have same : j' = j := by
      obtain ⟨other, at_, later⟩ := swapCells_drop swapped' (Nat.le_of_lt_succ below')
      rw [← fisherYatesLoop_drop others remaining, List.drop_eq_getElem_cons inP] at later
      obtain ⟨inJ', found'⟩ := List.getElem?_eq_some_iff.mp at_
      have heads := (List.cons.inj later).1
      rw [← found', ← found] at heads
      exact (distinct.getElem_inj_iff.mp heads).symm
    subst j'
    rw [swapped] at swapped'
    cases swapped'
    rw [only w rest others remaining]

end

/-! ## Every remainder is met equally often -/

section
variable {σ : Type} {src : RandSource σ} {fuel limit : Nat}

theorem unbiasedRnd_lt {seed seed' : σ} {word : Nat}
    (drawn : src.unbiasedRnd limit fuel seed = some (word, seed')) : word < acceptBound limit := by
  induction fuel generalizing seed with
  | zero => cases drawn
  | succ fuel ih =>
    simp only [RandSource.unbiasedRnd] at drawn
    split at drawn
    · exact ih drawn
    · cases drawn
      omega

/-- A result of `rand_below` is the remainder of an accepted word. -/
theorem randBelow_accepted {afl afl' : RandState σ} {j : Nat} (proper : 2 ≤ limit)
    (drawn : src.randBelow fuel limit afl = some (j, afl')) :
    ∃ word, word < acceptBound limit ∧ j = word % limit := by
  rw [RandSource.randBelow, if_neg (by omega)] at drawn
  obtain ⟨⟨word, seed⟩, taken, same⟩ := Option.map_eq_some_iff.mp drawn
  cases same
  exact ⟨word, unbiasedRnd_lt taken, rfl⟩

theorem randBelow_within : WithinLimits (src.randBelow fuel) := by
  intro limit afl j afl' drawn
  by_cases proper : 2 ≤ limit
  · obtain ⟨word, _, rfl⟩ := randBelow_accepted proper drawn
    exact .inl (Nat.mod_lt _ (by omega))
  · rw [RandSource.randBelow, if_pos (by omega)] at drawn
    cases drawn
    exact .inr rfl

end

theorem acceptBound_eq (limit : Nat) : acceptBound limit = limit * (uint64Max / limit) := by
  have := Nat.div_add_mod uint64Max limit
  rw [acceptBound]
  omega

theorem acceptBound_pos {limit : Nat} (proper : 0 < limit) (narrow : limit < 2 ^ 32) :
    0 < acceptBound limit := by
  have some_fit : 0 < uint64Max / limit := Nat.div_pos (by rw [uint64Max]; omega) proper
  rw [acceptBound_eq]
  exact Nat.mul_pos proper some_fit

theorem acceptBound_le (limit : Nat) : acceptBound limit ≤ uint64Max := Nat.sub_le _ _

/-- A whole number of periods has every remainder as often as it has periods. -/
theorem card_remainder {limit r periods top : Nat} (inside : r < limit)
    (fits : limit * periods ≤ top) :
    ((Finset.range top).filter fun w => w < limit * periods ∧ w % limit = r).card = periods := by
  have among : (Finset.range top).filter (fun w => w < limit * periods ∧ w % limit = r) =
      (Finset.range (limit * periods)).filter (· ≡ r [MOD limit]) := by
    ext w
    simp only [Finset.mem_filter, Finset.mem_range, Nat.ModEq, Nat.mod_eq_of_lt inside]
    constructor
    · exact fun ⟨_, accepted⟩ => accepted
    · exact fun ⟨accepted, same⟩ => ⟨by omega, accepted, same⟩
  have positive : 0 < limit := by omega
  rw [among, ← Nat.count_eq_card_filter_range, Nat.count_modEq_card _ positive,
    Nat.mul_mod_right, Nat.mul_div_cancel_left _ positive]
  simp

/-! ## Words as a source -/

/-- A list of words; an exhausted list goes on with a word that is never accepted. -/
def wordSource : RandSource (List Nat) where
  randNext := fun words => (words.headD uint64Max, words.tail)
  ckRead := id
  randSeed1 := fun _ => 0

theorem countDraw_words (afl : RandState (List Nat)) :
    (wordSource.countDraw afl).randSeed = afl.randSeed ∧
      (wordSource.countDraw afl).fixedSeed = afl.fixedSeed := by
  unfold RandSource.countDraw
  split
  · exact ⟨rfl, rfl⟩
  · exact ⟨rfl, rfl⟩

/-- An accepted word is the only one that a draw takes. -/
theorem randBelow_words {limit word cnt : Nat} {words : List Nat} {fixed : Bool}
    (proper : 2 ≤ limit) :
    ∃ cnt', wordSource.randBelow 1 limit ⟨word :: words, cnt, fixed⟩ =
      if word < acceptBound limit then some (word % limit, ⟨words, cnt', fixed⟩) else none := by
  obtain ⟨seed, fix⟩ := countDraw_words ⟨word :: words, cnt, fixed⟩
  refine ⟨(wordSource.countDraw ⟨word :: words, cnt, fixed⟩).randCnt, ?_⟩
  rw [RandSource.randBelow, if_neg (by omega)]
  generalize wordSource.countDraw ⟨word :: words, cnt, fixed⟩ = counted at seed fix ⊢
  obtain ⟨_, cnt', _⟩ := counted
  cases seed
  cases fix
  by_cases accepted : word < acceptBound limit
  · simp [RandSource.unbiasedRnd, wordSource, accepted, Nat.not_le.mpr accepted]
  · simp [RandSource.unbiasedRnd, wordSource, accepted, Nat.not_lt.mp accepted]

section
variable {α : Type} {arr p : List α} {i : Nat}

/-- On accepted words the loop makes the choices that are their remainders. -/
theorem fisherYatesLoop_words {words : List Nat} {cnt : Nat} {fixed : Bool}
    (narrow : i + 1 < 2 ^ 32)
    (accepted : List.Forall₂ (· < ·) words ((shuffleLimits i).map acceptBound)) :
    (fisherYatesLoop (wordSource.randBelow 1) i arr ⟨words, cnt, fixed⟩).map Prod.fst =
      (fisherYatesLoop chosen i arr (List.zipWith (· % ·) words (shuffleLimits i))).map
        Prod.fst := by
  induction i generalizing arr words cnt with
  | zero => rfl
  | succ i ih =>
    obtain ⟨word, words, below, others, rfl⟩ := List.forall₂_cons_right_iff.mp accepted
    obtain ⟨cnt', drawn⟩ := @randBelow_words (i + 2) word cnt words fixed (by omega)
    rw [if_pos below] at drawn
    simp only [fisherYatesLoop, Nat.mod_eq_of_lt narrow, drawn, shuffleLimits, List.zipWith_cons_cons,
      chosen, Option.bind_eq_bind, Option.bind_some]
    cases swapCells arr (i + 1) (word % (i + 2)) with
    | none => rfl
    | some arr₁ => exact ih (by omega) others

end

/-! ## The shuffle as a whole -/

section
variable {α σ : Type} {randBelow : Nat → σ → Option (Nat × σ)} {arr : List α}

/-- Where the length is a `u32` or just above, the loop starts at the last index. -/
theorem fisherYatesShuffle_eq (fits : arr.length ≤ 2 ^ 32) (afl : σ) :
    fisherYatesShuffle randBelow arr afl = fisherYatesLoop randBelow (arr.length - 1) arr afl := by
  unfold fisherYatesShuffle
  split
  next short => rw [Nat.sub_eq_zero_of_le short, fisherYatesLoop]
  next => rw [Nat.mod_eq_of_lt (by omega)]

/-- The shuffle of the mutators, which draws from a stream, is the shuffle on that stream. -/
theorem fisherYatesShuffle_stream {arr : List Nat} (narrow : arr.length < 2 ^ 32) (r : Rand) :
    fisherYatesShuffle (fun limit r => some (Swam.randBelow limit r)) arr r =
      some (Swam.fisherYatesShuffle arr r) := by
  have loop (i : Nat) (arr : List Nat) (r : Rand) (inside : i < arr.length ∨ i = 0)
      (narrow : i + 1 < 2 ^ 32) :
      fisherYatesLoop (fun limit r => some (Swam.randBelow limit r)) i arr r =
        some (fisherYatesFrom i arr r) := by
    induction i generalizing arr r with
    | zero => rfl
    | succ i ih =>
      have below : (Swam.randBelow (i + 2) r).1 < i + 2 := randBelow_lt (by omega) r
      have swapped := @swapCells_inside _ arr (i + 1) (Swam.randBelow (i + 2) r).1
        (by omega) (by omega)
      simp only [fisherYatesLoop, fisherYatesFrom, Nat.mod_eq_of_lt narrow, swapped,
        Option.bind_eq_bind, Option.bind_some]
      have read {k : Nat} (inside : k < arr.length) : arr.getD k 0 = arr[k] := by
        simp [List.getD_eq_getElem?_getD, inside]
      rw [ih _ _ (by simp; omega) (by omega), read (by omega), read (by omega)]
  rw [fisherYatesShuffle_eq narrow.le, Swam.fisherYatesShuffle, loop _ _ _ (by omega) (by omega)]

theorem fisherYatesShuffle_perm {arr' : List α} {afl afl' : σ}
    (shuffled : fisherYatesShuffle randBelow arr afl = some (arr', afl')) : arr'.Perm arr := by
  unfold fisherYatesShuffle at shuffled
  split at shuffled
  · cases shuffled
    exact .refl _
  · exact fisherYatesLoop_perm shuffled

theorem fisherYatesShuffle_returns (within : WithinLimits randBelow)
    (total : ∀ limit afl, (randBelow limit afl).isSome = true) (afl : σ) :
    (fisherYatesShuffle randBelow arr afl).isSome = true := by
  unfold fisherYatesShuffle
  split
  · rfl
  · have := Nat.mod_le (arr.length - 1) (2 ^ 32)
    exact fisherYatesLoop_returns within total (by omega) afl

end

section
variable {arr p : List UInt32}

/-- There are only so many different elements. -/
theorem length_le_of_nodup (distinct : arr.Nodup) : arr.length ≤ 2 ^ 32 := by
  have each : (arr.map UInt32.toFin).Nodup := by
    apply distinct.map
    intro a b same
    exact UInt32.toFin_inj.mp same
  have := each.length_le_card
  simpa [UInt32.size] using this

theorem fisherYatesShuffle_choices (distinct : arr.Nodup) (perm : p.Perm arr) :
    ∃ v, List.Forall₂ (· < ·) v (shuffleLimits (arr.length - 1)) ∧
      (fisherYatesShuffle chosen arr v).map Prod.fst = some p ∧
      ∀ w, List.Forall₂ (· < ·) w (shuffleLimits (arr.length - 1)) →
        (fisherYatesShuffle chosen arr w).map Prod.fst = some p → w = v := by
  simp only [fisherYatesShuffle_eq (length_le_of_nodup distinct)]
  by_cases empty : arr = []
  · subst empty
    rw [List.perm_nil.mp perm]
    refine ⟨[], .nil, rfl, ?_⟩
    intro w none_left _
    exact List.forall₂_nil_right_iff.mp none_left
  · have inside : arr.length - 1 < arr.length := by
      have := List.length_pos_iff.mpr empty
      omega
    have settled : p.drop (arr.length - 1 + 1) = arr.drop (arr.length - 1 + 1) := by
      rw [List.drop_eq_nil_of_le (by rw [perm.length_eq]; omega), List.drop_eq_nil_of_le (by omega)]
    obtain ⟨v, choices, reached, only⟩ := exists_unique_choices distinct inside perm settled
    refine ⟨v, choices, by rw [reached]; rfl, ?_⟩
    intro w choices' reached'
    obtain ⟨⟨p', rest⟩, shuffled, same⟩ := Option.map_eq_some_iff.mp reached'
    cases same
    exact only w rest choices' shuffled

/-- With ideal words every permutation has the same chance. -/
theorem chance_fisherYatesShuffle {cnt : Nat} {fixed : Bool} (distinct : arr.Nodup)
    (narrow : arr.length < 2 ^ 32) (perm : p.Perm arr) :
    chance ((shuffleLimits (arr.length - 1)).map acceptBound) (fun words =>
        (fisherYatesShuffle (wordSource.randBelow 1) arr ⟨words, cnt, fixed⟩).map Prod.fst = some p) =
      1 / arr.length.factorial := by
  obtain ⟨v, choices, reached, only⟩ := fisherYatesShuffle_choices distinct perm
  have reduced : chance ((shuffleLimits (arr.length - 1)).map acceptBound) (fun words =>
        (fisherYatesShuffle (wordSource.randBelow 1) arr ⟨words, cnt, fixed⟩).map Prod.fst = some p) =
      chance ((shuffleLimits (arr.length - 1)).map acceptBound) (fun words =>
        (fisherYatesShuffle chosen arr
          (List.zipWith (· % ·) words (shuffleLimits (arr.length - 1)))).map Prod.fst = some p) := by
    apply chance_congr
    intro words accepted
    rw [fisherYatesShuffle_eq narrow.le, fisherYatesShuffle_eq narrow.le]
    by_cases empty : arr.length = 0
    · rw [empty]
      rfl
    · rw [fisherYatesLoop_words (by omega) accepted]
  have multiples : List.Forall₂ (fun limit bound => 0 < bound ∧ limit ∣ bound)
      (shuffleLimits (arr.length - 1)) ((shuffleLimits (arr.length - 1)).map acceptBound) := by
    rw [List.forall₂_map_right_iff, List.forall₂_same]
    intro limit among
    have bounds := shuffleLimits_bounds among
    exact ⟨acceptBound_pos (by omega) (by omega), acceptBound_eq limit ▸ Nat.dvd_mul_right _ _⟩
  rw [reduced, chance_mod (fun v => (fisherYatesShuffle chosen arr v).map Prod.fst = some p) multiples,
    chance_eq_inv choices (by simpa using reached) fun w choices' happens =>
      only w choices' (by simpa using happens), prod_shuffleLimits]
  congr 2
  by_cases empty : arr.length = 0
  · rw [empty]
    rfl
  · rw [Nat.sub_add_cancel (by omega)]

end

/-- The shuffle permutes every array; over the vectors of choices every permutation of different
elements is reached once; and the choices are equally likely, for `rand_below` spreads the words
that it accepts evenly over the results. On a stream it is the shuffle that the mutators use. -/
theorem fisherYatesShuffle_uniform :
    (∀ (σ : Type) (randBelow : Nat → σ → Option (Nat × σ)) (arr : List UInt32) (afl : σ),
      WithinLimits randBelow →
        (∀ arr' afl', fisherYatesShuffle randBelow arr afl = some (arr', afl') → arr'.Perm arr) ∧
        ((∀ limit afl, (randBelow limit afl).isSome = true) →
          (fisherYatesShuffle randBelow arr afl).isSome = true)) ∧
    (∀ arr p : List UInt32, arr.Nodup → p.Perm arr →
      ∃! v, List.Forall₂ (· < ·) v (shuffleLimits (arr.length - 1)) ∧
        (fisherYatesShuffle chosen arr v).map Prod.fst = some p) ∧
    (∀ limit, 2 ≤ limit → limit < 2 ^ 32 →
      (∀ (σ : Type) (src : RandSource σ) (fuel : Nat) (afl afl' : RandState σ) (j : Nat),
        src.randBelow fuel limit afl = some (j, afl') →
          ∃ word, word < acceptBound limit ∧ j = word % limit) ∧
      (∀ word cnt fixed,
        (wordSource.randBelow 1 limit ⟨[word], cnt, fixed⟩).map Prod.fst =
          if word < acceptBound limit then some (word % limit) else none) ∧
      0 < uint64Max / limit ∧
      ∀ r < limit, ((Finset.range (2 ^ 64)).filter fun w =>
        w < acceptBound limit ∧ w % limit = r).card = uint64Max / limit) ∧
    (∀ (arr p : List UInt32) (cnt : Nat) (fixed : Bool), arr.Nodup → arr.length < 2 ^ 32 →
      p.Perm arr →
        chance ((shuffleLimits (arr.length - 1)).map acceptBound) (fun words =>
            (fisherYatesShuffle (wordSource.randBelow 1) arr ⟨words, cnt, fixed⟩).map Prod.fst =
              some p) =
          1 / arr.length.factorial) ∧
    (∀ (arr : List Nat) (r : Rand), arr.length < 2 ^ 32 →
      fisherYatesShuffle (fun limit r => some (Swam.randBelow limit r)) arr r =
        some (Swam.fisherYatesShuffle arr r)) := by
  refine ⟨?_, ?_, ?_, ?_, fun _ r narrow => fisherYatesShuffle_stream narrow r⟩
  · intro σ randBelow arr afl within
    exact ⟨fun _ _ => fisherYatesShuffle_perm, fun total => fisherYatesShuffle_returns within total afl⟩
  · intro arr p distinct perm
    obtain ⟨v, choices, reached, only⟩ := fisherYatesShuffle_choices distinct perm
    exact ⟨v, ⟨choices, reached⟩, fun w ⟨choices', reached'⟩ => only w choices' reached'⟩
  · intro limit proper narrow
    refine ⟨fun σ src fuel afl afl' j => randBelow_accepted proper, ?_, ?_, ?_⟩
    · intro word cnt fixed
      obtain ⟨cnt', drawn⟩ := @randBelow_words limit word cnt [] fixed proper
      rw [drawn]
      split <;> rfl
    · exact Nat.div_pos (by rw [uint64Max]; omega) (by omega)
    · intro r inside
      have fits := acceptBound_le limit
      rw [acceptBound_eq] at fits ⊢
      exact card_remainder inside (fits.trans (Nat.sub_le _ _))
  · intro arr p cnt fixed distinct narrow perm
    exact chance_fisherYatesShuffle distinct narrow perm

theorem fisherYatesShuffle_uniform_pair :
    (∃ arr' afl', fisherYatesShuffle (romu.randBelow 1) [(7 : UInt32), 8] ⟨(⟨4, 5, 6⟩, []), 1, false⟩ =
        some (arr', afl') ∧ arr'.Perm [7, 8]) ∧
      (∃! v, List.Forall₂ (· < ·) v (shuffleLimits 1) ∧
        (fisherYatesShuffle chosen [(7 : UInt32), 8] v).map Prod.fst = some [8, 7]) ∧
      ((Finset.range (2 ^ 64)).filter fun w => w < acceptBound 6 ∧ w % 6 = 5).card =
        uint64Max / 6 ∧
      chance ((shuffleLimits 1).map acceptBound) (fun words =>
        (fisherYatesShuffle (wordSource.randBelow 1) [(7 : UInt32), 8] ⟨words, 1, false⟩).map
          Prod.fst = some [8, 7]) = 1 / (2 : Nat).factorial := by
  obtain ⟨permutes, reached, spread, likely, _⟩ := fisherYatesShuffle_uniform
  refine ⟨⟨[8, 7], ⟨((romuNext ⟨4, 5, 6⟩).2, []), 0, false⟩, by decide, ?_⟩, ?_, ?_, ?_⟩
  · exact (permutes _ (romu.randBelow 1) [7, 8] ⟨(⟨4, 5, 6⟩, []), 1, false⟩ randBelow_within).1
      [8, 7] ⟨((romuNext ⟨4, 5, 6⟩).2, []), 0, false⟩ (by decide)
  · exact reached [7, 8] [8, 7] (by decide) (by decide)
  · exact (spread 6 (by decide) (by decide)).2.2.2 5 (by decide)
  · exact likely [7, 8] [8, 7] 1 false (by decide) (by decide) (by decide)

end Swam.Shuffle
