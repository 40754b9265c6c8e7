import Mathlib.Data.BitVec
import Swam.Afl.AliasTable

/-!
# The alias table realises the weights

The arrays are read as two stacks of pending indices. Sorting the indices and pairing them
up conserves the mass of every index, so the finished table chooses each with its weight.
-/
namespace Swam.Afl

open Swam.Lib

variable {K : Type}

/-! ## The arrays as stacks -/

namespace AliasArrays

variable (n : BitVec 32) (a : AliasArrays K)

/-- The position of the top of the second stack. -/
def base : Nat := (a.nLarge + 1).toNat

/-- The top of each stack comes first. -/
def pairing : Pairing Nat K where
  mass := a.P
  small := (List.range a.nSmall.toNat).reverse.map a.small
  large := (List.range' a.base (n.toNat - a.base)).map a.large
  prob := a.aliasProbability
  table := a.aliasTable

variable {n a}

theorem pairing_pushSmall (j : Nat) (room : a.nSmall.toNat + 1 < 2 ^ 32) :
    (a.pushSmall j).pairing n = { a.pairing n with small := j :: (a.pairing n).small } := by
  have next : (a.nSmall + 1).toNat = a.nSmall.toNat + 1 := by
    rw [BitVec.toNat_add]
    exact Nat.mod_eq_of_lt room
  have below : (List.range a.nSmall.toNat).reverse.map (Function.update a.small a.nSmall.toNat j) =
      (List.range a.nSmall.toNat).reverse.map a.small := by
    refine List.map_congr_left fun i member => Function.update_of_ne ?_ j a.small
    rw [List.mem_reverse, List.mem_range] at member
    omega
  simp only [pairing, pushSmall, base, next, List.range_succ, List.reverse_append,
    List.reverse_singleton, List.singleton_append, List.map_cons, Function.update_self, below]

theorem base_pushLarge (j : Nat) (room : 0 < a.base) : (a.pushLarge j).base + 1 = a.base := by
  have wrap : a.nLarge - 1 + 1 = a.nLarge := by bv_omega
  simp only [base, pushLarge, wrap] at room ⊢
  bv_omega

theorem pairing_pushLarge (j : Nat) (room : 0 < a.base) (within : a.base ≤ n.toNat) :
    (a.pushLarge j).pairing n = { a.pairing n with large := j :: (a.pairing n).large } := by
  have lower := base_pushLarge j room
  have top : a.nLarge.toNat = (a.pushLarge j).base := by
    have wrap : a.nLarge - 1 + 1 = a.nLarge := by bv_omega
    simp only [base, pushLarge, wrap]
  have above : (List.range' a.base (n.toNat - a.base)).map
      (Function.update a.large a.nLarge.toNat j) =
        (List.range' a.base (n.toNat - a.base)).map a.large := by
    refine List.map_congr_left fun i member => Function.update_of_ne ?_ j a.large
    have := (List.mem_range'_1.mp member).1
    omega
  have split : List.range' (a.pushLarge j).base (n.toNat - (a.pushLarge j).base) =
      a.nLarge.toNat :: List.range' a.base (n.toNat - a.base) := by
    have long : n.toNat - (a.pushLarge j).base = n.toNat - a.base + 1 := by omega
    rw [long, List.range'_succ, lower, top]
  rw [pairing, split]
  simp only [pairing, pushLarge, List.map_cons, Function.update_self, above]

theorem pairing_popSmall (some : a.nSmall ≠ 0) :
    (a.pairing n).small =
      a.small (a.nSmall - 1).toNat :: ({ a with nSmall := a.nSmall - 1 }.pairing n).small := by
  have one : a.nSmall.toNat = (a.nSmall - 1).toNat + 1 := by bv_omega
  simp only [pairing, one, List.range_succ, List.reverse_append, List.reverse_singleton,
    List.singleton_append, List.map_cons]

theorem base_popLarge (within : a.base ≤ n.toNat) (some : a.nLarge ≠ n - 1) :
    a.base < n.toNat ∧ { a with nLarge := a.nLarge + 1 }.base = a.base + 1 := by
  simp only [base] at within ⊢
  constructor <;> bv_omega

theorem pairing_popLarge (within : a.base ≤ n.toNat) (some : a.nLarge ≠ n - 1) :
    (a.pairing n).large =
      a.large (a.nLarge + 1).toNat :: ({ a with nLarge := a.nLarge + 1 }.pairing n).large := by
  obtain ⟨below, next⟩ := base_popLarge within some
  have long : n.toNat - a.base = n.toNat - (a.base + 1) + 1 := by omega
  simp only [pairing, next]
  rw [long, List.range'_succ, List.map_cons]
  rfl

theorem pairing_small_nil : (a.pairing n).small = [] ↔ a.nSmall = 0 := by
  simp only [pairing, List.map_eq_nil_iff, List.reverse_eq_nil_iff, List.range_eq_nil]
  constructor <;> intro h
  · bv_omega
  · rw [h]
    rfl

theorem pairing_large_nil (within : a.base ≤ n.toNat) :
    (a.pairing n).large = [] ↔ a.nLarge = n - 1 := by
  simp only [pairing, List.map_eq_nil_iff, List.range'_eq_nil_iff]
  simp only [base] at within ⊢
  constructor <;> intro h <;> bv_omega

variable [Field K] [LinearOrder K]

/-- A round on the arrays is a round on the stacks. -/
theorem pairing_pairUp (within : a.base ≤ n.toNat) (small : a.nSmall ≠ 0)
    (large : a.nLarge ≠ n - 1) :
    a.pairUp.pairing n = (a.pairing n).pair ∧ a.pairUp.base ≤ n.toNat := by
  obtain ⟨below, next⟩ := base_popLarge within large
  have settled : a.settleTop.base = a.base + 1 := next
  have room : a.settleTop.nSmall.toNat + 1 < 2 ^ 32 := by
    have one : a.settleTop.nSmall.toNat + 1 = a.nSmall.toNat := by
      simp only [settleTop]
      bv_omega
    rw [one]
    exact a.nSmall.isLt
  rw [Pairing.pair, pairing_popSmall small, pairing_popLarge within large, pairUp, push]
  split
  next low =>
    rw [pairing_pushSmall _ room]
    refine ⟨(if_pos low).symm, ?_⟩
    change a.settleTop.base ≤ n.toNat
    omega
  next high =>
    have up : 0 < a.settleTop.base := by omega
    rw [pairing_pushLarge _ up (by omega)]
    refine ⟨(if_neg high).symm, ?_⟩
    have down := base_pushLarge (a.large (a.nLarge + 1).toNat) up
    omega

/-! ## Sorting the indices -/

/-- The indices of `js` are on the stacks, each where its mass says, and no entry of the
table has been written. -/
structure Sorted (P : Nat → K) (n : BitVec 32) (a : AliasArrays K) (js : List Nat) : Prop where
  mass : a.P = P
  perm : ((a.pairing n).small ++ (a.pairing n).large).Perm js
  small_mass : ∀ j ∈ (a.pairing n).small, P j < 1
  large_mass : ∀ j ∈ (a.pairing n).large, 1 ≤ P j
  within : a.base ≤ n.toNat
  prob : a.aliasProbability = fun _ => 0
  table : a.aliasTable = fun _ => 0

theorem Sorted.initial (P : Nat → K) (n : BitVec 32) : Sorted P n (.initial P n) [] := by
  have bottom : (AliasArrays.initial P n).base = n.toNat := by
    simp only [base, AliasArrays.initial]
    bv_omega
  have empty : (AliasArrays.initial P n).pairing n = ⟨P, [], [], fun _ => 0, fun _ => 0⟩ := by
    simp only [pairing, bottom, Nat.sub_self]
    rfl
  exact ⟨rfl, by simp [empty], by simp [empty], by simp [empty], bottom.le, rfl, rfl⟩

/-- There is room for another index while fewer than `n` are on the stacks. -/
theorem Sorted.push {P : Nat → K} {js : List Nat} (sorted : Sorted P n a js)
    (room : js.length < n.toNat) (j : Nat) : Sorted P n (a.push j) (j :: js) := by
  obtain ⟨mass, perm, small_mass, large_mass, within, prob, table⟩ := sorted
  have length : a.nSmall.toNat + (n.toNat - a.base) = js.length := by
    rw [← perm.length_eq]
    simp [pairing]
  have small : n.toNat < 2 ^ 32 := n.isLt
  unfold AliasArrays.push
  rw [mass]
  split
  next low =>
    have pushed := pairing_pushSmall (n := n) (a := a) j (by omega)
    refine ⟨mass, ?_, ?_, ?_, within, prob, table⟩
    · rw [pushed]
      exact perm.cons j
    · rw [pushed, List.forall_mem_cons]
      exact ⟨low, small_mass⟩
    · rw [pushed]
      exact large_mass
  next high =>
    have up : 0 < a.base := by omega
    have pushed := pairing_pushLarge (n := n) j up within
    have down := base_pushLarge j up
    refine ⟨mass, ?_, ?_, ?_, by omega, prob, table⟩
    · rw [pushed]
      exact List.perm_middle.trans (perm.cons j)
    · rw [pushed]
      exact small_mass
    · rw [pushed, List.forall_mem_cons]
      exact ⟨not_lt.mp high, large_mass⟩

theorem Sorted.foldl {P : Nat → K} : ∀ (left js : List Nat) (a : AliasArrays K), Sorted P n a js →
    left.length + js.length ≤ n.toNat → Sorted P n (left.foldl AliasArrays.push a) (left.reverse ++ js)
  | [], js, a, sorted, _ => sorted
  | j :: left, js, a, sorted, room => by
    rw [List.length_cons] at room
    have next := Sorted.foldl left (j :: js) _ (sorted.push (by omega) j) (by simp; omega)
    rw [List.reverse_cons, List.append_assoc]
    exact next

/-! ## The three loops -/

variable [IsStrictOrderedRing K]

omit [IsStrictOrderedRing K] in
/-- Each round settles one index, so pairing up ends with an empty stack. -/
theorem pairUp_loop {inv : Pairing Nat K → Prop}
    (round : ∀ {s : Pairing Nat K} {i j : Nat} {small large : List Nat}, inv s →
      s.small = i :: small → s.large = j :: large → inv s.pair)
    (holds : inv (a.pairing n)) (within : a.base ≤ n.toNat) {fuel : Nat}
    (enough : (a.pairing n).small.length + (a.pairing n).large.length ≤ fuel) :
    ∃ b, whileLoop (fun a => a.nSmall ≠ 0 ∧ a.nLarge ≠ n - 1) pairUp fuel a = some b ∧
      inv (b.pairing n) ∧ b.base ≤ n.toNat ∧
      (b.pairing n).small.length + (b.pairing n).large.length ≤ fuel ∧
      ((b.pairing n).small = [] ∨ (b.pairing n).large = []) := by
  obtain ⟨b, run, ⟨holds', within', few⟩, stopped⟩ := @whileLoop_ends _
    (fun a : AliasArrays K => a.nSmall ≠ 0 ∧ a.nLarge ≠ n - 1) pairUp
    (fun a => inv (a.pairing n) ∧ a.base ≤ n.toNat ∧
      (a.pairing n).small.length + (a.pairing n).large.length ≤ fuel)
    (fun a => (a.pairing n).small.length + (a.pairing n).large.length)
    (fun a holds runs => by
      obtain ⟨holds, within, few⟩ := holds
      obtain ⟨small, large⟩ := of_decide_eq_true runs
      obtain ⟨paired, within'⟩ := pairing_pairUp within small large
      have smalls := pairing_popSmall (n := n) small
      have larges := pairing_popLarge within large
      have fewer := Pairing.length_pair smalls larges
      have next := round holds smalls larges
      rw [← paired] at next fewer
      exact ⟨⟨next, within', by omega⟩, by omega⟩)
    fuel a ⟨holds, within, enough⟩ enough
  refine ⟨b, run, holds', within', few, ?_⟩
  rw [pairing_small_nil, pairing_large_nil within']
  have := of_decide_eq_false stopped
  tauto

omit [LinearOrder K] [IsStrictOrderedRing K] in
/-- Draining a stack writes the entries that its indices keep. -/
theorem drainSmall_loop {fuel : Nat} (enough : (a.pairing n).small.length ≤ fuel) :
    ∃ b, whileLoop (fun a => a.nSmall ≠ 0) drainSmall fuel a = some b ∧
      (b.pairing n).finish = (a.pairing n).finish ∧ b.aliasTable = a.aliasTable ∧
      b.nLarge = a.nLarge ∧ b.large = a.large ∧ b.nSmall = 0 := by
  obtain ⟨b, run, ⟨finish, table, nLarge, large⟩, stopped⟩ := @whileLoop_ends _
    (fun a : AliasArrays K => a.nSmall ≠ 0) drainSmall
    (fun b => (b.pairing n).finish = (a.pairing n).finish ∧ b.aliasTable = a.aliasTable ∧
      b.nLarge = a.nLarge ∧ b.large = a.large)
    (fun b => (b.pairing n).small.length)
    (fun b holds runs => by
      obtain ⟨finish, rest⟩ := holds
      have top := pairing_popSmall (n := n) (show b.nSmall ≠ 0 by simpa using runs)
      refine ⟨⟨Eq.trans (Pairing.finish_keep (fun i => ?_) rfl) finish, rest⟩, ?_⟩
      · rw [top, List.cons_append, List.mem_cons]
        rfl
      · rw [top]
        exact Nat.lt_succ_self _)
    fuel a ⟨rfl, rfl, rfl, rfl⟩ enough
  exact ⟨b, run, finish, table, nLarge, large, by simpa using stopped⟩

omit [LinearOrder K] [IsStrictOrderedRing K] in
theorem drainLarge_loop (within : a.base ≤ n.toNat) {fuel : Nat}
    (enough : (a.pairing n).large.length ≤ fuel) :
    ∃ b, whileLoop (fun a => a.nLarge ≠ n - 1) drainLarge fuel a = some b ∧
      (b.pairing n).finish = (a.pairing n).finish ∧ b.aliasTable = a.aliasTable ∧
      b.nSmall = a.nSmall ∧ b.nLarge = n - 1 := by
  obtain ⟨b, run, ⟨_, finish, table, nSmall⟩, stopped⟩ := @whileLoop_ends _
    (fun a : AliasArrays K => a.nLarge ≠ n - 1) drainLarge
    (fun b => b.base ≤ n.toNat ∧ (b.pairing n).finish = (a.pairing n).finish ∧
      b.aliasTable = a.aliasTable ∧ b.nSmall = a.nSmall)
    (fun b => (b.pairing n).large.length)
    (fun b holds runs => by
      obtain ⟨within, finish, rest⟩ := holds
      have some : b.nLarge ≠ n - 1 := by simpa using runs
      have top := pairing_popLarge within some
      obtain ⟨below, next⟩ := base_popLarge within some
      refine ⟨⟨?_, Eq.trans (Pairing.finish_keep (fun i => ?_) rfl) finish, rest⟩, ?_⟩
      · exact next.trans_le below
      · rw [top, List.perm_middle.mem_iff, List.mem_cons]
        rfl
      · rw [top]
        exact Nat.lt_succ_self _)
    fuel a ⟨within, rfl, rfl, rfl⟩ enough
  exact ⟨b, run, finish, table, nSmall, by simpa using stopped⟩

end AliasArrays

/-! ## The weights -/

namespace WeightEnv

variable [Field K] [LinearOrder K] (env : WeightEnv K)

/-- The weight of an entry, or its score from `RARE` on; disabled entries have none. -/
def effectiveWeight (i : Nat) : K := if (env.queueBuf i).disabled then 0 else env.weight i

variable [IsStrictOrderedRing K]

/-- Whatever the logarithms are, a weight is at least 0.08. -/
theorem computeWeight_pos (q : WeighedEntry) (avgExecUs avgBitmapSize avgTopSize : K) :
    0 < env.computeWeight q avgExecUs avgBitmapSize avgTopSize := by
  unfold computeWeight
  dsimp only
  generalize (if 0 < avgTopSize then _ else _ : K) = clamped
  have floor : (0 : K) < if clamped < 1 / 10 then 1 / 10 else clamped := by
    split
    · positivity
    next above => exact (by positivity : (0 : K) < 1 / 10).trans_le (not_lt.mp above)
  split <;> split <;> split <;> positivity

variable {env}

theorem weight_nonneg (i : Nat) : 0 ≤ env.effectiveWeight i := by
  have averaged : (0 : K) < env.averagedWeight i := env.computeWeight_pos _ _ _ _
  unfold effectiveWeight weight
  split
  · exact le_rfl
  · split
    · split <;> positivity
    · positivity

/-- No active entry counts twice. -/
def Undoubled (env : WeightEnv K) : Prop :=
  ∀ i < env.count, (env.queueBuf i).disabled = false → env.doubled i = false

omit [Field K] [LinearOrder K] [IsStrictOrderedRing K] in
theorem undoubled_of_schedule (schedule : env.schedule ≠ .mmopt) : env.Undoubled :=
  fun i _ _ => by simp [doubled, schedule]

omit [IsStrictOrderedRing K] in
theorem sum_eq (undoubled : env.Undoubled) :
    env.sum = ∑ i ∈ Finset.range env.count, env.effectiveWeight i := by
  rw [WeightEnv.sum, activeSum]
  refine Finset.sum_congr rfl fun i member => ?_
  cases disabled : (env.queueBuf i).disabled with
  | true => simp [effectiveWeight, disabled]
  | false =>
    have single := undoubled i (Finset.mem_range.mp member) disabled
    simp [effectiveWeight, weight, disabled, single]

theorem sum_pos (undoubled : env.Undoubled)
    (positive : ∃ i < env.count, 0 < env.effectiveWeight i) : 0 < env.sum := by
  obtain ⟨i, below, weight⟩ := positive
  rw [sum_eq undoubled]
  exact Finset.sum_pos' (fun j _ => weight_nonneg j) ⟨i, Finset.mem_range.mpr below, weight⟩

omit [IsStrictOrderedRing K] in
theorem share_eq (i : Nat) : env.share i = env.effectiveWeight i * env.count / env.sum := by
  unfold share effectiveWeight
  split <;> simp

theorem share_nonneg (sum : 0 < env.sum) (i : Nat) : 0 ≤ env.share i := by
  have nonneg : 0 ≤ env.effectiveWeight i := weight_nonneg i
  rw [share_eq]
  positivity

omit [IsStrictOrderedRing K] in
theorem sum_share (undoubled : env.Undoubled) (sum : env.sum ≠ 0) :
    ∑ i ∈ Finset.range env.count, env.share i = env.count := by
  simp only [share_eq]
  rw [← Finset.sum_div, ← Finset.sum_mul, ← sum_eq undoubled]
  field_simp

end WeightEnv

/-! ## The finished table -/

section Table

variable [Field K] [LinearOrder K] {env : WeightEnv K}

theorem downwards_of_le {n : BitVec 32} (small : n.toNat ≤ 2 ^ 31) :
    downwards n = (List.range n.toNat).reverse := by
  have signed : ((n - 1).toInt + 1).toNat = n.toNat := by
    rw [BitVec.toInt_eq_toNat_cond]
    by_cases zero : n = 0
    · subst zero
      rfl
    · have one : (n - 1).toNat + 1 = n.toNat := by bv_omega
      rw [if_pos (by omega)]
      omega
  rw [downwards, signed]

/-- From `2 ^ 31 + 1` entries on the counter starts below zero. -/
theorem downwards_of_gt {n : BitVec 32} (large : 2 ^ 31 < n.toNat) : downwards n = [] := by
  have one : (n - 1).toNat + 1 = n.toNat := by bv_omega
  have signed : ((n - 1).toInt + 1).toNat = 0 := by
    have := (n - 1).isLt
    rw [BitVec.toInt_eq_toNat_cond, if_neg (by omega)]
    omega
  rw [downwards, signed]
  rfl

/-- Then no index is sorted and the table stays as it was cleared. -/
theorem createAliasTable_of_gt (large : 2 ^ 31 < env.count) (fuel : Nat) :
    createAliasTable env fuel = some (.initial env.share env.queuedItems) := by
  unfold createAliasTable
  dsimp only
  rw [downwards_of_gt large, List.foldl_nil, whileLoop_stopped (by simp [AliasArrays.initial]),
    Option.bind_some, whileLoop_stopped (by simp [AliasArrays.initial]), Option.bind_some,
    whileLoop_stopped (by simp [AliasArrays.initial])]

theorem createAliasTable_mono {fuel fuel' : Nat} {t : AliasArrays K}
    (run : createAliasTable env fuel = some t) (more : fuel ≤ fuel') :
    createAliasTable env fuel' = some t := by
  unfold createAliasTable at run ⊢
  obtain ⟨paired, first, run⟩ := Option.bind_eq_some_iff.mp run
  obtain ⟨once, second, third⟩ := Option.bind_eq_some_iff.mp run
  dsimp only
  rw [whileLoop_mono first more, Option.bind_some, whileLoop_mono second more, Option.bind_some,
    whileLoop_mono third more]

variable [IsStrictOrderedRing K]

omit [IsStrictOrderedRing K] in
/-- Up to `2 ^ 31` entries, all indices are sorted by the masses of their shares. -/
theorem sorted_all (small : env.count ≤ 2 ^ 31) :
    AliasArrays.Sorted env.share env.queuedItems
      ((downwards env.queuedItems).foldl AliasArrays.push (.initial env.share env.queuedItems))
      (List.range env.count) := by
  have sorted := AliasArrays.Sorted.foldl (downwards env.queuedItems) [] _
    (AliasArrays.Sorted.initial env.share env.queuedItems) (by simp [downwards_of_le small])
  have all : (downwards env.queuedItems).reverse ++ [] = List.range env.count := by
    rw [List.append_nil, downwards_of_le small, List.reverse_reverse]
    rfl
  rwa [all] at sorted

omit [IsStrictOrderedRing K] in
/-- The loops end, and the table is what pairing up leaves. -/
theorem createAliasTable_runs (small : env.count ≤ 2 ^ 31) {inv : Pairing Nat K → Prop}
    (round : ∀ {s : Pairing Nat K} {i j : Nat} {small large : List Nat}, inv s →
      s.small = i :: small → s.large = j :: large → inv s.pair)
    (start : ∀ a, AliasArrays.Sorted env.share env.queuedItems a (List.range env.count) →
      inv (a.pairing env.queuedItems)) :
    ∃ (t : AliasArrays K) (paired : Pairing Nat K),
      (∀ fuel, env.count ≤ fuel → createAliasTable env fuel = some t) ∧ inv paired ∧
      (paired.small = [] ∨ paired.large = []) ∧ t.aliasProbability = paired.finish ∧
      t.aliasTable = paired.table := by
  have sorted := sorted_all small
  have pending := sorted.perm.length_eq
  rw [List.length_append, List.length_range] at pending
  obtain ⟨paired, run, holds, within, left, done⟩ := AliasArrays.pairUp_loop round
    (start _ sorted) sorted.within pending.le
  obtain ⟨once, run₁, finish₁, table₁, nLarge₁, large₁, empty₁⟩ :=
    @AliasArrays.drainSmall_loop K env.queuedItems paired _ env.count (by omega)
  -- the second stack is as it was
  have base₁ : once.base = paired.base := by rw [AliasArrays.base, nLarge₁, AliasArrays.base]
  have same₁ : (once.pairing env.queuedItems).large = (paired.pairing env.queuedItems).large := by
    simp only [AliasArrays.pairing, base₁, large₁]
  obtain ⟨t, run₂, finish₂, table₂, nSmall₂, nLarge₂⟩ :=
    @AliasArrays.drainLarge_loop K env.queuedItems once _ (by omega) env.count (by rw [same₁]; omega)
  have empty : (t.pairing env.queuedItems).finish = t.aliasProbability := by
    have small : (t.pairing env.queuedItems).small = [] :=
      AliasArrays.pairing_small_nil.mpr (nSmall₂.trans empty₁)
    have large : (t.pairing env.queuedItems).large = [] := by
      refine (AliasArrays.pairing_large_nil ?_).mpr nLarge₂
      rw [AliasArrays.base, nLarge₂]
      bv_omega
    funext i
    rw [Pairing.finish, small, large]
    rfl
  refine ⟨t, paired.pairing env.queuedItems, ?_, holds, done, ?_, table₂.trans table₁⟩
  · intro fuel more
    refine createAliasTable_mono ?_ more
    unfold createAliasTable
    dsimp only
    rw [run, Option.bind_some, run₁, Option.bind_some, run₂]
  · rw [← empty, finish₂, finish₁]

theorem AliasArrays.Sorted.conserves {a : AliasArrays K}
    (sorted : AliasArrays.Sorted env.share env.queuedItems a (List.range env.count))
    (undoubled : env.Undoubled) (positive : ∃ i < env.count, 0 < env.effectiveWeight i) :
    Conserves (Finset.range env.count) env.share (a.pairing env.queuedItems) ∅ := by
  have sum := WeightEnv.sum_pos undoubled positive
  obtain ⟨first, first_lt, _⟩ := positive
  obtain ⟨mass, perm, small_mass, large_mass, within, prob, table⟩ := sorted
  refine ⟨⟨Finset.empty_subset _, ?_, by simp, ?_, ?_⟩, ?_, ?_, ?_⟩
  · change ∑ i ∈ Finset.range env.count \ ∅, a.P i = _
    rw [Finset.sdiff_empty, mass, WeightEnv.sum_share undoubled sum.ne', Finset.card_range]
  · intro i
    change a.aliasTable i ∈ _
    rw [table, Finset.mem_range]
    exact (Nat.zero_le first).trans_lt first_lt
  · intro i _
    change (if i ∈ ∅ then a.aliasProbability i else a.P i) + ∑ j ∈ ∅, _ = _
    simp [mass]
  · rw [Finset.sdiff_empty]
    exact Multiset.coe_eq_coe.mpr perm
  · intro i member
    change 0 ≤ a.P i ∧ a.P i < 1
    rw [mass]
    exact ⟨WeightEnv.share_nonneg sum i, small_mass i member⟩
  · intro i member
    change 1 ≤ a.P i
    rw [mass]
    exact large_mass i member

/-- The table gives every index its share. -/
theorem createAliasTable_of_le (small : env.count ≤ 2 ^ 31) (undoubled : env.Undoubled)
    (positive : ∃ i < env.count, 0 < env.effectiveWeight i) :
    ∃ t, (∀ fuel, env.count ≤ fuel → createAliasTable env fuel = some t) ∧
      (∀ s, t.aliasTable s ∈ Finset.range env.count) ∧
      (∀ s ∈ Finset.range env.count, 0 ≤ t.aliasProbability s ∧ t.aliasProbability s ≤ 1) ∧
      ∀ i ∈ Finset.range env.count, t.aliasProbability i + ∑ s ∈ Finset.range env.count,
        (if t.aliasTable s = i then 1 - t.aliasProbability s else 0) = env.share i := by
  obtain ⟨t, paired, run, ⟨settled, conserves⟩, done, finish, table⟩ := 
    @createAliasTable_runs K _ _ env small
      (fun s => ∃ settled, Conserves (Finset.range env.count) env.share s settled)
    (fun ⟨_, conserves⟩ smalls larges => ⟨_, (conserves.pair smalls larges).1⟩)
    (fun _ sorted => ⟨∅, sorted.conserves undoubled positive⟩)
  obtain ⟨bounds, balance⟩ := conserves.finish done
  refine ⟨t, run, ?_, ?_, ?_⟩
  · rw [table]
    exact conserves.shares.table_mem
  · rw [finish]
    exact bounds
  · rw [finish, table]
    exact balance

end Table

/-! ## Selecting an entry -/

open MeasureTheory in
/-- The probability that a uniform index below `n` and a uniform number in `[0, 1)` select the
entry at an index. -/
noncomputable def selectionProbability (env : WeightEnv ℚ) (t : AliasArrays ℚ) (i : Nat) : ℝ :=
  (∑ s ∈ Finset.range env.count, (volume {p : ℝ | p ∈ Set.Ico (0 : ℝ) 1 ∧
    selectNextQueueEntry (fun s => (t.aliasProbability s : ℝ)) t.aliasTable s p = i}).toReal) /
      env.count

/-- The table is well formed and selects every entry with its share of the weights. -/
structure Realises (env : WeightEnv ℚ) (t : AliasArrays ℚ) : Prop where
  table_lt : ∀ s < env.count, t.aliasTable s < env.count
  probability_mem : ∀ s < env.count, 0 ≤ t.aliasProbability s ∧ t.aliasProbability s ≤ 1
  selection : ∀ i < env.count, selectionProbability env t i =
    ((env.effectiveWeight i / ∑ j ∈ Finset.range env.count, env.effectiveWeight j : ℚ) : ℝ)

section Selection

variable {env : WeightEnv ℚ} {t : AliasArrays ℚ}

theorem selectionProbability_eq {i : Nat} (below : i < env.count)
    (bounds : ∀ s < env.count, 0 ≤ t.aliasProbability s ∧ t.aliasProbability s ≤ 1) :
    selectionProbability env t i =
      (((t.aliasProbability i + ∑ s ∈ Finset.range env.count,
        if t.aliasTable s = i then 1 - t.aliasProbability s else 0) / env.count : ℚ) : ℝ) := by
  have chosen : selectionProbability env t i = choiceProbability (Finset.range env.count)
      (fun s => (t.aliasProbability s : ℝ)) t.aliasTable i := by
    rw [choiceProbability, Finset.card_range]
    rfl
  rw [chosen, choiceProbability_eq t.aliasTable (Finset.mem_range.mpr below), Finset.card_range]
  · simp [apply_ite]
  · intro s member
    obtain ⟨nonneg, le_one⟩ := bounds s (Finset.mem_range.mp member)
    exact ⟨by exact_mod_cast nonneg, by exact_mod_cast le_one⟩

theorem realises_of_le (small : env.count ≤ 2 ^ 31) (undoubled : env.Undoubled)
    (positive : ∃ i < env.count, 0 < env.effectiveWeight i) :
    ∃ t, (∀ fuel, env.count ≤ fuel → createAliasTable env fuel = some t) ∧ Realises env t := by
  obtain ⟨t, run, table, bounds, balance⟩ := createAliasTable_of_le small undoubled positive
  have bounds' : ∀ s < env.count, 0 ≤ t.aliasProbability s ∧ t.aliasProbability s ≤ 1 :=
    fun s below => bounds s (Finset.mem_range.mpr below)
  refine ⟨t, run, ?_, bounds', ?_⟩
  · exact fun s _ => Finset.mem_range.mp (table s)
  · intro i below
    have nonzero : (env.count : ℚ) ≠ 0 := by
      have : env.count ≠ 0 := by omega
      exact_mod_cast this
    rw [selectionProbability_eq below bounds', balance i (Finset.mem_range.mpr below),
      WeightEnv.share_eq, WeightEnv.sum_eq undoubled]
    congr 1
    field_simp

/-- The table that was only cleared selects the entry at 0. -/
theorem selectionProbability_initial {P : Nat → ℚ} {n : BitVec 32} {i : Nat}
    (below : i < env.count) :
    selectionProbability env (.initial P n) i = if i = 0 then 1 else 0 := by
  have nonzero : (env.count : ℝ) ≠ 0 := by
    have : env.count ≠ 0 := by omega
    exact_mod_cast this
  rw [selectionProbability_eq below fun s _ => ⟨le_rfl, zero_le_one⟩]
  by_cases zero : i = 0
  · subst zero
    simp [AliasArrays.initial, nonzero]
  · simp [AliasArrays.initial, zero, Ne.symm zero]

theorem realises_initial_iff (undoubled : env.Undoubled)
    (positive : ∃ i < env.count, 0 < env.effectiveWeight i) {P : Nat → ℚ} {n : BitVec 32} :
    Realises env (.initial P n) ↔ ∀ i, 0 < i → i < env.count → env.effectiveWeight i = 0 := by
  have sum := WeightEnv.sum_pos undoubled positive
  rw [WeightEnv.sum_eq undoubled] at sum
  obtain ⟨first, first_lt, _⟩ := positive
  constructor
  · intro realises i later below
    have chosen := realises.selection i below
    rw [selectionProbability_initial below, if_neg later.ne'] at chosen
    have share : env.effectiveWeight i /
        ∑ j ∈ Finset.range env.count, env.effectiveWeight j = 0 := by
      exact_mod_cast chosen.symm
    exact (div_eq_zero_iff.mp share).resolve_right sum.ne'
  · intro none
    have only : ∑ j ∈ Finset.range env.count, env.effectiveWeight j = env.effectiveWeight 0 := by
      refine Finset.sum_eq_single 0 (fun j member later => ?_) (fun absent => ?_)
      · exact none j (Nat.pos_of_ne_zero later) (Finset.mem_range.mp member)
      · exact absurd (Finset.mem_range.mpr ((Nat.zero_le first).trans_lt first_lt)) absent
    refine ⟨fun s below => (Nat.zero_le s).trans_lt below, fun s _ => ⟨le_rfl, zero_le_one⟩, ?_⟩
    intro i below
    rw [selectionProbability_initial below, only]
    rw [only] at sum
    split
    next zero =>
      rw [zero, div_self sum.ne']
      simp
    next later =>
      rw [none i (Nat.pos_of_ne_zero later) below]
      simp

end Selection

/-- The table is created and realises the weights. -/
def RealisesWeights (env : WeightEnv ℚ) : Prop :=
  ∃ t, (∀ fuel, env.count ≤ fuel → createAliasTable env fuel = some t) ∧ Realises env t

theorem realisesWeights_iff {env : WeightEnv ℚ} (undoubled : env.Undoubled)
    (positive : ∃ i < env.count, 0 < env.effectiveWeight i) :
    RealisesWeights env ↔
      (env.count ≤ 2 ^ 31 ∨ ∀ i, 0 < i → i < env.count → env.effectiveWeight i = 0) := by
  constructor
  · rintro ⟨t, run, realises⟩
    by_cases small : env.count ≤ 2 ^ 31
    · exact .inl small
    · have created := run env.count le_rfl
      rw [createAliasTable_of_gt (not_le.mp small)] at created
      cases created
      exact .inr ((realises_initial_iff undoubled positive).mp realises)
  · intro condition
    by_cases small : env.count ≤ 2 ^ 31
    · exact realises_of_le small undoubled positive
    · refine ⟨_, fun fuel _ => createAliasTable_of_gt (not_le.mp small) fuel, ?_⟩
      exact (realises_initial_iff undoubled positive).mpr (condition.resolve_left small)

/-- The alias table realises the weights for up to `2 ^ 31` entries. Beyond that it is never
filled and selects the first entry always, which is right only if the others have no weight. -/
theorem createAliasTable_realises_iff (env : WeightEnv ℚ) (schedule : env.schedule ≠ .mmopt)
    (positive : ∃ i < env.count, 0 < env.effectiveWeight i) :
    (∃ t, (∀ fuel, env.count ≤ fuel → createAliasTable env fuel = some t) ∧ Realises env t) ↔
      (env.count ≤ 2 ^ 31 ∨ ∀ i, 0 < i → i < env.count → env.effectiveWeight i = 0) :=
  realisesWeights_iff (WeightEnv.undoubled_of_schedule schedule) positive

/-- A queue of entries that all score the same under `SEEK`. -/
def evenQueue (n : BitVec 32) : WeightEnv ℚ where
  schedule := .seek
  queueBuf := fun _ => ⟨false, false, false, false, 1, 1, 0, 0⟩
  queuedItems := n
  queuedDiscovered := 0
  nFuzz := fun _ => 0
  log10 := fun _ => 0
  log := fun _ => 0
  calculateScore := fun _ => 100

theorem createAliasTable_realises_three :
    ∃ t, (∀ fuel, 3 ≤ fuel → createAliasTable (evenQueue 3) fuel = some t) ∧
      Realises (evenQueue 3) t :=
  (createAliasTable_realises_iff (evenQueue 3) (by decide) ⟨0, by decide, by decide⟩).mpr
    (.inl (by decide))

/-- In a queue of `2 ^ 31 + 1` entries of equal weight the second one is never selected. -/
theorem createAliasTable_not_realises : ¬ ∃ t,
    (∀ fuel, (evenQueue (2 ^ 31 + 1)).count ≤ fuel →
      createAliasTable (evenQueue (2 ^ 31 + 1)) fuel = some t) ∧
      Realises (evenQueue (2 ^ 31 + 1)) t := by
  rintro ⟨t, run, realises⟩
  have created := run _ le_rfl
  rw [createAliasTable_of_gt (by decide)] at created
  cases created
  have none := (realises_initial_iff (WeightEnv.undoubled_of_schedule (by decide))
    ⟨0, by decide, by decide⟩).mp realises 1
    (by decide) (by decide)
  exact absurd none (by decide)

end Swam.Afl
