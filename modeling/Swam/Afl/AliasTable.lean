import Swam.Afl.SaveIfInteresting
import Swam.Lib.Alias
import Swam.Lib.Loops

/-!
# Weighted choice of the next queue entry

`create_alias_table` with exact arithmetic in place of `double`. The two stacks of indices
grow towards each other in arrays of their own; `nLarge` is the position below the second
one and wraps below zero when that stack is full. The score of an entry is a parameter.
-/
namespace Swam.Afl

open Swam.Lib

variable {K : Type} [Field K] [LinearOrder K]

/-! ## Weights -/

/-- The fields of a queue entry that the weights are computed from. -/
structure WeighedEntry where
  disabled : Bool
  favored : Bool
  wasFuzzed : Bool
  fsRedundant : Bool
  execUs : Nat
  bitmapSize : Nat
  tcRef : Nat
  nFuzzEntry : Nat
  deriving DecidableEq, Repr

structure WeightEnv (K : Type) where
  schedule : Schedule
  queueBuf : Nat → WeighedEntry
  queuedItems : BitVec 32
  queuedDiscovered : Nat
  nFuzz : Nat → Nat
  log10 : Nat → K
  log : Nat → K
  /-- What `calculate_score` returns for the entry at an index. -/
  calculateScore : Nat → Nat

/-- `afl->schedule < RARE`. -/
def Schedule.beforeRare : Schedule → Bool
  | .rare | .seek => false
  | _ => true

namespace WeightEnv

variable (env : WeightEnv K)

/-- Number of entries. -/
def count : Nat := env.queuedItems.toNat

def computeWeight (q : WeighedEntry) (avgExecUs avgBitmapSize avgTopSize : K) : K :=
  let hits := env.nFuzz q.nFuzzEntry
  let weight : K := if env.schedule.frequency ∧ hits ≠ 0 then 1 / (env.log10 hits + 1) else 1
  let weight := if env.schedule.beforeRare ∧ 0 < avgExecUs ∧ 0 < q.execUs then
    weight * (avgExecUs / q.execUs) else weight
  let weight := if 0 < avgBitmapSize ∧ 0 < q.bitmapSize then
    weight * (env.log q.bitmapSize / avgBitmapSize) else weight
  let weight := if 0 < avgTopSize then weight * (1 + q.tcRef / avgTopSize) else weight
  let weight := if weight < 1 / 10 then 1 / 10 else weight
  let weight := if q.favored then weight * 5 else weight
  let weight := if ¬ q.wasFuzzed then weight * 2 else weight
  if q.fsRedundant then weight * (4 / 5) else weight

/-- The sum of a value over the entries that are not disabled. -/
def activeSum (value : Nat → K) : K :=
  ∑ i ∈ Finset.range env.count, if (env.queueBuf i).disabled then 0 else value i

def active : Nat := (List.range env.count).countP fun i => ¬ (env.queueBuf i).disabled

/-- The weight that the entry at an index gets from the averages over the active ones. -/
def averagedWeight (i : Nat) : K :=
  let avgExecUs := env.activeSum (fun i => (env.queueBuf i).execUs) / env.active
  let avgExecUs := if avgExecUs ≤ 0 then 1 else avgExecUs
  let avgBitmapSize := env.activeSum (fun i =>
    if 0 < (env.queueBuf i).bitmapSize then env.log (env.queueBuf i).bitmapSize else 0) / env.active
  let avgTopSize := env.activeSum (fun i => (env.queueBuf i).tcRef) / env.active
  env.computeWeight (env.queueBuf i) avgExecUs avgBitmapSize avgTopSize

/-- The newest entries count twice under `MMOPT`, but not in the sum of the weights. -/
def doubled (i : Nat) : Bool :=
  let cnt := min env.queuedDiscovered 5
  env.schedule = .mmopt ∧ 0 < cnt ∧ cnt ≤ env.count ∧ env.count - cnt ≤ i

/-- The weight or score of an active entry. -/
def weight (i : Nat) : K :=
  if env.schedule.beforeRare then
    if env.doubled i then env.averagedWeight i * 2 else env.averagedWeight i
  else env.calculateScore i

def sum : K :=
  env.activeSum fun i =>
    if env.schedule.beforeRare then env.averagedWeight i else env.calculateScore i

/-- `P` as the weights leave it. -/
def share (i : Nat) : K :=
  if (env.queueBuf i).disabled then 0 else env.weight i * env.count / env.sum

end WeightEnv

/-! ## The table -/

/-- The arrays of `create_alias_table`. -/
structure AliasArrays (K : Type) where
  P : Nat → K
  small : Nat → Nat
  large : Nat → Nat
  nSmall : BitVec 32
  nLarge : BitVec 32
  aliasProbability : Nat → K
  aliasTable : Nat → Nat

namespace AliasArrays

/-- `Small[nSmall++] = j`. -/
def pushSmall (a : AliasArrays K) (j : Nat) : AliasArrays K :=
  { a with small := Function.update a.small a.nSmall.toNat j, nSmall := a.nSmall + 1 }

/-- `Large[nLarge--] = j`. -/
def pushLarge (a : AliasArrays K) (j : Nat) : AliasArrays K :=
  { a with large := Function.update a.large a.nLarge.toNat j, nLarge := a.nLarge - 1 }

def push (a : AliasArrays K) (j : Nat) : AliasArrays K :=
  if a.P j < 1 then a.pushSmall j else a.pushLarge j

/-- Take an index from either stack and settle the small one. -/
def settleTop (a : AliasArrays K) : AliasArrays K :=
  let nSmall := a.nSmall - 1
  let small := a.small nSmall.toNat
  let nLarge := a.nLarge + 1
  let large := a.large nLarge.toNat
  { a with
    nSmall, nLarge
    aliasProbability := Function.update a.aliasProbability small (a.P small)
    aliasTable := Function.update a.aliasTable small large
    P := Function.update a.P large (a.P large - (1 - a.P small)) }

/-- The large index goes back to the stack its remaining mass says. -/
def pairUp (a : AliasArrays K) : AliasArrays K :=
  a.settleTop.push (a.large (a.nLarge + 1).toNat)

/-- `alias_probability[Small[--nSmall]] = 1`. -/
def drainSmall (a : AliasArrays K) : AliasArrays K :=
  let nSmall := a.nSmall - 1
  { a with nSmall, aliasProbability := Function.update a.aliasProbability (a.small nSmall.toNat) 1 }

/-- `alias_probability[Large[++nLarge]] = 1`. -/
def drainLarge (a : AliasArrays K) : AliasArrays K :=
  let nLarge := a.nLarge + 1
  { a with nLarge, aliasProbability := Function.update a.aliasProbability (a.large nLarge.toNat) 1 }

end AliasArrays

/-- The indices from `n - 1` down to 0, counted by a signed 32-bit number. -/
def downwards (n : BitVec 32) : List Nat := (List.range ((n - 1).toInt + 1).toNat).reverse

def AliasArrays.initial (P : Nat → K) (n : BitVec 32) : AliasArrays K :=
  ⟨P, fun _ => 0, fun _ => 0, 0, n - 1, fun _ => 0, fun _ => 0⟩

/-- `none` if one of the loops runs for more than `fuel` rounds. -/
def createAliasTable (env : WeightEnv K) (fuel : Nat) : Option (AliasArrays K) :=
  let n := env.queuedItems
  let arrays := (downwards n).foldl AliasArrays.push (.initial env.share n)
  (whileLoop (fun a => a.nSmall ≠ 0 ∧ a.nLarge ≠ n - 1) AliasArrays.pairUp fuel arrays).bind
    fun a => (whileLoop (fun a => a.nSmall ≠ 0) AliasArrays.drainSmall fuel a).bind
      fun a => whileLoop (fun a => a.nLarge ≠ n - 1) AliasArrays.drainLarge fuel a

/-- The entry chosen by the index `s` and the number `p`. -/
def selectNextQueueEntry {R : Type} [LT R] [DecidableLT R] (aliasProbability : Nat → R)
    (aliasTable : Nat → Nat) (s : Nat) (p : R) : Nat :=
  if p < aliasProbability s then s else aliasTable s

end Swam.Afl
