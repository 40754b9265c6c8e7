import Mathlib.Algebra.BigOperators.Field
import Mathlib.Algebra.Order.Ring.Int
import Mathlib.MeasureTheory.Measure.Lebesgue.Basic
import Mathlib.Tactic.FieldSimp
import Mathlib.Tactic.Linarith

/-!
# The alias method

A table with one probability and one alias for each index turns a uniform index and a
uniform number into a weighted choice. The table is built by pairing an index that has less
than its share with one that has more, which gives away what the first one lacks.
-/
namespace Swam.Lib

open Finset

variable {ι K : Type} [DecidableEq ι] [Field K] [LinearOrder K]

/-! ## Two stacks of pending indices -/

/-- A table under construction: the pending indices with a mass below one, those with at
least one, and what the settled indices were given. -/
structure Pairing (ι K : Type) where
  mass : ι → K
  small : List ι
  large : List ι
  prob : ι → K
  table : ι → ι

namespace Pairing

/-- Settle the first small index with the first large one. -/
def pair (s : Pairing ι K) : Pairing ι K :=
  match s.small, s.large with
  | a :: small, b :: large =>
    let mass := Function.update s.mass b (s.mass b - (1 - s.mass a))
    let prob := Function.update s.prob a (s.mass a)
    let table := Function.update s.table a b
    if mass b < 1 then ⟨mass, b :: small, large, prob, table⟩
    else ⟨mass, small, b :: large, prob, table⟩
  | _, _ => s

/-- Indices that are pending in the end keep themselves. -/
def finish (s : Pairing ι K) : ι → K :=
  fun i => if i ∈ s.small ++ s.large then 1 else s.prob i

end Pairing

/-- Where the mass of the target is while the indices of `settled` have their final entries:
an index has what it keeps and what the settled indices pass on to it. -/
structure Shares (all : Finset ι) (target mass prob : ι → K) (table : ι → ι)
    (settled : Finset ι) : Prop where
  within : settled ⊆ all
  total : ∑ i ∈ all \ settled, mass i = #(all \ settled)
  prob_mem : ∀ i ∈ settled, 0 ≤ prob i ∧ prob i ≤ 1
  table_mem : ∀ i, table i ∈ all
  balance : ∀ i ∈ all, (if i ∈ settled then prob i else mass i) +
    ∑ j ∈ settled, (if table j = i then 1 - prob j else 0) = target i

/-- The stacks hold the pending indices, each on the side its mass says. -/
structure Conserves (all : Finset ι) (target : ι → K) (s : Pairing ι K) (settled : Finset ι) :
    Prop where
  shares : Shares all target s.mass s.prob s.table settled
  pending : ((s.small ++ s.large : List ι) : Multiset ι) = (all \ settled).val
  small_mass : ∀ i ∈ s.small, 0 ≤ s.mass i ∧ s.mass i < 1
  large_mass : ∀ i ∈ s.large, 1 ≤ s.mass i

variable [IsStrictOrderedRing K]

/-! ## Settling one index -/

section Settle

variable {all settled : Finset ι} {target mass prob : ι → K} {table : ι → ι} {a b : ι}

private theorem settle_total (shares : Shares all target mass prob table settled)
    (a_mem : a ∈ all \ settled) (b_mem : b ∈ all \ settled) (ne : a ≠ b) :
    ∑ i ∈ all \ insert a settled, Function.update mass b (mass b - (1 - mass a)) i =
      (#(all \ insert a settled) : K) := by
  have erased : all \ insert a settled = (all \ settled).erase a := by
    ext i
    simp only [mem_sdiff, mem_insert, mem_erase]
    tauto
  have b_left : b ∈ (all \ settled).erase a := mem_erase.mpr ⟨Ne.symm ne, b_mem⟩
  have old : mass a + (mass b + ∑ i ∈ (all \ settled).erase a \ {b}, mass i) =
      #((all \ settled).erase a) + 1 := by
    have counted : (#((all \ settled).erase a) : K) + 1 = #(all \ settled) := by
      exact_mod_cast card_erase_add_one a_mem
    rw [counted, ← shares.total, ← add_sum_erase _ mass a_mem, ← add_sum_erase _ mass b_left,
      sdiff_singleton_eq_erase]
  rw [erased, sum_update_of_mem b_left]
  linarith

private theorem settle_balance (shares : Shares all target mass prob table settled)
    (a_new : a ∉ settled) (b_new : b ∉ settled) (ne : a ≠ b) {i : ι} (member : i ∈ all) :
    (if i ∈ insert a settled then Function.update prob a (mass a) i
        else Function.update mass b (mass b - (1 - mass a)) i) +
      ∑ j ∈ insert a settled, (if Function.update table a b j = i
        then 1 - Function.update prob a (mass a) j else 0) = target i := by
  have old := shares.balance i member
  have passed : ∑ j ∈ settled, (if Function.update table a b j = i
        then 1 - Function.update prob a (mass a) j else 0) =
      ∑ j ∈ settled, (if table j = i then 1 - prob j else 0) := by
    refine sum_congr rfl fun j inside => ?_
    have other : j ≠ a := fun equal => a_new (by rwa [← equal])
    rw [Function.update_of_ne other, Function.update_of_ne other]
  rw [sum_insert a_new, passed, Function.update_self, Function.update_self]
  by_cases is_a : i = a
  · -- `a` keeps its mass
    subst is_a
    rw [if_neg a_new] at old
    rw [if_pos (mem_insert_self i settled), Function.update_self, if_neg (Ne.symm ne)]
    linarith
  · by_cases is_b : i = b
    · -- `b` gives away what `a` lacks and gets it back through the table
      subst is_b
      rw [if_neg b_new] at old
      rw [if_neg (by simp [is_a, b_new]), Function.update_self, if_pos rfl]
      linarith
    · rw [if_neg (Ne.symm is_b), Function.update_of_ne is_a, Function.update_of_ne is_b]
      simp only [mem_insert, is_a, false_or]
      linarith

theorem Shares.settle (shares : Shares all target mass prob table settled)
    (a_mem : a ∈ all \ settled) (b_mem : b ∈ all \ settled) (ne : a ≠ b)
    (nonneg : 0 ≤ mass a) (le_one : mass a ≤ 1) :
    Shares all target (Function.update mass b (mass b - (1 - mass a)))
      (Function.update prob a (mass a)) (Function.update table a b) (insert a settled) := by
  obtain ⟨a_all, a_new⟩ := mem_sdiff.mp a_mem
  obtain ⟨b_all, b_new⟩ := mem_sdiff.mp b_mem
  refine ⟨insert_subset a_all shares.within, settle_total shares a_mem b_mem ne, ?_, ?_,
    fun i member => settle_balance shares a_new b_new ne member⟩
  · intro i member
    by_cases equal : i = a
    · rw [equal, Function.update_self]
      exact ⟨nonneg, le_one⟩
    · rw [Function.update_of_ne equal]
      exact shares.prob_mem i ((mem_insert.mp member).resolve_left equal)
  · intro i
    by_cases equal : i = a
    · rw [equal, Function.update_self]
      exact b_all
    · rw [Function.update_of_ne equal]
      exact shares.table_mem i

end Settle

/-! ## Settling all -/

section Run

variable {all settled : Finset ι} {target : ι → K} {s : Pairing ι K}

omit [IsStrictOrderedRing K] in
theorem Conserves.mem_pending (conserves : Conserves all target s settled) {i : ι} :
    i ∈ s.small ++ s.large ↔ i ∈ all ∧ i ∉ settled := by
  rw [← mem_sdiff, ← mem_val, ← conserves.pending, Multiset.mem_coe]

/-- One round settles an index and conserves the mass. -/
theorem Conserves.pair {a b : ι} {small large : List ι} (conserves : Conserves all target s settled)
    (smalls : s.small = a :: small) (larges : s.large = b :: large) :
    Conserves all target s.pair (insert a settled) ∧
      s.pair.small.length + s.pair.large.length + 1 = s.small.length + s.large.length := by
  obtain ⟨shares, pending, small_mass, large_mass⟩ := conserves
  rw [smalls, larges, List.cons_append] at pending
  rw [smalls] at small_mass
  rw [larges] at large_mass
  obtain ⟨nonneg, below⟩ := small_mass a List.mem_cons_self
  have nodup : (a :: (small ++ b :: large)).Nodup := by
    rw [← Multiset.coe_nodup, pending]
    exact (all \ settled).nodup
  have a_mem : a ∈ all \ settled := by
    rw [← mem_val, ← pending]
    simp
  have b_mem : b ∈ all \ settled := by
    rw [← mem_val, ← pending]
    simp
  have ne : a ≠ b := fun equal => (List.nodup_cons.mp nodup).1 (by simp [equal])
  have b_once : b ∉ small ++ large := by
    have moved : (small ++ b :: large).Perm (b :: (small ++ large)) := List.perm_middle
    exact (List.nodup_cons.mp (moved.nodup_iff.mp (List.nodup_cons.mp nodup).2)).1
  have rest : ((small ++ b :: large : List ι) : Multiset ι) = (all \ insert a settled).val := by
    have erased : all \ insert a settled = (all \ settled).erase a := by
      ext i
      simp only [mem_sdiff, mem_insert, mem_erase]
      tauto
    rw [erased, erase_val, ← pending, ← Multiset.cons_coe, Multiset.erase_cons_head]
  set mass := Function.update s.mass b (s.mass b - (1 - s.mass a)) with mass_def
  have others {i : ι} (member : i ∈ small ++ large) : mass i = s.mass i :=
    Function.update_of_ne (fun equal => b_once (by rwa [← equal])) _ s.mass
  have settle := shares.settle a_mem b_mem ne nonneg below.le
  have small_left : ∀ i ∈ small, 0 ≤ mass i ∧ mass i < 1 := fun i member => by
    rw [others (List.mem_append_left large member)]
    exact small_mass i (List.mem_cons_of_mem a member)
  have large_left : ∀ i ∈ large, 1 ≤ mass i := fun i member => by
    rw [others (List.mem_append_right small member)]
    exact large_mass i (List.mem_cons_of_mem b member)
  unfold Pairing.pair
  simp only [smalls, larges]
  split
  next low =>
    refine ⟨⟨settle, ?_, ?_, large_left⟩, by simp only [List.length_cons]; omega⟩
    · rw [← rest]
      exact Multiset.coe_eq_coe.mpr List.perm_middle.symm
    · rw [List.forall_mem_cons]
      refine ⟨⟨?_, low⟩, small_left⟩
      have := large_mass b List.mem_cons_self
      change 0 ≤ mass b
      rw [mass_def, Function.update_self]
      linarith
  next high =>
    refine ⟨⟨settle, rest, small_left, ?_⟩, by simp only [List.length_cons]; omega⟩
    rw [List.forall_mem_cons]
    exact ⟨not_lt.mp high, large_left⟩

/-- When one stack is empty, what is pending has exactly its share. -/
theorem Conserves.mass_eq_one (conserves : Conserves all target s settled)
    (done : s.small = [] ∨ s.large = []) {i : ι} (member : i ∈ all \ settled) : s.mass i = 1 := by
  have total : ∑ i ∈ all \ settled, s.mass i = ∑ i ∈ all \ settled, (1 : K) := by
    rw [conserves.shares.total]
    simp
  have pending {i : ι} (member : i ∈ all \ settled) : i ∈ s.small ++ s.large :=
    conserves.mem_pending.mpr (mem_sdiff.mp member)
  rcases done with empty | empty
  · have least : ∀ i ∈ all \ settled, (1 : K) ≤ s.mass i := fun i member =>
      conserves.large_mass i (by simpa [empty] using pending member)
    exact ((sum_eq_sum_iff_of_le least).mp total.symm i member).symm
  · have most : ∀ i ∈ all \ settled, s.mass i ≤ 1 := fun i member =>
      (conserves.small_mass i (by simpa [empty] using pending member)).2.le
    exact (sum_eq_sum_iff_of_le most).mp total i member

/-- The finished table gives every index the mass of the target. -/
theorem Conserves.finish (conserves : Conserves all target s settled)
    (done : s.small = [] ∨ s.large = []) :
    (∀ i ∈ all, 0 ≤ s.finish i ∧ s.finish i ≤ 1) ∧
      ∀ i ∈ all, s.finish i + ∑ j ∈ all, (if s.table j = i then 1 - s.finish j else 0) =
        target i := by
  have settled_eq {i : ι} (member : i ∈ settled) : s.finish i = s.prob i := by
    have absent : i ∉ s.small ++ s.large := fun pending =>
      (conserves.mem_pending.mp pending).2 member
    rw [Pairing.finish, if_neg absent]
  have pending_eq {i : ι} (member : i ∈ all \ settled) : s.finish i = 1 := by
    rw [Pairing.finish, if_pos (conserves.mem_pending.mpr (mem_sdiff.mp member))]
  constructor
  · intro i member
    by_cases inside : i ∈ settled
    · rw [settled_eq inside]
      exact conserves.shares.prob_mem i inside
    · rw [pending_eq (mem_sdiff.mpr ⟨member, inside⟩)]
      exact ⟨zero_le_one, le_rfl⟩
  · intro i member
    have given : ∑ j ∈ all, (if s.table j = i then 1 - s.finish j else 0) =
        ∑ j ∈ settled, (if s.table j = i then 1 - s.prob j else 0) := by
      rw [← sum_sdiff conserves.shares.within]
      have none : ∑ j ∈ all \ settled, (if s.table j = i then 1 - s.finish j else 0) = 0 :=
        sum_eq_zero fun j inside => by simp [pending_eq inside]
      rw [none, zero_add]
      exact sum_congr rfl fun j inside => by rw [settled_eq inside]
    have kept : s.finish i = if i ∈ settled then s.prob i else s.mass i := by
      split
      next inside => exact settled_eq inside
      next outside =>
        have left := mem_sdiff.mpr ⟨member, outside⟩
        rw [pending_eq left, conserves.mass_eq_one done left]
    rw [given, kept]
    exact conserves.shares.balance i member

omit [LinearOrder K] [IsStrictOrderedRing K] in
/-- A pending index that is given the probability one does not change the finished table. -/
theorem Pairing.finish_keep {s' : Pairing ι K} {x : ι}
    (members : ∀ i, i ∈ s.small ++ s.large ↔ i = x ∨ i ∈ s'.small ++ s'.large)
    (prob : s'.prob = Function.update s.prob x 1) : s'.finish = s.finish := by
  funext i
  simp only [Pairing.finish, members i, prob]
  by_cases equal : i = x
  · simp [equal]
  · simp only [equal, false_or, Function.update_of_ne equal]

end Run

/-! ## Supply -/

section Supply

variable {all : Finset ι} {target : ι → K} {blank : ι} {s : Pairing ι K}

/-- What holds of the stacks when there is at least as much mass as there are pending indices:
only an index that had its share from the start becomes an alias. -/
structure Supplied (all : Finset ι) (target : ι → K) (blank : ι) (s : Pairing ι K) : Prop where
  pending_mem : ∀ i ∈ s.small ++ s.large, i ∈ all
  nodup : (s.small ++ s.large).Nodup
  some : s.small ++ s.large ≠ []
  small_mass : ∀ i ∈ s.small, s.mass i < 1
  large_mass : ∀ i ∈ s.large, 1 ≤ s.mass i
  taken : ∀ i, s.mass i = target i ∨ 1 ≤ target i
  pending_table : ∀ i ∈ s.small ++ s.large, s.table i = blank
  settled : ∀ i ∈ all, i ∉ s.small ++ s.large →
    s.prob i = s.mass i ∧ s.table i ∈ all ∧ 1 ≤ target (s.table i)
  total : ((s.small ++ s.large).length : K) ≤ ((s.small ++ s.large).map s.mass).sum

omit [IsStrictOrderedRing K] in
/-- A round leaves the other pending indices alone and takes from the large one. -/
theorem Pairing.pair_eq {a b : ι} {small large : List ι} (smalls : s.small = a :: small)
    (larges : s.large = b :: large) :
    s.pair.mass = Function.update s.mass b (s.mass b - (1 - s.mass a)) ∧
      s.pair.prob = Function.update s.prob a (s.mass a) ∧
      s.pair.table = Function.update s.table a b ∧
      (s.pair.small = b :: small ∧ s.pair.large = large ∧ s.pair.mass b < 1 ∨
        s.pair.small = small ∧ s.pair.large = b :: large ∧ 1 ≤ s.pair.mass b) := by
  unfold Pairing.pair
  simp only [smalls, larges]
  split
  next low => exact ⟨rfl, rfl, rfl, .inl ⟨rfl, rfl, low⟩⟩
  next high => exact ⟨rfl, rfl, rfl, .inr ⟨rfl, rfl, not_lt.mp high⟩⟩

omit [IsStrictOrderedRing K] in
theorem Pairing.length_pair {a b : ι} {small large : List ι} (smalls : s.small = a :: small)
    (larges : s.large = b :: large) :
    s.pair.small.length + s.pair.large.length + 1 = s.small.length + s.large.length := by
  obtain ⟨_, _, _, ⟨smalls', larges', _⟩ | ⟨smalls', larges', _⟩⟩ := Pairing.pair_eq smalls larges
  · rw [smalls', larges', smalls, larges, List.length_cons, List.length_cons, List.length_cons]
    omega
  · rw [smalls', larges', smalls, larges, List.length_cons, List.length_cons]
    omega

omit [LinearOrder K] [IsStrictOrderedRing K] in
private theorem sum_map_update {l : List ι} (mass : ι → K) {b : ι} (value : K) (absent : b ∉ l) :
    (l.map (Function.update mass b value)).sum = (l.map mass).sum := by
  congr 1
  refine List.map_congr_left fun i member => Function.update_of_ne ?_ value mass
  rintro rfl
  exact absent member

theorem Supplied.pair {a b : ι} {small large : List ι} (supplied : Supplied all target blank s)
    (smalls : s.small = a :: small) (larges : s.large = b :: large) :
    Supplied all target blank s.pair := by
  obtain ⟨mass, prob, table, sides⟩ := Pairing.pair_eq smalls larges
  -- the pending indices, the large one first
  have pending : (s.small ++ s.large).Perm (a :: b :: (small ++ large)) := by
    rw [smalls, larges, List.cons_append]
    exact List.perm_middle.cons a
  have pending' : (s.pair.small ++ s.pair.large).Perm (b :: (small ++ large)) := by
    rcases sides with ⟨smalls', larges', _⟩ | ⟨smalls', larges', _⟩
    · rw [smalls', larges', List.cons_append]
    · rw [smalls', larges']
      exact List.perm_middle
  have nodup := pending.nodup_iff.mp supplied.nodup
  obtain ⟨a_new, nodup'⟩ := List.nodup_cons.mp nodup
  obtain ⟨b_new, _⟩ := List.nodup_cons.mp nodup'
  have ne : a ≠ b := fun same => a_new (same ▸ List.mem_cons_self)
  have kept {i : ι} (member : i ∈ s.pair.small ++ s.pair.large) : i ∈ s.small ++ s.large :=
    pending.mem_iff.mpr (List.mem_cons_of_mem a (pending'.mem_iff.mp member))
  have b_all : b ∈ all := supplied.pending_mem b (by simp [larges])
  have others {i : ι} (member : i ∈ small ++ large) : s.pair.mass i = s.mass i := by
    rw [mass]
    refine Function.update_of_ne ?_ _ _
    rintro rfl
    exact b_new member
  have rich : 1 ≤ target b := by
    have enough := supplied.large_mass b (by simp [larges])
    rcases supplied.taken b with same | rich
    · rwa [← same]
    · exact rich
  refine ⟨?_, ?_, ?_, ?_, ?_, ?_, ?_, ?_, ?_⟩
  · exact fun i member => supplied.pending_mem i (kept member)
  · exact pending'.nodup_iff.mpr nodup'
  · intro none_
    rw [none_] at pending'
    cases pending'.symm.eq_nil
  · have left : ∀ i ∈ small, s.pair.mass i < 1 := fun i member => by
      rw [others (List.mem_append_left large member)]
      exact supplied.small_mass i (smalls ▸ List.mem_cons_of_mem a member)
    rcases sides with ⟨smalls', _, low⟩ | ⟨smalls', _, _⟩
    · rw [smalls', List.forall_mem_cons]
      exact ⟨low, left⟩
    · rw [smalls']
      exact left
  · have left : ∀ i ∈ large, 1 ≤ s.pair.mass i := fun i member => by
      rw [others (List.mem_append_right small member)]
      exact supplied.large_mass i (larges ▸ List.mem_cons_of_mem b member)
    rcases sides with ⟨_, larges', _⟩ | ⟨_, larges', high⟩
    · rw [larges']
      exact left
    · rw [larges', List.forall_mem_cons]
      exact ⟨high, left⟩
  · intro i
    by_cases here : i = b
    · exact .inr (here ▸ rich)
    · rw [mass, Function.update_of_ne here]
      exact supplied.taken i
  · intro i member
    have apart : i ≠ a := by
      rintro rfl
      exact a_new (pending'.mem_iff.mp member)
    rw [table, Function.update_of_ne apart]
    exact supplied.pending_table i (kept member)
  · intro i inside settled
    by_cases here : i = a
    · subst here
      rw [prob, mass, table, Function.update_self, Function.update_self, Function.update_of_ne ne]
      exact ⟨rfl, b_all, rich⟩
    · have before : i ∉ s.small ++ s.large := by
        rw [pending.mem_iff, List.mem_cons, not_or]
        exact ⟨here, fun later => settled (pending'.mem_iff.mpr later)⟩
      have apart : i ≠ b := by
        rintro rfl
        exact settled (pending'.mem_iff.mpr List.mem_cons_self)
      rw [prob, mass, table, Function.update_of_ne here, Function.update_of_ne here,
        Function.update_of_ne apart]
      exact supplied.settled i inside before
  · have total := supplied.total
    rw [pending.length_eq, (pending.map s.mass).sum_eq] at total
    rw [pending'.length_eq, (pending'.map s.pair.mass).sum_eq, mass]
    simp only [List.map_cons, List.sum_cons, List.length_cons, Function.update_self,
      sum_map_update s.mass _ b_new] at total ⊢
    push_cast at total ⊢
    linarith

omit [DecidableEq ι] in
/-- When one stack is empty it is the small one. -/
theorem Supplied.small_nil (supplied : Supplied all target blank s)
    (done : s.small = [] ∨ s.large = []) : s.small = [] := by
  rcases done with empty | empty
  · exact empty
  · cases smalls : s.small with
    | nil => rfl
    | cons a small =>
      have total := supplied.total
      have some_ : s.small ≠ [] := by simp [smalls]
      rw [empty, List.append_nil] at total
      have less : (s.small.map s.mass).sum < (s.small.map fun _ => (1 : K)).sum :=
        List.sum_lt_sum_of_ne_nil some_ _ _ fun i member => supplied.small_mass i member
      simp only [List.map_const', List.sum_replicate, nsmul_eq_mul, mul_one] at less
      linarith

/-- The finished table: an index is left over, with its share from the start, and keeps itself
but has no alias; or it keeps its mass and has an alias with a share from the start. -/
theorem Supplied.finish (supplied : Supplied all target blank s)
    (done : s.small = [] ∨ s.large = []) {i : ι} (inside : i ∈ all) :
    s.finish i = 1 ∧ s.table i = blank ∧ 1 ≤ target i ∨
      (s.finish i = target i ∨ 1 ≤ target i) ∧ s.table i ∈ all ∧ 1 ≤ target (s.table i) := by
  have none_ := supplied.small_nil done
  by_cases pending : i ∈ s.small ++ s.large
  · left
    refine ⟨if_pos pending, supplied.pending_table i pending, ?_⟩
    rw [none_, List.nil_append] at pending
    have enough := supplied.large_mass i pending
    rcases supplied.taken i with same | rich
    · rwa [← same]
    · exact rich
  · right
    obtain ⟨prob, table, rich⟩ := supplied.settled i inside pending
    rw [Pairing.finish, if_neg pending, prob]
    exact ⟨supplied.taken i, table, rich⟩

omit [IsStrictOrderedRing K] in
/-- An index is left over. -/
theorem Supplied.left_over (supplied : Supplied all target blank s) :
    ∃ i ∈ all, s.finish i = 1 ∧ s.table i = blank := by
  obtain ⟨i, pending⟩ := List.exists_mem_of_ne_nil _ supplied.some
  exact ⟨i, supplied.pending_mem i pending, if_pos pending, supplied.pending_table i pending⟩

end Supply

/-! ## Choosing with the table -/

section Choice

open MeasureTheory

/-- The index chosen by a uniform index `i` and a number `p`. -/
def aliasChoice {R : Type} [LT R] [DecidableLT R] (prob : ι → R) (table : ι → ι) (i : ι) (p : R) :
    ι :=
  if p < prob i then i else table i

/-- The numbers below one that make index `i` choose `target`. -/
def choiceSet (prob : ι → ℝ) (table : ι → ι) (i target : ι) : Set ℝ :=
  {p | p ∈ Set.Ico (0 : ℝ) 1 ∧ aliasChoice prob table i p = target}

theorem volume_choiceSet {prob : ι → ℝ} (table : ι → ι) {i : ι} (target : ι) (nonneg : 0 ≤ prob i)
    (le_one : prob i ≤ 1) : (volume (choiceSet prob table i target)).toReal =
      (if i = target then prob i else 0) + if table i = target then 1 - prob i else 0 := by
  have low : {p | p ∈ Set.Ico (0 : ℝ) 1 ∧ p < prob i} = Set.Ico 0 (prob i) := by
    ext p
    simp only [Set.mem_ofPred_eq, Set.mem_Ico]
    exact ⟨fun h => ⟨h.1.1, h.2⟩, fun h => ⟨⟨h.1, h.2.trans_le le_one⟩, h.2⟩⟩
  have high : {p | p ∈ Set.Ico (0 : ℝ) 1 ∧ ¬ p < prob i} = Set.Ico (prob i) 1 := by
    ext p
    simp only [Set.mem_ofPred_eq, Set.mem_Ico, not_lt]
    exact ⟨fun h => ⟨h.2, h.1.2⟩, fun h => ⟨⟨nonneg.trans h.1, h.2⟩, h.1⟩⟩
  by_cases own : i = target <;> by_cases passed : table i = target
  · have all : choiceSet prob table i target = Set.Ico 0 1 := by
      ext p
      simp only [choiceSet, aliasChoice, Set.mem_ofPred_eq]
      split
      · simp [own]
      · simp only [passed, and_true]
    rw [all, if_pos own, if_pos passed, Real.volume_Ico, ENNReal.toReal_ofReal (by norm_num)]
    ring
  · have only : choiceSet prob table i target = Set.Ico 0 (prob i) := by
      rw [← low]
      ext p
      simp only [choiceSet, aliasChoice, Set.mem_ofPred_eq]
      split <;> simp_all
    rw [only, if_pos own, if_neg passed, Real.volume_Ico, ENNReal.toReal_ofReal (by linarith)]
    ring
  · have only : choiceSet prob table i target = Set.Ico (prob i) 1 := by
      rw [← high]
      ext p
      simp only [choiceSet, aliasChoice, Set.mem_ofPred_eq]
      split <;> simp_all
    rw [only, if_neg own, if_pos passed, Real.volume_Ico, ENNReal.toReal_ofReal (by linarith)]
    ring
  · have none : choiceSet prob table i target = ∅ := by
      ext p
      simp only [choiceSet, aliasChoice, Set.mem_ofPred_eq, Set.mem_empty_iff_false, iff_false]
      split <;> simp_all
    rw [none, if_neg own, if_neg passed]
    simp

/-- The probability that a uniform index of `all` and a uniform number below one choose
`target`. -/
noncomputable def choiceProbability (all : Finset ι) (prob : ι → ℝ) (table : ι → ι)
    (target : ι) : ℝ :=
  (∑ i ∈ all, (volume (choiceSet prob table i target)).toReal) / (#all)

theorem choiceProbability_eq {all : Finset ι} {prob : ι → ℝ} (table : ι → ι) {target : ι}
    (member : target ∈ all) (bounds : ∀ i ∈ all, 0 ≤ prob i ∧ prob i ≤ 1) :
    choiceProbability all prob table target =
      (prob target + ∑ i ∈ all, if table i = target then 1 - prob i else 0) / (#all) := by
  have each : ∑ i ∈ all, (volume (choiceSet prob table i target)).toReal =
      ∑ i ∈ all, ((if i = target then prob i else 0) +
        if table i = target then 1 - prob i else 0) :=
    Finset.sum_congr rfl fun i inside =>
      volume_choiceSet table target (bounds i inside).1 (bounds i inside).2
  rw [choiceProbability, each, Finset.sum_add_distrib, Finset.sum_ite_eq' all target, if_pos member]

end Choice

end Swam.Lib
