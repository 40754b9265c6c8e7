import Mathlib.Algebra.Order.Ring.Int
import Mathlib.Data.List.Nodup
import Mathlib.Data.List.Sort

/-! # Sorting -/
namespace Swam.Lib

variable {α : Type}

/-- A comparison that agrees with some order on these elements. -/
def Ranked (le : α → α → Prop) (items : List α) : Prop :=
  ∃ rank : α → Int, ∀ a ∈ items, ∀ b ∈ items, le a b ↔ rank a ≤ rank b

/-- A sorting routine such as `qsort`, which leaves open in which order equal elements come. With
a comparison that agrees with no order it only permutes. -/
structure Qsort (le : α → α → Prop) where
  sort : List α → List α
  perm : ∀ items, (sort items).Perm items
  sorted : ∀ items, Ranked le items → (sort items).Pairwise le

namespace Qsort
variable {le : α → α → Prop}

@[simp] theorem mem_sort (q : Qsort le) {items : List α} {a : α} :
    a ∈ q.sort items ↔ a ∈ items :=
  (q.perm items).mem_iff

@[simp] theorem length_sort (q : Qsort le) (items : List α) :
    (q.sort items).length = items.length :=
  (q.perm items).length_eq

@[simp] theorem nodup_sort (q : Qsort le) {items : List α} :
    (q.sort items).Nodup ↔ items.Nodup :=
  (q.perm items).nodup_iff

@[simp] theorem sort_singleton (q : Qsort le) (a : α) : q.sort [a] = [a] :=
  List.perm_singleton.mp (q.perm [a])

/-- Merge sort is one such routine. -/
def ofMergeSort (le : α → α → Prop) [DecidableRel le] : Qsort le where
  sort items := (items.attach.mergeSort fun a b => decide (le a b)).map Subtype.val
  perm items := by
    have sorted := (List.mergeSort_perm items.attach fun a b => decide (le a b)).map Subtype.val
    rwa [List.attach_map_subtype_val] at sorted
  sorted items ranked := by
    obtain ⟨rank, agrees⟩ := ranked
    have le_iff (a b : {a // a ∈ items}) : decide (le a b) = true ↔ rank a ≤ rank b := by
      rw [decide_eq_true_eq]
      exact agrees a a.property b b.property
    have sorted := @List.pairwise_mergeSort _ (fun a b : {a // a ∈ items} => decide (le a b))
      (fun a b c first second => by
        rw [le_iff] at *
        exact Int.le_trans first second)
      (fun a b => by
        rw [Bool.or_eq_true, le_iff, le_iff]
        exact Int.le_total _ _)
      items.attach
    exact List.pairwise_map.mpr (sorted.imp fun h => of_decide_eq_true h)

end Qsort

/-- An element written over another. -/
theorem set_perm_cons_eraseIdx {items : List α} {i : Nat} (inside : i < items.length) (a : α) :
    (items.set i a).Perm (a :: items.eraseIdx i) := by
  rw [List.set_eq_take_append_cons_drop, if_pos inside, List.eraseIdx_eq_take_drop_succ]
  exact List.perm_middle

end Swam.Lib
