import Mathlib.Algebra.Order.Ring.Int
import Mathlib.Data.List.Basic

/-!
# Tables of slots

A slot is free or has an occupant. What a table holds is counted by slots, by the slots of one
occupant, and by the weights of the occupants.
-/
namespace Swam.Lib.Slots

variable {α : Type*}

def weight (w : α → Nat) (slots : List (Option α)) : Nat := (slots.map fun o => o.elim 0 w).sum

def occupied (slots : List (Option α)) : Nat := slots.countP Option.isSome

/-- The slots of one occupant. -/
def holds [DecidableEq α] (slots : List (Option α)) (a : α) : Nat := slots.count (some a)

/-- The first free slot from a position on, or the length of the table. -/
def freeFrom (slots : List (Option α)) (i : Nat) : Nat :=
  i + ((slots.drop i).takeWhile Option.isSome).length

variable {w : α → Nat} {slots : List (Option α)} {i : Nat} {a : α}

/-! ## Taking and clearing a slot -/

theorem weight_set_some (free : slots[i]? = some none) (a : α) :
    weight w (slots.set i (some a)) = weight w slots + w a := by
  induction slots generalizing i with
  | nil => cases free
  | cons o rest ih =>
    cases i with
    | zero =>
      cases Option.some.inj free
      simp [weight, Nat.add_comm]
    | succ i =>
      have step := ih (i := i) free
      simp only [weight, List.set_cons_succ, List.map_cons, List.sum_cons] at step ⊢
      omega

theorem weight_set_none (held : slots[i]? = some (some a)) :
    weight w (slots.set i none) + w a = weight w slots := by
  induction slots generalizing i with
  | nil => cases held
  | cons o rest ih =>
    cases i with
    | zero =>
      cases Option.some.inj held
      simp [weight, Nat.add_comm]
    | succ i =>
      have step := ih (i := i) held
      simp only [weight, List.set_cons_succ, List.map_cons, List.sum_cons] at step ⊢
      omega

theorem occupied_set_some (free : slots[i]? = some none) (a : α) :
    occupied (slots.set i (some a)) = occupied slots + 1 := by
  obtain ⟨inside, at_⟩ := List.getElem?_eq_some_iff.mp free
  simp [occupied, List.countP_set inside, at_]

theorem occupied_set_none (held : slots[i]? = some (some a)) :
    occupied (slots.set i none) + 1 = occupied slots := by
  obtain ⟨inside, at_⟩ := List.getElem?_eq_some_iff.mp held
  have positive : 0 < occupied slots :=
    List.countP_pos_iff.mpr ⟨some a, List.mem_of_getElem? held, rfl⟩
  simp only [occupied] at positive ⊢
  rw [List.countP_set inside, at_]
  simp
  omega

section Holds

variable [DecidableEq α]

theorem holds_pos (held : slots[i]? = some (some a)) : 0 < holds slots a :=
  List.count_pos_iff.mpr (List.mem_of_getElem? held)

theorem holds_set_some (free : slots[i]? = some none) (a b : α) :
    holds (slots.set i (some a)) b = holds slots b + if b = a then 1 else 0 := by
  obtain ⟨inside, at_⟩ := List.getElem?_eq_some_iff.mp free
  rw [holds, List.count_set inside, at_]
  by_cases same : b = a
  · simp [same, holds]
  · simp [same, holds, Ne.symm same]

theorem holds_set_none (held : slots[i]? = some (some a)) (b : α) :
    holds (slots.set i none) b + (if b = a then 1 else 0) = holds slots b := by
  obtain ⟨inside, at_⟩ := List.getElem?_eq_some_iff.mp held
  rw [holds, List.count_set inside, at_]
  by_cases same : b = a
  · subst same
    have positive := holds_pos held
    simp only [holds] at positive ⊢
    simp
    omega
  · simp [same, holds, Ne.symm same]

/-- Another weight of one occupant counts once for each of its slots. -/
theorem weight_update (slots : List (Option α)) {w' : α → Nat} (same : ∀ b, b ≠ a → w' b = w b) :
    weight w' slots + holds slots a * w a = weight w slots + holds slots a * w' a := by
  induction slots with
  | nil => simp [weight, holds]
  | cons o rest ih =>
    simp only [weight, holds, List.map_cons, List.sum_cons, List.count_cons] at ih ⊢
    cases o with
    | none => simpa using ih
    | some b =>
      by_cases here : b = a
      · subst here
        simp only [beq_self_eq_true, if_true, Option.elim_some, Nat.add_mul, Nat.one_mul]
        omega
      · have other := same b here
        simp [here, other]
        omega

end Holds

/-! ## Cutting the table -/

section Take

variable {k : Nat} (beyond : ∀ j a, slots[j]? = some (some a) → j < k)

include beyond

private theorem drop_free : ∀ o ∈ slots.drop k, o = none := by
  intro o member
  obtain ⟨j, at_⟩ := List.mem_iff_getElem?.mp member
  rw [List.getElem?_drop] at at_
  cases o with
  | none => rfl
  | some a =>
    have below := beyond (k + j) a at_
    omega

/-- Slots that are all free can be cut off. -/
theorem weight_take : weight w (slots.take k) = weight w slots := by
  have rest : ((slots.drop k).map fun o => o.elim 0 w).sum = 0 := by
    rw [List.eq_replicate_of_mem (drop_free beyond)]
    simp
  rw [weight, weight]
  conv => rhs; rw [← List.take_append_drop k slots, List.map_append, List.sum_append, rest]
  rfl

theorem occupied_take : occupied (slots.take k) = occupied slots := by
  have rest : (slots.drop k).countP Option.isSome = 0 :=
    List.countP_eq_zero.mpr fun o member => by simp [drop_free beyond o member]
  rw [occupied, occupied]
  conv => rhs; rw [← List.take_append_drop k slots, List.countP_append, rest]
  rfl

theorem holds_take [DecidableEq α] (a : α) : holds (slots.take k) a = holds slots a := by
  have rest : (slots.drop k).count (some a) = 0 :=
    List.count_eq_zero.mpr fun member => by cases drop_free beyond _ member
  rw [holds, holds]
  conv => rhs; rw [← List.take_append_drop k slots, List.count_append, rest]
  rfl

end Take

/-! ## Another length -/

/-- The table with another number of slots: the first ones are kept, and what the added ones
hold is given from outside. -/
def realloc (added : Nat → Option α) (n : Nat) (slots : List (Option α)) : List (Option α) :=
  slots.take n ++ (List.range (n - slots.length)).map added

theorem length_realloc (added : Nat → Option α) (n : Nat) : (realloc added n slots).length = n := by
  simp only [realloc, List.length_append, List.length_take, List.length_map, List.length_range]
  omega

/-- Slots of the old table are not touched. -/
theorem realloc_getElem? {added : Nat → Option α} {n j : Nat} (kept : j < n)
    (old : j < slots.length) : (realloc added n slots)[j]? = slots[j]? := by
  rw [realloc, List.getElem?_append_left (by rw [List.length_take]; omega),
    List.getElem?_take_of_lt kept]

/-- With no more slots than there were before, nothing is added. -/
theorem take_realloc {added : Nat → Option α} {n k : Nat} (fewer : k ≤ n)
    (within : k ≤ slots.length) : (realloc added n slots).take k = slots.take k := by
  rw [realloc, List.take_append_of_le_length (by rw [List.length_take]; omega), List.take_take,
    Nat.min_eq_left fewer]

/-- What a longer table holds was there before or was added. -/
theorem held_of_realloc {added : Nat → Option α} {n j : Nat}
    (held : (realloc added n slots)[j]? = some (some a)) :
    slots[j]? = some (some a) ∨ slots.length ≤ j ∧ j < n ∧ added (j - slots.length) = some a := by
  have short : j < n := by
    have inside := (List.getElem?_eq_some_iff.mp held).1
    rwa [length_realloc] at inside
  by_cases old : j < slots.length
  · exact .inl (by rwa [realloc_getElem? short old] at held)
  · refine .inr ⟨by omega, short, ?_⟩
    have position : j - (slots.take n).length = j - slots.length := by
      rw [List.length_take]
      omega
    rw [realloc, List.getElem?_append_right (by rw [List.length_take]; omega), position,
      List.getElem?_map, List.getElem?_range (by omega)] at held
    exact Option.some.inj held

/-! ## Searching -/

private theorem takeWhile_stops (l : List (Option α))
    (inside : (l.takeWhile Option.isSome).length < l.length) :
    l[(l.takeWhile Option.isSome).length]? = some none := by
  induction l with
  | nil => exact absurd inside (Nat.lt_irrefl 0)
  | cons o rest ih =>
    cases o with
    | none => rfl
    | some a => exact ih (by simpa using inside)

private theorem takeWhile_length_le {l : List (Option α)} {j : Nat} (free : l[j]? = some none) :
    (l.takeWhile Option.isSome).length ≤ j := by
  induction l generalizing j with
  | nil => cases free
  | cons o rest ih =>
    cases o with
    | none => exact Nat.zero_le j
    | some a =>
      cases j with
      | zero => cases free
      | succ j => exact Nat.succ_le_succ (ih free)

/-- The search stops at a free slot. -/
theorem freeFrom_free (inside : freeFrom slots i < slots.length) :
    slots[freeFrom slots i]? = some none := by
  rw [freeFrom, ← List.getElem?_drop]
  refine takeWhile_stops _ ?_
  rw [List.length_drop]
  unfold freeFrom at inside
  omega

/-- The search does not pass a free slot. -/
theorem freeFrom_le {j : Nat} (from_ : i ≤ j) (free : slots[j]? = some none) :
    freeFrom slots i ≤ j := by
  have at_ : (slots.drop i)[j - i]? = some none := by
    rw [List.getElem?_drop, Nat.add_sub_cancel' from_, free]
  have short := takeWhile_length_le at_
  unfold freeFrom
  omega

/-- A table whose first slots are all taken holds at least as many. -/
theorem le_occupied {m : Nat} (taken : ∀ j < m, ∃ a, slots[j]? = some (some a)) :
    m ≤ occupied slots := by
  induction slots generalizing m with
  | nil =>
    rcases Nat.eq_zero_or_pos m with rfl | positive
    · exact Nat.zero_le _
    · obtain ⟨a, at_⟩ := taken 0 positive
      cases at_
  | cons o rest ih =>
    cases m with
    | zero => exact Nat.zero_le _
    | succ m =>
      obtain ⟨a, at_⟩ := taken 0 (Nat.succ_pos m)
      cases Option.some.inj at_
      have shorter := ih fun j below => taken (j + 1) (Nat.succ_lt_succ below)
      simp only [occupied, List.countP_cons, Option.isSome_some, if_true] at shorter ⊢
      omega

/-- A table without occupants from a position on holds at most as many. -/
theorem occupied_le {m : Nat} (beyond : ∀ j a, slots[j]? = some (some a) → j < m) :
    occupied slots ≤ m := by
  induction slots generalizing m with
  | nil => exact Nat.zero_le m
  | cons o rest ih =>
    have shorter : occupied rest ≤ m - 1 := ih fun j a at_ => by
      have below := beyond (j + 1) a at_
      omega
    cases o with
    | none =>
      have same : occupied (none :: rest) = occupied rest := by simp [occupied]
      omega
    | some a =>
      have below := beyond 0 a rfl
      have more : occupied (some a :: rest) = occupied rest + 1 := by simp [occupied]
      omega

/-- Where all occupants are one, its slots are the occupied ones. -/
theorem occupied_eq_holds [DecidableEq α] (only : ∀ (i : Nat) (b : α), slots[i]? = some (some b) → b = a) :
    occupied slots = holds slots a := by
  unfold occupied holds List.count
  apply List.countP_congr
  intro o member
  obtain ⟨i, at_⟩ := List.mem_iff_getElem?.mp member
  cases o with
  | none => simp
  | some b => simp [only i b at_]

theorem holds_le_occupied [DecidableEq α] (slots : List (Option α)) (a : α) :
    holds slots a ≤ occupied slots := by
  apply List.countP_mono_left
  intro o _ equal
  rw [eq_of_beq equal]
  rfl

/-- A table with occupied slots has an occupant. -/
theorem exists_of_occupied_pos (positive : 0 < occupied slots) :
    ∃ (i : Nat) (b : α), slots[i]? = some (some b) := by
  obtain ⟨o, member, isSome⟩ := List.countP_pos_iff.mp positive
  obtain ⟨i, at_⟩ := List.mem_iff_getElem?.mp member
  obtain ⟨b, rfl⟩ := Option.isSome_iff_exists.mp isSome
  exact ⟨i, b, at_⟩

/-- Each occupied slot adds at most the greatest weight. -/
theorem weight_le {bound : Nat} (small : ∀ a, w a ≤ bound) :
    weight w slots ≤ occupied slots * bound := by
  induction slots with
  | nil => simp [weight, occupied]
  | cons o rest ih =>
    cases o with
    | none => simpa [weight, occupied] using ih
    | some a =>
      have more : occupied (some a :: rest) = occupied rest + 1 := by simp [occupied]
      have split : weight w (some a :: rest) = w a + weight w rest := by simp [weight]
      rw [more, split, Nat.add_mul, Nat.one_mul]
      have one := small a
      omega

end Swam.Lib.Slots
