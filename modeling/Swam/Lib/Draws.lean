import Mathlib.Algebra.BigOperators.Field
import Mathlib.Algebra.Order.Ring.Int
import Mathlib.Data.Rat.Cast.Order
import Mathlib.Tactic.FieldSimp
import Mathlib.Tactic.Ring

/-!
# Uniform draws

A computation that draws numbers below given limits, one after the other, has finitely many
runs. The chance of an event is the share of the vectors of draws that lead to it.
-/
namespace Swam.Lib

/-- All vectors of draws below the limits. -/
def drawVectors : List Nat → List (List Nat)
  | [] => [[]]
  | limit :: rest => (List.range limit).flatMap fun draw => (drawVectors rest).map (draw :: ·)

theorem mem_drawVectors {limits v : List Nat} : v ∈ drawVectors limits ↔ List.Forall₂ (· < ·) v limits := by
  induction limits generalizing v with
  | nil => simp [drawVectors]
  | cons limit rest ih =>
    simp only [drawVectors, List.mem_flatMap, List.mem_range, List.mem_map, List.forall₂_cons_right_iff]
    constructor
    · rintro ⟨draw, below, w, among, rfl⟩
      exact ⟨draw, w, below, ih.mp among, rfl⟩
    · rintro ⟨draw, w, below, each, rfl⟩
      exact ⟨draw, below, w, ih.mpr each, rfl⟩

theorem length_drawVectors (limits : List Nat) : (drawVectors limits).length = limits.prod := by
  induction limits with
  | nil => rfl
  | cons limit rest ih => simp [drawVectors, List.length_flatMap, ih]

/-- The share of the vectors of draws with which something happens. -/
def chance (limits : List Nat) (event : List Nat → Bool) : ℚ :=
  (drawVectors limits).countP event / (drawVectors limits).length

theorem chance_nil (event : List Nat → Bool) : chance [] event = if event [] then 1 else 0 := by
  cases holds : event [] <;> simp [chance, drawVectors, holds]

/-- The first draw is uniform below its limit. -/
theorem chance_cons (limit : Nat) (rest : List Nat) (event : List Nat → Bool) :
    chance (limit :: rest) event =
      (∑ draw ∈ Finset.range limit, chance rest fun v => event (draw :: v)) / limit := by
  have counted : (drawVectors (limit :: rest)).countP event =
      ∑ draw ∈ Finset.range limit, (drawVectors rest).countP fun v => event (draw :: v) := by
    rw [drawVectors]
    induction limit with
    | zero => rfl
    | succ limit ih =>
      rw [List.range_succ, List.flatMap_append, List.countP_append, ih, Finset.sum_range_succ]
      simp [List.countP_map, Function.comp_def]
  rw [chance, length_drawVectors, List.prod_cons, counted]
  simp only [chance, length_drawVectors]
  rw [← Finset.sum_div, div_div]
  push_cast
  rw [mul_comm]

theorem chance_congr {limits : List Nat} {event event' : List Nat → Bool}
    (same : ∀ v, List.Forall₂ (· < ·) v limits → event v = event' v) :
    chance limits event = chance limits event' := by
  rw [chance, chance]
  congr 2
  apply List.countP_congr
  intro v among
  rw [same v (mem_drawVectors.mp among)]

theorem nodup_drawVectors (limits : List Nat) : (drawVectors limits).Nodup := by
  induction limits with
  | nil => simp [drawVectors]
  | cons limit rest ih =>
    rw [drawVectors, List.nodup_flatMap]
    constructor
    · intro draw _
      exact ih.map (List.cons_injective)
    · apply List.nodup_range.imp
      intro a b different v inA inB
      obtain ⟨_, _, rfl⟩ := List.mem_map.mp inA
      obtain ⟨_, _, same⟩ := List.mem_map.mp inB
      exact different (List.cons.inj same).1.symm

/-- What happens with one vector only has one share. -/
theorem chance_eq_inv {limits : List Nat} {event : List Nat → Bool} {v : List Nat}
    (among : List.Forall₂ (· < ·) v limits) (happens : event v = true)
    (only : ∀ w, List.Forall₂ (· < ·) w limits → event w = true → w = v) :
    chance limits event = 1 / limits.prod := by
  have single : (drawVectors limits).countP event = 1 := by
    rw [← List.count_eq_one_of_mem (nodup_drawVectors limits) (mem_drawVectors.mpr among)]
    apply List.countP_congr
    intro w inside
    simp only [beq_iff_eq]
    constructor
    · exact only w (mem_drawVectors.mp inside)
    · rintro rfl
      exact happens
  rw [chance, length_drawVectors, single, Nat.cast_one]

/-! ## Draws reduced from a wider range -/

/-- Over a whole number of periods every remainder is met equally often. -/
theorem sum_range_mod (f : Nat → ℚ) (limit periods : Nat) :
    ∑ draw ∈ Finset.range (limit * periods), f (draw % limit) =
      periods * ∑ draw ∈ Finset.range limit, f draw := by
  induction periods with
  | zero => simp
  | succ periods ih =>
    have last : ∑ draw ∈ Finset.range limit, f ((limit * periods + draw) % limit) =
        ∑ draw ∈ Finset.range limit, f draw := by
      apply Finset.sum_congr rfl
      intro draw inside
      rw [Nat.mul_add_mod, Nat.mod_eq_of_lt (Finset.mem_range.mp inside)]
    rw [Nat.mul_succ, Finset.sum_range_add, ih, last]
    push_cast
    ring

/-- Draws below multiples of the limits, reduced below the limits, are uniform again. -/
theorem chance_mod {limits bounds : List Nat} (event : List Nat → Bool)
    (multiples : List.Forall₂ (fun limit bound => 0 < bound ∧ limit ∣ bound) limits bounds) :
    chance bounds (fun v => event (List.zipWith (· % ·) v limits)) = chance limits event := by
  induction multiples generalizing event with
  | nil => simp [chance_nil]
  | @cons limit bound rest bounds first _ ih =>
    obtain ⟨positive, periods, rfl⟩ := first
    have reduced (draw : Nat) :
        chance bounds (fun v => event (List.zipWith (· % ·) (draw :: v) (limit :: rest))) =
          chance rest fun v => event (draw % limit :: v) := by
      simp only [List.zipWith_cons_cons]
      exact ih fun v => event (draw % limit :: v)
    rw [chance_cons, chance_cons]
    simp only [reduced]
    rw [sum_range_mod (fun draw => chance rest fun v => event (draw :: v))]
    have nonzero : (periods : ℚ) ≠ 0 := by exact_mod_cast (Nat.pos_of_mul_pos_left positive).ne'
    push_cast
    rw [mul_comm (limit : ℚ), mul_div_mul_left _ _ nonzero]

end Swam.Lib
