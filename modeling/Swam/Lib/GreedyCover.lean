import Mathlib.Algebra.Order.Ring.Int
import Mathlib.Data.List.Induction

/-!
# Greedy covers

Points are visited in turn. A point that no chosen set covers yet adds its contender to the
choice, if it has one.
-/
namespace Swam.Lib

variable {ι κ : Type*} (covers : κ → ι → Prop)

/-- No chosen set covers the point. -/
def Uncovered (chosen : List κ) (i : ι) : Prop := ∀ k ∈ chosen, ¬ covers k i

variable [∀ k i, Decidable (covers k i)] (contender : ι → Option κ)

instance (chosen : List κ) (i : ι) : Decidable (Uncovered covers chosen i) :=
  inferInstanceAs (Decidable (∀ k ∈ chosen, ¬ covers k i))

def greedyStep (chosen : List κ) (i : ι) : List κ :=
  if Uncovered covers chosen i then chosen ++ (contender i).toList else chosen

def greedyCover (points : List ι) : List κ := points.foldl (greedyStep covers contender) []

variable {covers contender}

theorem greedyCover_concat (points : List ι) (i : ι) :
    greedyCover covers contender (points ++ [i]) =
      greedyStep covers contender (greedyCover covers contender points) i := by
  rw [greedyCover, List.foldl_append]
  rfl

theorem mem_greedyStep {chosen : List κ} {i : ι} {k : κ} :
    k ∈ greedyStep covers contender chosen i ↔
      k ∈ chosen ∨ Uncovered covers chosen i ∧ contender i = some k := by
  unfold greedyStep
  split
  next uncovered => simp [uncovered]
  next covered => simp [covered]

/-- A chosen set was the contender of a point that was uncovered when visited. -/
theorem greedyCover_chosen {points : List ι} {k : κ}
    (chosen : k ∈ greedyCover covers contender points) :
    ∃ before i after, points = before ++ i :: after ∧
      Uncovered covers (greedyCover covers contender before) i ∧ contender i = some k := by
  induction points using List.reverseRecOn with
  | nil => cases chosen
  | append_singleton points i ih =>
    rw [greedyCover_concat, mem_greedyStep] at chosen
    rcases chosen with earlier | ⟨uncovered, here⟩
    · obtain ⟨before, j, after, split, at_⟩ := ih earlier
      exact ⟨before, j, after ++ [i], by simp [split], at_⟩
    · exact ⟨points, i, [], rfl, uncovered, here⟩

/-- Nothing is taken back. -/
theorem greedyCover_subset (before after : List ι) :
    greedyCover covers contender before ⊆ greedyCover covers contender (before ++ after) := by
  induction after using List.reverseRecOn with
  | nil => simp
  | append_singleton after i ih =>
    rw [← List.append_assoc, greedyCover_concat]
    exact fun k earlier => mem_greedyStep.mpr (.inl (ih earlier))

/-- A visited point is covered when its contender covers it, should it be chosen. -/
theorem greedyCover_covers {before after : List ι} {i : ι}
    (own : Uncovered covers (greedyCover covers contender before) i →
      ∃ k, contender i = some k ∧ covers k i) :
    ∃ k ∈ greedyCover covers contender (before ++ i :: after), covers k i := by
  have later : greedyCover covers contender (before ++ [i]) ⊆
      greedyCover covers contender ((before ++ [i]) ++ after) := greedyCover_subset ..
  rw [List.append_assoc, List.singleton_append] at later
  by_cases uncovered : Uncovered covers (greedyCover covers contender before) i
  · obtain ⟨k, here, covered⟩ := own uncovered
    refine ⟨k, later ?_, covered⟩
    rw [greedyCover_concat, mem_greedyStep]
    exact .inr ⟨uncovered, here⟩
  · simp only [Uncovered, not_forall, not_not] at uncovered
    obtain ⟨k, chosen, covered⟩ := uncovered
    refine ⟨k, later ?_, covered⟩
    rw [greedyCover_concat, mem_greedyStep]
    exact .inl chosen

end Swam.Lib
