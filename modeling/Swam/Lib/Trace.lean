import Mathlib.Algebra.Order.Ring.Int

/-!
# Runs of a labelled transition system

A run is recorded as the list of its labels, the most recent first.
-/
namespace Swam.Lib

universe u v

variable {S : Type u} {L : Type v} {init : S → Prop} {step : S → L → S → Prop}

/-- Finite runs from an initial state. -/
inductive Trace (init : S → Prop) (step : S → L → S → Prop) : List L → S → Prop
  | start {s} (initial : init s) : Trace init step [] s
  | next {ls s l s'} (past : Trace init step ls s) (now : step s l s') :
      Trace init step (l :: ls) s'

namespace Trace

/-- A property of labels and state that holds initially and is kept by every step
holds of every run. -/
theorem history {P : List L → S → Prop} (initial : ∀ s, init s → P [] s)
    (kept : ∀ ls s l s', P ls s → step s l s' → P (l :: ls) s') {ls : List L} {s : S}
    (run : Trace init step ls s) : P ls s := by
  induction run with
  | start h => exact initial _ h
  | next _ now ih => exact kept _ _ _ _ ih now

/-- The invariant rule. -/
theorem invariant {I : S → Prop} (initial : ∀ s, init s → I s)
    (kept : ∀ s l s', I s → step s l s' → I s') {ls : List L} {s : S}
    (run : Trace init step ls s) : I s :=
  run.history (P := fun _ s => I s) initial fun _ s l s' h now => kept s l s' h now

/-- Every earlier point of a run is the end of a run. -/
theorem earlier {ls pre : List L} {s : S} (run : Trace init step (pre ++ ls) s) :
    ∃ s', Trace init step ls s' := by
  induction pre generalizing s with
  | nil => exact ⟨s, run⟩
  | cons l pre ih =>
    cases run with
    | next past _ => exact ih past

end Trace

end Swam.Lib
