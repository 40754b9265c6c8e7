import Mathlib.Algebra.Order.Ring.Int
import Mathlib.Logic.Basic

/-!
# State-passing computations that may stop

A run of an `EStateM` computation ends with a result or stops with an error, and in both
cases it leaves a state behind. `Ends` says what holds there. `Keeps` is the case of relations
between the first and the last state, which chain along the steps of a computation.
-/
namespace Swam.Lib

variable {ε σ τ α β : Type}

/-- What holds at the end of the run from a state. -/
def Ends (x : EStateM ε σ α) (s : σ) (done : α → σ → Prop) (stopped : ε → σ → Prop) : Prop :=
  match x s with
  | .ok a t => done a t
  | .error e t => stopped e t

section
variable {x : EStateM ε σ α} {f : α → EStateM ε σ β} {s : σ} {done : α → σ → Prop}
  {after : β → σ → Prop} {stopped : ε → σ → Prop}

@[simp] theorem ends_pure (a : α) : Ends (pure a : EStateM ε σ α) s done stopped ↔ done a s :=
  Iff.rfl

@[simp] theorem ends_throw (e : ε) : Ends (throw e : EStateM ε σ α) s done stopped ↔ stopped e s :=
  Iff.rfl

@[simp] theorem ends_get {done : σ → σ → Prop} :
    Ends (get : EStateM ε σ σ) s done stopped ↔ done s s :=
  Iff.rfl

@[simp] theorem ends_modify (g : σ → σ) {done : PUnit → σ → Prop} :
    Ends (modify g : EStateM ε σ PUnit) s done stopped ↔ done ⟨⟩ (g s) :=
  Iff.rfl

@[simp] theorem ends_set (t : σ) {done : PUnit → σ → Prop} :
    Ends (set t : EStateM ε σ PUnit) s done stopped ↔ done ⟨⟩ t :=
  Iff.rfl

/-- The second computation starts where the first one ends. -/
@[simp] theorem ends_bind :
    Ends (x >>= f) s after stopped ↔ Ends x s (fun a t => Ends (f a) t after stopped) stopped := by
  simp only [Ends, bind, EStateM.bind]
  cases x s <;> rfl

@[simp] theorem ends_ite (c : Prop) [Decidable c] (y : EStateM ε σ α) :
    Ends (if c then x else y) s done stopped ↔
      (c → Ends x s done stopped) ∧ (¬ c → Ends y s done stopped) := by
  split
  next holds => simp [holds]
  next fails => simp [fails]

theorem Ends.mono {done' : α → σ → Prop} {stopped' : ε → σ → Prop}
    (ends : Ends x s done stopped) (result : ∀ a t, done a t → done' a t)
    (error : ∀ e t, stopped e t → stopped' e t) : Ends x s done' stopped' := by
  unfold Ends at ends ⊢
  split at ends
  · exact result _ _ ends
  · exact error _ _ ends

theorem Ends.and {done' : α → σ → Prop} {stopped' : ε → σ → Prop}
    (first : Ends x s done stopped) (second : Ends x s done' stopped') :
    Ends x s (fun a t => done a t ∧ done' a t) (fun e t => stopped e t ∧ stopped' e t) := by
  unfold Ends at *
  split at first
  next equal =>
    rw [equal] at second
    exact ⟨first, second⟩
  next equal =>
    rw [equal] at second
    exact ⟨first, second⟩

theorem ends_self (x : EStateM ε σ α) (s : σ) :
    Ends x s (fun a t => x s = .ok a t) fun e t => x s = .error e t := by
  unfold Ends
  split
  next run => exact run
  next run => exact run

theorem Ends.ok {a : α} {t : σ} (ends : Ends x s done stopped) (run : x s = .ok a t) :
    done a t := by
  simpa [Ends, run] using ends

theorem Ends.error {e : ε} {t : σ} (ends : Ends x s done stopped) (run : x s = .error e t) :
    stopped e t := by
  simpa [Ends, run] using ends

end

/-- The error a run stops with. -/
def stop? (x : EStateM ε σ α) (s : σ) : Option ε :=
  match x s with
  | .ok _ _ => none
  | .error e _ => some e

/-! ## Relations between the first and the last state -/

/-- A relation between states that can be chained, and one for the runs that stop. -/
structure Chains (R : σ → σ → Prop) (E : σ → ε → σ → Prop) : Prop where
  refl : ∀ s, R s s
  trans : ∀ {s t u}, R s t → R t u → R s u
  stop : ∀ {s t e u}, R s t → E t e u → E s e u

/-- Every run relates the state it ends in to the one it starts from. -/
def Keeps (R : σ → σ → Prop) (E : σ → ε → σ → Prop) (x : EStateM ε σ α) : Prop :=
  ∀ s, Ends x s (fun _ t => R s t) (E s)

namespace Keeps

variable {R : σ → σ → Prop} {E : σ → ε → σ → Prop} {x : EStateM ε σ α} {f : α → EStateM ε σ β}

theorem ite {c : Prop} [Decidable c] {y : EStateM ε σ α} (yes : c → Keeps R E x)
    (no : ¬ c → Keeps R E y) : Keeps R E (if c then x else y) := by
  split
  next holds => exact yes holds
  next fails => exact no fails

variable (chains : Chains R E)
include chains

theorem pure (a : α) : Keeps R E (pure a : EStateM ε σ α) := fun s => chains.refl s

theorem get : Keeps R E (get : EStateM ε σ σ) := fun s => chains.refl s

theorem bind (first : Keeps R E x) (rest : ∀ a, Keeps R E (f a)) : Keeps R E (x >>= f) := by
  intro s
  rw [ends_bind]
  apply (first s).mono
  · intro a t toward
    exact (rest a t).mono (fun _ _ onward => chains.trans toward onward)
      (fun _ _ onward => chains.stop toward onward)
  · exact fun _ _ stopped => stopped

end Keeps

/-- What follows a computation that keeps a relation may start from it. -/
theorem Ends.bind_keeps {R : σ → σ → Prop} {E : σ → ε → σ → Prop} {x : EStateM ε σ α}
    {f : α → EStateM ε σ β} {s : σ} {done : β → σ → Prop} {stopped : ε → σ → Prop}
    (first : Keeps R E x) (rest : ∀ a t, R s t → Ends (f a) t done stopped)
    (error : ∀ e t, E s e t → stopped e t) : Ends (x >>= f) s done stopped :=
  ends_bind.mpr ((first s).mono (fun a t related => rest a t related) error)

/-! ## Errors that do not occur -/

/-- The run may stop, but not with the error. -/
def Avoids (e : ε) (x : EStateM ε σ α) (s : σ) : Prop :=
  Ends x s (fun _ _ => True) fun e' _ => e' ≠ e

namespace Avoids

variable {e : ε} {x : EStateM ε σ α} {f : α → EStateM ε σ β} {s : σ}

/-- Both computations avoid the error, the second one where the first one ends. -/
theorem bind_iff : Avoids e (x >>= f) s ↔ Avoids e x s ∧ ∀ a t, x s = .ok a t → Avoids e (f a) t := by
  rw [Avoids, ends_bind]
  constructor
  · intro ends
    refine ⟨ends.mono (fun _ _ _ => trivial) fun _ _ differ => differ, ?_⟩
    intro a t run
    exact ends.ok run
  · rintro ⟨first, second⟩
    exact (first.and (ends_self x s)).mono (fun a t known => second a t known.2) fun _ _ known => known.1

/-- The second computation avoids the error wherever it starts. -/
theorem bind_iff_first (second : ∀ a t, Avoids e (f a) t) : Avoids e (x >>= f) s ↔ Avoids e x s :=
  bind_iff.trans (and_iff_left fun a t _ => second a t)

/-- The first computation avoids the error. -/
theorem bind_iff_rest (first : Avoids e x s) :
    Avoids e (x >>= f) s ↔ ∀ a t, x s = .ok a t → Avoids e (f a) t :=
  bind_iff.trans (and_iff_right first)

/-- The first computation has a result. -/
theorem bind_iff_second {a : α} {t : σ} (run : x s = .ok a t) :
    Avoids e (x >>= f) s ↔ Avoids e (f a) t := by
  rw [bind_iff, run]
  constructor
  · exact fun both => both.2 a t rfl
  · intro after
    refine ⟨?_, ?_⟩
    · rw [Avoids, Ends, run]
      trivial
    · rintro _ _ ⟨⟩
      exact after

theorem get_iff {f : σ → EStateM ε σ β} : Avoids e (get >>= f) s ↔ Avoids e (f s) s := Iff.rfl

theorem modify_iff {g : σ → σ} {f : PUnit → EStateM ε σ β} :
    Avoids e (modify g >>= f) s ↔ Avoids e (f ⟨⟩) (g s) :=
  Iff.rfl

theorem pure (a : α) : Avoids e (pure a : EStateM ε σ α) s := trivial

theorem ite_iff {c : Prop} [Decidable c] {y : EStateM ε σ α} :
    Avoids e (if c then x else y) s ↔ (c → Avoids e x s) ∧ (¬ c → Avoids e y s) :=
  ends_ite c y

/-- What is known of every stop of a computation is known of its runs. -/
theorem of_keeps {R : σ → σ → Prop} (kept : Keeps R (fun _ e' _ => e' ≠ e) x) : Avoids e x s :=
  (kept s).mono (fun _ _ _ => trivial) fun _ _ differ => differ

end Avoids

/-- Two runs that start with the same computation differ at most in what follows it. -/
theorem run_bind_congr {x : EStateM ε σ α} {f g : α → EStateM ε σ β} {s : σ}
    (rest : ∀ a t, x s = .ok a t → f a t = g a t) : (x >>= f) s = (x >>= g) s := by
  simp only [bind, EStateM.bind]
  cases run : x s with
  | ok a t => exact rest a t run
  | error e t => rfl

/-- A run with a result passes through a result of the first computation. -/
theorem run_bind_ok {x : EStateM ε σ α} {f : α → EStateM ε σ β} {s u : σ} {b : β}
    (run : (x >>= f) s = .ok b u) : ∃ a t, x s = .ok a t ∧ f a t = .ok b u := by
  simp only [bind, EStateM.bind] at run
  cases first : x s with
  | ok a t =>
    rw [first] at run
    exact ⟨a, t, rfl, run⟩
  | error e t =>
    rw [first] at run
    cases run

/-! ## Computations that give up early -/

/-- The second computation does what the first one does, unless that stops with the error. -/
def Continues (e : ε) (x y : EStateM ε σ α) : Prop := ∀ s, x s = y s ∨ ∃ t, x s = .error e t

namespace Continues

variable {e : ε} {x y : EStateM ε σ α} {f g : α → EStateM ε σ β}

theorem refl (x : EStateM ε σ α) : Continues e x x := fun _ => .inl rfl

theorem throw (y : EStateM ε σ α) : Continues e (throw e) y := fun s => .inr ⟨s, rfl⟩

theorem trans {z : EStateM ε σ α} (first : Continues e x y) (second : Continues e y z) :
    Continues e x z := by
  intro s
  rcases first s with same | stopped
  · rw [same]
    exact second s
  · exact .inr stopped

theorem bind (first : Continues e x y) (rest : ∀ a, Continues e (f a) (g a)) :
    Continues e (x >>= f) (y >>= g) := by
  intro s
  rcases first s with same | ⟨t, stopped⟩
  · simp only [Bind.bind, EStateM.bind, same]
    cases y s with
    | ok a t => exact rest a t
    | error e' t => exact .inl rfl
  · refine .inr ⟨t, ?_⟩
    simp only [Bind.bind, EStateM.bind, stopped]

theorem rest (x : EStateM ε σ α) (later : ∀ a, Continues e (f a) (g a)) :
    Continues e (x >>= f) (x >>= g) := bind (refl x) later

theorem ite {c : Prop} [Decidable c] {x' y' : EStateM ε σ α} (yes : c → Continues e x x')
    (no : ¬ c → Continues e y y') : Continues e (if c then x else y) (if c then x' else y') := by
  split
  next holds => exact yes holds
  next fails => exact no fails

/-- Where the first computation does not stop with the error, the second one does the same. -/
theorem eq {s : σ} (continues : Continues e x y) (avoids : Avoids e x s) : x s = y s := by
  rcases continues s with same | ⟨t, stopped⟩
  · exact same
  · exact absurd rfl (Ends.error avoids stopped)

end Continues

/-! ## Properties of the result -/

/-- Every result has the property, whatever the state. -/
def Returns (x : EStateM ε σ α) (P : α → Prop) : Prop :=
  ∀ s, Ends x s (fun a _ => P a) fun _ _ => True

namespace Returns

variable {x : EStateM ε σ α} {f : α → EStateM ε σ β} {P : α → Prop} {Q : β → Prop}

theorem any : Returns x fun _ => True := by
  intro s
  unfold Ends
  split <;> trivial

theorem pure {a : α} (holds : P a) : Returns (pure a : EStateM ε σ α) P := fun _ => holds

theorem throw (e : ε) : Returns (throw e : EStateM ε σ α) P := fun _ => trivial

theorem bind (first : Returns x P) (rest : ∀ a, P a → Returns (f a) Q) : Returns (x >>= f) Q := by
  intro s
  rw [ends_bind]
  exact (first s).mono (fun a t holds => rest a holds t) fun _ _ _ => trivial

theorem ite {c : Prop} [Decidable c] {y : EStateM ε σ α} (yes : c → Returns x P)
    (no : ¬ c → Returns y P) : Returns (if c then x else y) P := by
  split
  next holds => exact yes holds
  next fails => exact no fails

end Returns

end Swam.Lib
