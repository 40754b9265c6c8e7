import Mathlib.Algebra.Order.Ring.Int
import Mathlib.Logic.Basic

/-! # Loops with a bound on their rounds -/
namespace Swam.Lib

variable {S : Type}

/-- `while`: `none` when the loop still runs after the given number of rounds. -/
def whileLoop (cond : S → Bool) (body : S → S) : Nat → S → Option S
  | 0, s => if cond s then none else some s
  | fuel + 1, s => if cond s then whileLoop cond body fuel (body s) else some s

variable {cond : S → Bool} {body : S → S}

theorem whileLoop_stopped {s : S} (stopped : cond s = false) (fuel : Nat) :
    whileLoop cond body fuel s = some s := by
  cases fuel <;> simp [whileLoop, stopped]

/-- More rounds than needed change nothing. -/
theorem whileLoop_mono {fuel fuel' : Nat} {s s' : S} (run : whileLoop cond body fuel s = some s')
    (more : fuel ≤ fuel') : whileLoop cond body fuel' s = some s' := by
  induction fuel generalizing fuel' s with
  | zero =>
    cases runs : cond s with
    | true => simp [whileLoop, runs] at run
    | false =>
      rw [whileLoop_stopped runs] at run ⊢
      exact run
  | succ fuel ih =>
    cases runs : cond s with
    | false =>
      rw [whileLoop_stopped runs] at run ⊢
      exact run
    | true =>
      cases fuel' with
      | zero => omega
      | succ fuel' =>
        rw [whileLoop, if_pos runs] at run ⊢
        exact ih run (by omega)

/-- A loop with an invariant and a measure that every round decreases ends, in a state where
the invariant holds and the condition does not. -/
theorem whileLoop_ends {inv : S → Prop} {measure : S → Nat}
    (round : ∀ s, inv s → cond s = true → inv (body s) ∧ measure (body s) < measure s)
    (fuel : Nat) (s : S) (holds : inv s) (bound : measure s ≤ fuel) :
    ∃ s', whileLoop cond body fuel s = some s' ∧ inv s' ∧ cond s' = false := by
  induction fuel generalizing s with
  | zero =>
    have stopped : cond s = false := by
      rw [← Bool.not_eq_true]
      intro runs
      have := (round s holds runs).2
      omega
    exact ⟨s, whileLoop_stopped stopped 0, holds, stopped⟩
  | succ fuel ih =>
    cases runs : cond s with
    | false => exact ⟨s, whileLoop_stopped runs _, holds, runs⟩
    | true =>
      obtain ⟨holds', less⟩ := round s holds runs
      rw [whileLoop, if_pos runs]
      exact ih (body s) holds' (by omega)

/-! ## Loops that are left early -/

/-- How a round ends: the next one follows, `break`, or `return` from the function around the
loop. -/
inductive Round (R S : Type) where
  | next (s : S)
  | leave (s : S)
  | stop (r : R)

variable {R : Type}

/-- What a round has to reach in each of its endings. -/
def Round.Ends (next done : S → Prop) (stopped : R → Prop) : Round R S → Prop
  | .next s => next s
  | .leave s => done s
  | .stop r => stopped r

/-- What the code after a loop may rely on. -/
def Finishes (done : S → Prop) (stopped : R → Prop) (x : Option (Except R S)) : Prop :=
  ∃ result, x = some result ∧ match result with
    | .ok s => done s
    | .error r => stopped r

/-- `while` with rounds of this kind; `none` when the rounds given do not suffice, here or in
a loop inside the body. -/
def roundLoop (cond : S → Bool) (body : S → Option (Round R S)) : Nat → S → Option (Except R S)
  | 0, s => if cond s then none else some (.ok s)
  | fuel + 1, s =>
    if cond s then
      match body s with
      | none => none
      | some (.next s') => roundLoop cond body fuel s'
      | some (.leave s') => some (.ok s')
      | some (.stop r) => some (.error r)
    else some (.ok s)

/-- The rule of `whileLoop_ends` for loops that are left early: a round keeps the invariant
and decreases the measure, or it establishes what holds after the loop or after the `return`. -/
theorem roundLoop_finishes {cond : S → Bool} {body : S → Option (Round R S)}
    (inv : S → Prop) (measure : S → Nat) {done : S → Prop} {stopped : R → Prop}
    (exit : ∀ s, inv s → cond s = false → done s)
    (round : ∀ s, inv s → cond s = true → ∃ ending, body s = some ending ∧
      ending.Ends (fun s' => inv s' ∧ measure s' < measure s) done stopped)
    (fuel : Nat) (s : S) (holds : inv s) (bound : measure s < fuel) :
    Finishes done stopped (roundLoop cond body fuel s) := by
  induction fuel generalizing s with
  | zero => exact absurd bound (Nat.not_lt_zero _)
  | succ fuel ih =>
    cases runs : cond s with
    | false => exact ⟨.ok s, by simp [roundLoop, runs], exit s holds runs⟩
    | true =>
      obtain ⟨ending, equal, ends⟩ := round s holds runs
      rw [roundLoop, if_pos runs, equal]
      cases ending with
      | next s' => exact ih s' ends.1 (by have := ends.2; omega)
      | leave s' => exact ⟨.ok s', rfl, ends⟩
      | stop r => exact ⟨.error r, rfl, ends⟩

/-! ## Loops over a list -/

/-- What holds after a computation that may return early. -/
def Leaves (done : S → Prop) (stopped : R → Prop) : Except R S → Prop
  | .ok s => done s
  | .error r => stopped r

theorem Leaves.mono {done done' : S → Prop} {stopped : R → Prop} {x : Except R S}
    (leaves : Leaves done stopped x) (weaker : ∀ s, done s → done' s) : Leaves done' stopped x := by
  cases x with
  | ok s => exact weaker s leaves
  | error r => exact leaves

theorem Leaves.mono_stopped {done : S → Prop} {stopped stopped' : R → Prop}
    {x : Except R S} (leaves : Leaves done stopped x) (weaker : ∀ r, stopped r → stopped' r) :
    Leaves done stopped' x := by
  cases x with
  | ok s => exact leaves
  | error r => exact weaker r leaves

theorem Leaves.bind {T : Type} {done : S → Prop} {done' : T → Prop} {stopped : R → Prop}
    {x : Except R S} {f : S → Except R T} (leaves : Leaves done stopped x)
    (next : ∀ s, done s → Leaves done' stopped (f s)) : Leaves done' stopped (x >>= f) := by
  cases x with
  | ok s => exact next s leaves
  | error r => exact leaves

/-- The invariant of a loop over a list speaks of the elements done. -/
theorem foldlM_leaves {α : Type} (inv : List α → S → Prop) {stopped : R → Prop}
    {f : S → α → Except R S} (l : List α)
    (step : ∀ pre a post, pre ++ a :: post = l → ∀ s, inv pre s →
      Leaves (inv (pre ++ [a])) stopped (f s a)) {s : S} (start : inv [] s) :
    Leaves (inv l) stopped (l.foldlM f s) := by
  suffices rest : ∀ post pre s, pre ++ post = l → inv pre s →
      Leaves (inv l) stopped (post.foldlM f s) from rest l [] s rfl start
  intro post
  induction post with
  | nil =>
    intro pre s whole holds
    rw [List.append_nil] at whole
    exact whole ▸ holds
  | cons a post ih =>
    intro pre s whole holds
    rw [List.foldlM_cons]
    exact (step pre a post whole s holds).bind fun s' holds' =>
      ih (pre ++ [a]) s' (by rw [List.append_assoc]; exact whole) holds'

/-- `for (i = 0; i < n; ++i)`. -/
theorem range_foldlM_leaves (inv : Nat → S → Prop) {stopped : R → Prop}
    {f : S → Nat → Except R S} (n : Nat)
    (step : ∀ i < n, ∀ s, inv i s → Leaves (inv (i + 1)) stopped (f s i)) {s : S}
    (start : inv 0 s) : Leaves (inv n) stopped ((List.range n).foldlM f s) := by
  have leaves : Leaves (inv (List.range n).length) stopped ((List.range n).foldlM f s) := by
    refine foldlM_leaves (fun pre => inv pre.length) (List.range n) ?_ start
    intro pre a post whole s holds
    have size := congrArg List.length whole
    have here := congrArg (·[pre.length]?) whole
    simp only [List.length_append, List.length_cons, List.length_range] at size
    simp only [List.getElem?_append_right (Nat.le_refl _), Nat.sub_self, List.getElem?_cons_zero,
      List.getElem?_range (show pre.length < n by omega), Option.some.injEq] at here
    rw [List.length_append, here]
    exact step pre.length (by omega) s holds
  rw [List.length_range] at leaves
  exact leaves

end Swam.Lib
