import Swam.Reshaping
import Swam.MutatorRules

/-!
# Steps between trees

A mutator draws, generates code, adds functions and allocates nodes before it touches a body.
Then it changes one node where it is, or puts a new subtree in its place. `Move` has these
three ways, and each of them leaves trees behind.
-/
namespace Swam

open Binaryen Mut Lib
open ExprRef (occ occAll occ_node occAll_append occ_le_occAll occ_place le_place findAll? writeAll)

/-- Nothing is asked of a run that stops. -/
def AnyStop : MutState → Stop → MutState → Prop := fun _ _ _ => True

/-! ## Before a body is touched -/

/-- The memory is the same. -/
structure SameMemory (s t : MutState) : Prop where
  bodies : t.bodies = s.bodies
  nextAddr : t.nextAddr = s.nextAddr
  replaced : t.replaced = s.replaced

namespace SameMemory

theorem chains : Chains SameMemory AnyStop where
  refl := fun _ => ⟨rfl, rfl, rfl⟩
  trans := fun first second => ⟨second.bodies.trans first.bodies,
    second.nextAddr.trans first.nextAddr, second.replaced.trans first.replaced⟩
  stop := fun _ _ => trivial

theorem generate {α : Type} (localCxt : List LocalCxt) (labelCxt : List LabelCxt) (x : Gen α) :
    Keeps SameMemory (AnyStop) (generate localCxt labelCxt x) := by
  intro s
  unfold Ends Mut.generate
  cases x ⟨s.mod, s.names, s.rand, s.patience, localCxt, labelCxt⟩ with
  | ok a t => exact ⟨rfl, rfl, rfl⟩
  | error e t => trivial

theorem draw {α : Type} (x : Gen α) : Keeps SameMemory (AnyStop) (draw x) :=
  .bind chains (generate [] [] x) fun _ => .pure chains _

theorem addVar (func : Nat) (ty : Ty) : Keeps SameMemory (AnyStop) (addVar func ty) :=
  fun _ => ⟨rfl, rfl, rfl⟩

theorem addVars (func : Nat) (localCxt : List LocalCxt) :
    Keeps SameMemory (AnyStop) (addVars func localCxt) := by
  induction localCxt with
  | nil => exact .pure chains _
  | cons el rest ih =>
    apply Keeps.ite <;> intro _
    · exact ih
    · apply Keeps.bind chains (addVar func el.localType)
      intro created
      exact .bind chains (fun _ => ⟨rfl, rfl, rfl⟩) fun _ => ih

/-- A draw leaves the memory as it is, and its result has what the generator promises. -/
theorem returned {α : Type} {x : Gen α} {P : α → Prop} (returns : Returns x P) (s : MutState) :
    Ends (Mut.draw x) s (fun a t => P a ∧ SameMemory s t) fun _ _ => True := by
  rw [ends_draw]
  apply (returns _).mono
  · exact fun a t holds => ⟨holds, rfl, rfl, rfl⟩
  · exact fun _ _ _ => trivial

end SameMemory

/-- New bodies came to the end, with fresh nodes. -/
structure Extends (s t : MutState) : Prop where
  bodies : ∃ extra, t.bodies = s.bodies ++ extra ∧
    ∀ x, occAll x extra ≤ if s.nextAddr ≤ x ∧ x < t.nextAddr then 1 else 0
  le : s.nextAddr ≤ t.nextAddr
  replaced : t.replaced = s.replaced

theorem SameMemory.extends {s t : MutState} (same : SameMemory s t) : Extends s t := by
  refine ⟨⟨[], ?_, fun x => Nat.zero_le _⟩, Nat.le_of_eq same.nextAddr.symm, same.replaced⟩
  rw [same.bodies, List.append_nil]

namespace Extends

variable {s t : MutState}

theorem trans {u : MutState} (first : Extends s t) (second : Extends t u) : Extends s u := by
  obtain ⟨extra, grown, once⟩ := first.bodies
  obtain ⟨extra', grown', once'⟩ := second.bodies
  have low := first.le
  have high := second.le
  refine ⟨⟨extra ++ extra', ?_, ?_⟩, by omega, second.replaced.trans first.replaced⟩
  · rw [grown', grown, List.append_assoc]
  · intro x
    have here := once x
    have there := once' x
    rw [occAll_append]
    grind

theorem chains : Chains Extends AnyStop where
  refl := fun s => (SameMemory.chains.refl s).extends
  trans := Extends.trans
  stop := fun _ _ => trivial

theorem generated {α : Type} {x : Mut α} (same : Keeps SameMemory (AnyStop) x) :
    Keeps Extends (AnyStop) x :=
  fun s => (same s).mono (fun _ _ kept => kept.extends) fun _ _ _ => trivial

theorem addFunction (f : Func) : Keeps Extends (AnyStop) (addFunction f) := by
  intro s
  apply (addFunction_ends f s).mono
  · rintro _ t ⟨_, rfl⟩
    refine ⟨⟨_, rfl, ?_⟩, le_place _ _, rfl⟩
    intro x
    simp [occ_place]
  · exact fun _ _ _ => trivial

theorem wasmGenerateOneFunc (param result : Ty) :
    Keeps Extends (AnyStop) (wasmGenerateOneFunc param result) := by
  apply Keeps.bind chains (generated (SameMemory.generate _ _ _))
  rintro ⟨body, localCxt⟩
  apply Keeps.bind chains (.get chains)
  intro s
  dsimp only
  split
  · exact fun _ => trivial
  · exact .bind chains (addFunction _) fun _ => .pure chains _

theorem otherFunc (current : String) (param result : Ty) :
    Keeps Extends (AnyStop) (otherFunc current param result) := by
  apply Keeps.bind chains (.get chains)
  intro s
  apply Keeps.ite <;> intro _
  · apply Keeps.bind chains (generated (SameMemory.draw _))
    intro name
    exact .ite (fun _ => wasmGenerateOneFunc _ _) fun _ => .pure chains _
  · exact wasmGenerateOneFunc _ _

theorem anyFunc (param result : Ty) : Keeps Extends (AnyStop) (anyFunc param result) := by
  apply Keeps.bind chains (.get chains)
  intro s
  apply Keeps.ite <;> intro _
  · apply Keeps.bind chains (generated (SameMemory.draw _))
    rintro (_ | f)
    · exact fun _ => trivial
    · exact .pure chains _
  · exact wasmGenerateOneFunc _ _

variable (more : Extends s t)
include more

theorem tree (tree : Tree s.bodies s.nextAddr) : Tree t.bodies t.nextAddr := by
  obtain ⟨extra, grown, once⟩ := more.bodies
  have le := more.le
  constructor
  · intro x
    have := tree.unique x
    have := once x
    have := tree.free x
    rw [grown, occAll_append]
    grind
  · intro x above
    have := tree.free x (by omega)
    have := once x
    rw [grown, occAll_append]
    grind

theorem kept (given : List Nat) : Kept s.bodies t.bodies given := by
  obtain ⟨extra, grown, _⟩ := more.bodies
  rw [grown]
  exact .append _ _ _

theorem holds {spot : Spot} {old : ExprRef} (holds : spot.Holds s.bodies old) :
    spot.Holds t.bodies old := by
  obtain ⟨extra, grown, _⟩ := more.bodies
  rw [grown]
  exact holds.append extra

theorem found {c : Nat} {n : ExprRef} (found : findAll? c s.bodies = some n) :
    findAll? c t.bodies = some n := by
  obtain ⟨extra, grown, _⟩ := more.bodies
  rw [grown, ExprRef.findAll?_append, found, Option.some_or]

theorem placedAt {el ind child : Nat} (placed : PlacedAt s.bodies el ind child) :
    PlacedAt t.bodies el ind child := by
  obtain ⟨extra, grown, _⟩ := more.bodies
  obtain ⟨old, here, addr⟩ := placed
  rw [grown]
  exact ⟨old, here.append extra, addr⟩

end Extends

/-! ## Steps -/

/-- The bodies are trees, and every node of an earlier state is there or was given up since. -/
structure TreeStep (s t : MutState) : Prop where
  tree : Tree t.bodies t.nextAddr
  kept : ∃ given, t.replaced = s.replaced ++ given ∧ Kept s.bodies t.bodies given

theorem TreeStep.trans {s t u : MutState} (first : TreeStep s t) (second : TreeStep t u) :
    TreeStep s u := by
  obtain ⟨given, noted, kept⟩ := first.kept
  obtain ⟨given', noted', kept'⟩ := second.kept
  refine ⟨second.tree, given ++ given', by rw [noted', noted, List.append_assoc], ?_⟩
  intro i b here
  obtain ⟨b', here', inside⟩ := kept i b here
  obtain ⟨b'', here'', inside'⟩ := kept' i b' here'
  refine ⟨b'', here'', ?_⟩
  intro x positive
  rw [List.mem_append]
  rcases inside x positive with still | gone
  · exact (inside' x still).imp_right .inr
  · exact .inr (.inl gone)

/-- What a mutator does about the node at an address: nothing, a change of that node, or
something new in its place. -/
inductive Move (spot : Spot) (c : Nat) (s t : MutState) : Prop where
  | stay (more : Extends s t)
  | write (m : MutState) (k : Kind) (cs : List ExprRef) (change : ExprRef.Write)
      (given : List Nat) (more : Extends s m)
      (found : findAll? c s.bodies = some (.node c k cs))
      (renews : Renews (.node c k cs) (.node c (change k cs).1 (change k cs).2) m.nextAddr
        t.nextAddr given)
      (le : m.nextAddr ≤ t.nextAddr) (bodies : t.bodies = writeAll c change m.bodies)
      (noted : t.replaced = m.replaced ++ given)
  | put (m : MutState) (old new : ExprRef) (given : List Nat) (more : Extends s m)
      (holds : spot.Holds s.bodies old)
      (renews : Renews old new m.nextAddr t.nextAddr given)
      (le : m.nextAddr ≤ t.nextAddr) (bodies : t.bodies = spot.put new m.bodies)
      (noted : t.replaced = m.replaced ++ given)

namespace Move

variable {spot : Spot} {c el ind : Nat} {s t : MutState}

private theorem unused {m : MutState} (tree : Tree s.bodies s.nextAddr) (more : Extends s m)
    (high x : Nat) (low : m.nextAddr ≤ x) (_ : x < high) : occAll x m.bodies = 0 :=
  (more.tree tree).free x low

theorem step (tree : Tree s.bodies s.nextAddr) (move : Move spot c s t) : TreeStep s t := by
  cases move with
  | stay more => exact ⟨more.tree tree, [], by rw [more.replaced, List.append_nil], more.kept []⟩
  | write m k cs change given more found renews le bodies noted =>
    have wide := (more.tree tree).mono le
    have fresh := unused tree more t.nextAddr
    refine ⟨?_, given, by rw [noted, more.replaced], ?_⟩
    · rw [bodies]
      exact tree_inPlace wide (more.found found) renews fresh (Nat.le_refl _)
    · rw [bodies]
      exact (more.kept given).trans (kept_inPlace wide (more.found found) renews) fun _ here => here
  | put m old new given more holds renews le bodies noted =>
    have wide := (more.tree tree).mono le
    have fresh := unused tree more t.nextAddr
    refine ⟨?_, given, by rw [noted, more.replaced], ?_⟩
    · rw [bodies]
      exact Spot.tree_put wide (more.holds holds) renews fresh (Nat.le_refl _)
    · rw [bodies]
      exact (more.kept given).trans (Spot.kept_put wide (more.holds holds) renews) fun _ here => here

/-- The other children of the parent are where they were. -/
theorem others (tree : Tree s.bodies s.nextAddr) (placed : PlacedAt s.bodies el ind c)
    (move : Move (.child el ind) c s t) (j d : Nat) (differ : j ≠ ind)
    (there : PlacedAt s.bodies el j d) : PlacedAt t.bodies el j d := by
  cases move with
  | stay more => exact more.placedAt there
  | write m k cs change given more found renews le bodies noted =>
    have wide := (more.tree tree).mono le
    have fresh := unused tree more t.nextAddr
    obtain ⟨old, here, addr⟩ := more.placedAt placed
    rw [bodies]
    exact placedAt_inPlace wide (more.found found) renews fresh here addr (more.placedAt there)
  | put m old new given more holds renews le bodies noted =>
    obtain ⟨other, here, addr⟩ := more.placedAt there
    refine ⟨other, ?_, addr⟩
    rw [bodies]
    exact placed_slot differ here

theorem before {u : MutState} (move : Move spot c s t) (same : SameMemory t u) : Move spot c s u := by
  cases move with
  | stay more => exact .stay (more.trans same.extends)
  | write m k cs change given more found renews le bodies noted =>
    rw [← same.nextAddr] at renews le
    exact .write m k cs change given more found renews le (same.bodies.trans bodies)
      (same.replaced.trans noted)
  | put m old new given more holds renews le bodies noted =>
    rw [← same.nextAddr] at renews le
    exact .put m old new given more holds renews le (same.bodies.trans bodies)
      (same.replaced.trans noted)

theorem after {r : MutState} (move : Move spot c s t) (same : SameMemory r s) : Move spot c r t := by
  have before := same.extends
  cases move with
  | stay more => exact .stay (before.trans more)
  | write m k cs change given more found renews le bodies noted =>
    rw [same.bodies] at found
    exact .write m k cs change given (before.trans more) found renews le bodies noted
  | put m old new given more holds renews le bodies noted =>
    rw [same.bodies] at holds
    exact .put m old new given (before.trans more) holds renews le bodies noted

end Move

end Swam
