import Swam.Binaryen.Trees
import Swam.ModuleRules

/-!
# Changing trees in place

The mutators read the children of a node into an array and then write new subtrees into the
slots of that node. As long as the child is still in its slot when it is replaced, the bodies
stay trees, and they lose only what the new subtree leaves out.
-/
namespace Swam

open Binaryen ExprRef Mut Lib

/-! ## Bodies -/

/-- No address occurs twice in the bodies, and none from the next free one on occurs. -/
structure Tree (bodies : List ExprRef) (next : Nat) : Prop where
  unique : ∀ x, occAll x bodies ≤ 1
  free : ∀ x, next ≤ x → occAll x bodies = 0

/-- Every node of a body is still in that body, or was given up. -/
def Kept (bodies bodies' : List ExprRef) (given : List Nat) : Prop :=
  ∀ (i : Nat) (b : ExprRef), bodies[i]? = some b →
    ∃ b', bodies'[i]? = some b' ∧ ∀ x, 0 < occ x b → 0 < occ x b' ∨ x ∈ given

/-- The child in a slot of a node that the mutators look into. -/
def Placed (bodies : List ExprRef) (el ind : Nat) (old : ExprRef) : Prop :=
  ∃ k cs, findAll? el bodies = some (.node el k cs) ∧ k.isEnumerated = true ∧ cs[ind]? = some old

/-- The slot has a child with the address. -/
def PlacedAt (bodies : List ExprRef) (el ind child : Nat) : Prop :=
  ∃ old, Placed bodies el ind old ∧ old.addr? = some child

/-- What a new subtree has of the old one. Its own nodes are in a range of addresses. -/
structure Renews (old new : ExprRef) (low high : Nat) (given : List Nat) : Prop where
  below : ∀ x, occ x new ≤ occ x old + if low ≤ x ∧ x < high then 1 else 0
  kept : ∀ x, 0 < occ x old → 0 < occ x new ∨ x ∈ given

/-- A node that keeps its children. -/
theorem Renews.same (c : Nat) (k k' : Kind) (cs : List ExprRef) (low high : Nat)
    (given : List Nat) : Renews (.node c k cs) (.node c k' cs) low high given := by
  constructor
  · intro x
    rw [occ_node, occ_node]
    omega
  · intro x inside
    rw [occ_node] at inside ⊢
    exact .inl inside

theorem Tree.mono {bodies : List ExprRef} {next next' : Nat} (tree : Tree bodies next)
    (le : next ≤ next') : Tree bodies next' :=
  ⟨tree.unique, fun x bound => tree.free x (by omega)⟩

namespace Kept

variable {bodies bodies' bodies'' : List ExprRef} {given given' : List Nat}

theorem refl (bodies : List ExprRef) (given : List Nat) : Kept bodies bodies given :=
  fun _ b here => ⟨b, here, fun _ inside => .inl inside⟩

theorem trans (first : Kept bodies bodies' given) (second : Kept bodies' bodies'' given')
    (more : given ⊆ given') : Kept bodies bodies'' given' := by
  intro i b here
  obtain ⟨b', here', inside⟩ := first i b here
  obtain ⟨b'', here'', inside'⟩ := second i b' here'
  refine ⟨b'', here'', ?_⟩
  intro x positive
  rcases inside x positive with still | gone
  · exact inside' x still
  · exact .inr (more gone)

theorem append (bodies extra : List ExprRef) (given : List Nat) :
    Kept bodies (bodies ++ extra) given := by
  intro i b here
  refine ⟨b, ?_, fun _ inside => .inl inside⟩
  obtain ⟨bound, _⟩ := List.getElem?_eq_some_iff.mp here
  rw [List.getElem?_append_left bound]
  exact here

end Kept

theorem Placed.found {bodies : List ExprRef} {el ind : Nat} {old : ExprRef} {child : Nat}
    (placed : Placed bodies el ind old) (unique : occAll child bodies ≤ 1)
    (addr : old.addr? = some child) : findAll? child bodies = some old := by
  obtain ⟨k, cs, found, _, here⟩ := placed
  exact findAll?_child unique found (List.mem_of_getElem? here) addr

/-- New bodies at the end do not move a child. -/
theorem Placed.append {bodies : List ExprRef} {el ind : Nat} {old : ExprRef}
    (placed : Placed bodies el ind old) (extra : List ExprRef) :
    Placed (bodies ++ extra) el ind old := by
  obtain ⟨k, cs, found, enumerated, here⟩ := placed
  exact ⟨k, cs, by rw [findAll?_append, found, Option.some_or], enumerated, here⟩

/-! ## Replacing a child -/

section
variable {bodies : List ExprRef} {next el ind low high : Nat} {old new : ExprRef}
  {given : List Nat} (tree : Tree bodies next) (placed : Placed bodies el ind old)
  (renews : Renews old new low high given)
  (fresh : ∀ x, low ≤ x → x < high → occAll x bodies = 0)
include tree placed

/-- The occurrences move from the old child to the new one. -/
theorem occAll_slot (x : Nat) :
    occAll x (writeAll el (slot Kind.isEnumerated ind new) bodies) + occ x old = occAll x bodies + occ x new := by
  obtain ⟨k, cs, found, enumerated, here⟩ := placed
  have exchanged := @occAll_write el (slot Kind.isEnumerated ind new) k cs bodies (tree.unique el) found x
  rw [slot_eq enumerated] at exchanged
  dsimp only at exchanged
  have moved := occAll_set here new x
  omega

include renews

theorem kept_slot : Kept bodies (writeAll el (slot Kind.isEnumerated ind new) bodies) given := by
  obtain ⟨k, cs, found, enumerated, here⟩ := placed
  intro i b atB
  refine ⟨write el (slot Kind.isEnumerated ind new) b, by rw [writeAll_eq_map, List.getElem?_map, atB]; rfl, ?_⟩
  intro x inside
  by_cases absent : occ el b = 0
  · rw [write_of_absent absent]
    exact .inl inside
  · have member := List.mem_of_getElem? atB
    have part := occ_le_occAll member el
    have one := tree.unique el
    have inB := find?_of_findAll? one member (by omega) found
    have exchanged := @occ_write el (slot Kind.isEnumerated ind new) k cs b (by omega) inB x
    rw [slot_eq enumerated] at exchanged
    dsimp only at exchanged
    have moved := occAll_set here new x
    have below := (find?_found inB).below x
    have inOld := occ_le_occAll (List.mem_of_getElem? here) x
    rw [occ_node] at below
    by_cases outside : occ x old = 0
    · exact .inl (by omega)
    · rcases renews.kept x (by omega) with still | gone
      · exact .inl (by omega)
      · exact .inr gone

include fresh

theorem tree_slot (bound : high ≤ next) : Tree (writeAll el (slot Kind.isEnumerated ind new) bodies) next := by
  have moved := @occAll_slot _ _ _ _ _ new tree placed
  have part : ∀ x, occ x old ≤ occAll x bodies := by
    intro x
    obtain ⟨k, cs, found, _, here⟩ := placed
    have below := (findAll?_found_in found).below x
    have inside := occ_le_occAll (List.mem_of_getElem? here) x
    rw [occ_node] at below
    omega
  have below := renews.below
  constructor
  · intro x
    have := moved x
    have := part x
    have := tree.unique x
    have renewed := below x
    split at renewed
    next range =>
      have := fresh x range.1 range.2
      omega
    next => omega
  · intro x above
    have := moved x
    have := tree.free x above
    have renewed := below x
    rw [if_neg (by omega)] at renewed
    omega

omit tree placed renews fresh in
theorem placed_slot {j : Nat} {other : ExprRef} (differ : j ≠ ind)
    (there : Placed bodies el j other) : Placed (writeAll el (slot Kind.isEnumerated ind new) bodies) el j other := by
  obtain ⟨k, cs, found, enumerated, here⟩ := there
  have same := @findAll?_write_same el (slot Kind.isEnumerated ind new) k cs bodies found
  rw [slot_eq enumerated] at same
  refine ⟨k, cs.set ind new, same, enumerated, ?_⟩
  rw [List.getElem?_set_ne (Ne.symm differ)]
  exact here

end

/-! ## Changing a node where it is -/

section
variable {bodies : List ExprRef} {next c low high : Nat} {k : Kind} {cs : List ExprRef}
  {change : Write} {given : List Nat} (tree : Tree bodies next)
  (found : findAll? c bodies = some (.node c k cs))
  (renews : Renews (.node c k cs) (.node c (change k cs).1 (change k cs).2) low high given)
include tree found renews

theorem kept_inPlace : Kept bodies (writeAll c change bodies) given := by
  intro i b atB
  refine ⟨write c change b, by rw [writeAll_eq_map, List.getElem?_map, atB]; rfl, ?_⟩
  intro x inside
  by_cases absent : occ c b = 0
  · rw [write_of_absent absent]
    exact .inl inside
  · have member := List.mem_of_getElem? atB
    have part := occ_le_occAll member c
    have one := tree.unique c
    have inB := find?_of_findAll? one member (by omega) found
    have exchanged := @occ_write c change k cs b (by omega) inB x
    have after := (find?_found (@find?_write_same c change k cs b inB)).below x
    by_cases outside : occ x (.node c k cs) = 0
    · rw [occ_node] at outside
      exact .inl (by omega)
    · rcases renews.kept x (by omega) with still | gone
      · exact .inl (by omega)
      · exact .inr gone

variable (fresh : ∀ x, low ≤ x → x < high → occAll x bodies = 0)
include fresh

theorem tree_inPlace (bound : high ≤ next) : Tree (writeAll c change bodies) next := by
  have exchanged := @occAll_write c change k cs bodies (tree.unique c) found
  have part : ∀ x, occ x (.node c k cs) ≤ occAll x bodies := (findAll?_found_in found).below
  have below := renews.below
  constructor
  · intro x
    have := exchanged x
    have := tree.unique x
    have inside := part x
    have renewed := below x
    rw [occ_node] at inside
    rw [occ_node, occ_node] at renewed
    by_cases range : low ≤ x ∧ x < high
    · rw [if_pos range] at renewed
      have := fresh x range.1 range.2
      omega
    · rw [if_neg range] at renewed
      omega
  · intro x above
    have := exchanged x
    have := tree.free x above
    have renewed := below x
    rw [occ_node, occ_node, if_neg (c := low ≤ x ∧ x < high) (by omega)] at renewed
    omega

/-- A node that has the changed one as a child keeps its children where they are. -/
theorem placedAt_inPlace {el ind j d : Nat} {old : ExprRef} (here : Placed bodies el ind old)
    (addr : old.addr? = some c) (there : PlacedAt bodies el j d) :
    PlacedAt (writeAll c change bodies) el j d := by
  obtain ⟨kel, els, foundEl, enumerated, atInd⟩ := here
  obtain ⟨other, ⟨kel', els', foundEl', enumerated', atJ⟩, addrD⟩ := there
  rw [foundEl] at foundEl'
  cases foundEl'
  have unique := tree.unique
  have member := List.mem_of_getElem? atInd
  have whole := findAll?_child (unique c) foundEl member addr
  rw [found] at whole
  cases whole
  have one := unique el
  have below := (findAll?_found_in foundEl).below el
  have inside := occ_le_occAll member el
  rw [occ_node, if_pos rfl] at below
  rw [occ_node] at inside
  have differ : el ≠ c := by
    intro equal
    rw [if_pos equal.symm] at inside
    omega
  have after := @findAll?_write_other c el change kel els bodies (unique c) differ ?_ foundEl
  · refine ⟨write c change other, ⟨kel, _, after, enumerated, ?_⟩, by rw [addr?_write, addrD]⟩
    rw [writeAll_eq_map, List.getElem?_map, atJ]
    rfl
  · intro a ka as written
    rw [found] at written
    cases written
    -- the node is an old one, so what is written into its child does not contain it
    have renewed := renews.below el
    have old : ¬ (low ≤ el ∧ el < high) := by
      intro range
      have := fresh el range.1 range.2
      omega
    rw [occ_node, occ_node, if_neg old] at renewed
    omega

end

/-! ## Replacing the root of a body -/

section
variable {bodies : List ExprRef} {next func low high : Nat} {old new : ExprRef}
  {given : List Nat} (tree : Tree bodies next) (root : bodies[func]? = some old)
  (renews : Renews old new low high given)
  (fresh : ∀ x, low ≤ x → x < high → occAll x bodies = 0)
include tree root renews fresh

theorem tree_root (bound : high ≤ next) : Tree (bodies.set func new) next := by
  have moved := occAll_set root new
  have part := occ_le_occAll (List.mem_of_getElem? root)
  have below := renews.below
  constructor
  · intro x
    have := moved x
    have := part x
    have := tree.unique x
    have renewed := below x
    split at renewed
    next range =>
      have := fresh x range.1 range.2
      omega
    next => omega
  · intro x above
    have := moved x
    have := tree.free x above
    have renewed := below x
    rw [if_neg (by omega)] at renewed
    omega

omit tree fresh in
theorem kept_root : Kept bodies (bodies.set func new) given := by
  intro i b atB
  by_cases here : func = i
  · subst here
    rw [root] at atB
    cases atB
    obtain ⟨bound, _⟩ := List.getElem?_eq_some_iff.mp root
    refine ⟨new, by rw [List.getElem?_set_self bound], ?_⟩
    exact renews.kept
  · refine ⟨b, by rw [List.getElem?_set_ne here, atB], fun _ inside => .inl inside⟩

end

/-! ## Places of a node -/

/-- Where a node is: at the root of a body, or in a slot of another node. -/
inductive Spot where
  | root (func : Nat)
  | child (el ind : Nat)

namespace Spot

/-- What the mutators do to put something there. -/
def put (new : ExprRef) (bodies : List ExprRef) : Spot → List ExprRef
  | root func => bodies.set func new
  | child el ind => writeAll el (slot Kind.isEnumerated ind new) bodies

def Holds (bodies : List ExprRef) (old : ExprRef) : Spot → Prop
  | root func => bodies[func]? = some old
  | child el ind => Placed bodies el ind old

variable {bodies : List ExprRef} {spot : Spot} {next c low high : Nat} {old new : ExprRef}
  {given : List Nat}

theorem Holds.append (holds : spot.Holds bodies old) (extra : List ExprRef) :
    spot.Holds (bodies ++ extra) old := by
  cases spot with
  | root func =>
    obtain ⟨bound, _⟩ := List.getElem?_eq_some_iff.mp holds
    change (bodies ++ extra)[func]? = some old
    rw [List.getElem?_append_left bound]
    exact holds
  | child el ind => exact Placed.append holds extra

theorem Holds.found (holds : spot.Holds bodies old) (unique : occAll c bodies ≤ 1)
    (addr : old.addr? = some c) : findAll? c bodies = some old := by
  cases spot with
  | root func => exact findAll?_of_mem unique (List.mem_of_getElem? holds) (find?_root addr)
  | child el ind => exact Placed.found holds unique addr

theorem tree_put (tree : Tree bodies next) (holds : spot.Holds bodies old)
    (renews : Renews old new low high given)
    (fresh : ∀ x, low ≤ x → x < high → occAll x bodies = 0) (bound : high ≤ next) :
    Tree (spot.put new bodies) next := by
  cases spot with
  | root func => exact tree_root tree holds renews fresh bound
  | child el ind => exact tree_slot tree holds renews fresh bound

theorem kept_put (tree : Tree bodies next) (holds : spot.Holds bodies old)
    (renews : Renews old new low high given) : Kept bodies (spot.put new bodies) given := by
  cases spot with
  | root func => exact kept_root holds renews
  | child el ind => exact kept_slot tree holds renews

/-- What was written into a node is lost when something is put in its place. -/
theorem put_write (tree : Tree bodies next) (holds : spot.Holds bodies old)
    (addr : old.addr? = some c) (change : Write) :
    spot.put new (writeAll c change bodies) = spot.put new bodies := by
  cases spot with
  | child el ind =>
    obtain ⟨k, cs, found, enumerated, here⟩ := holds
    exact writeAll_slot here addr enumerated tree.unique found
  | root func =>
    apply List.ext_getElem?
    intro i
    change ((writeAll c change bodies).set func new)[i]? = (bodies.set func new)[i]?
    by_cases equal : func = i
    · subst equal
      rw [List.getElem?_set_self', List.getElem?_set_self', writeAll_eq_map, List.getElem?_map,
        show bodies[func]? = some old from holds]
      rfl
    · rw [List.getElem?_set_ne equal, List.getElem?_set_ne equal, writeAll_eq_map,
        List.getElem?_map]
      cases other : bodies[i]? with
      | none => rfl
      | some f =>
        have absent := absent_elsewhere (tree.unique c) other holds (Ne.symm equal) (occ_root addr)
        rw [Option.map_some, write_of_absent absent]

/-- What was put there is there. -/
theorem Holds.put (holds : spot.Holds bodies old) : spot.Holds (spot.put new bodies) new := by
  cases spot with
  | root func =>
    obtain ⟨bound, _⟩ := List.getElem?_eq_some_iff.mp holds
    exact List.getElem?_set_self bound
  | child el ind =>
    obtain ⟨k, cs, found, enumerated, here⟩ := holds
    obtain ⟨bound, _⟩ := List.getElem?_eq_some_iff.mp here
    have same := @findAll?_write_same el (slot Kind.isEnumerated ind new) k cs bodies found
    rw [slot_eq enumerated] at same
    exact ⟨k, cs.set ind new, same, enumerated, List.getElem?_set_self bound⟩

/-- A property of all nodes that does not look into children stays. -/
theorem everywhere_put {P : Kind → List ExprRef → Prop} (all : EverywhereAll P bodies)
    (here : Everywhere P new)
    (stable : ∀ a change k cs, P k cs → P k (writeAll a change cs))
    (replaceable : ∀ k cs i, P k cs → P k (cs.set i new)) : EverywhereAll P (spot.put new bodies) := by
  cases spot with
  | root func => exact all.set here func
  | child el ind =>
    apply all.writeAll (stable el _)
    intro k cs holds inside
    unfold slot
    split
    · exact ⟨replaceable k cs ind holds, inside.set here ind⟩
    · exact ⟨holds, inside⟩

end Spot

end Swam
