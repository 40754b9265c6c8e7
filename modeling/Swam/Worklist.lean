import Swam.Afl.LinkedListRefines
import Swam.SpliceRenaming

/-!
# The traversal of an expression

The mutators go over an expression with a list that starts with its root: the block of the loop
looks at a node, appends the children that are there, reads the saved pointer again and takes the
node out. The order is told before the run, level by level.
-/
namespace Swam.Worklist

open Binaryen Mut ExprRef Afl.LinkedList

/-! ## The loop of the mutators -/

/-- `wasm_get_children_expr` of the node at an address. -/
def childrenAt (root : ExprRef) (el : Nat) : List (Option Nat) :=
  match root.find? el with
  | some e => childAddrs e
  | none => []

/-- `if (child[ind]) list_append(&child_node_list, child[ind]);` -/
def appendChildren (l : ListT) (child : List (Option Nat)) : Except Fault ListT :=
  child.foldlM (fun l c => match c with | some c => listAppend l c | none => return l) l

/-- The rounds of the loop; `done` is what it has visited, and says whether the mutator has made
enough changes and leaves the loop. -/
def rounds (root : ExprRef) (enough : List Nat → Bool) :
    Nat → ListT → Option Loop → List Nat → Except Fault (ListT × List Nat)
  | 0, _, _, _ => .error .outOfFuel
  | _ + 1, l, none, done => return (l, done)
  | fuel + 1, l, some loop, done => do
    let done := done ++ [loop.el]
    if enough done then return (l, done)
    else
      let l ← appendChildren l (childrenAt root loop.el)
      let loop ← rereadNext l loop
      let l ← listRemoveCurrentEl l loop
      rounds root enough fuel l (← enterRound l loop.next) done

/-- `LIST_FOREACH_CLEAR` with an empty block. -/
def clearRounds : Nat → ListT → Option Loop → Except Fault ListT
  | 0, _, _ => .error .outOfFuel
  | _ + 1, l, none => return l
  | fuel + 1, l, some loop => do
    let l ← listRemoveCurrentEl l loop
    clearRounds fuel l (← enterRound l loop.next)

def listForeachClear (fuel : Nat) (l : ListT) : Except Fault ListT := do
  clearRounds fuel l (← listForeach l)

/-- The loop over the body of one function. -/
def traverse (root : ExprRef) (enough : List Nat → Bool) (fuel : Nat) (l : ListT) (body : Nat) :
    Except Fault (ListT × List Nat) := do
  let l ← listAppend l body
  rounds root enough fuel l (← listForeach l) []

/-! ## Rounds on a ring -/

section
variable {l : ListT} {b : Box} {boxes : List Box} {v : Nat} {values : List Nat}

/-- A list that may be used: empty, or before its first append. -/
def Idle (l : ListT) : Prop := Holds l.fields [] [] ∨ Untouched l

theorem appendChildren_spec (child : List (Option Nat)) (holds : Holds l.fields boxes values) :
    ∃ more l', appendChildren l child = .ok l' ∧
      Holds l'.fields (boxes ++ more) (values ++ child.filterMap id) := by
  induction child generalizing l boxes values with
  | nil => exact ⟨[], l, rfl, by simpa using holds⟩
  | cons c child ih =>
    cases c with
    | none =>
      obtain ⟨more, l', appended, holds'⟩ := ih holds
      exact ⟨more, l', appended, holds'⟩
    | some c =>
      obtain ⟨b, l₁, first, _, holds₁⟩ := listAppend_spec holds c
      obtain ⟨more, l', appended, holds'⟩ := ih holds₁
      refine ⟨b :: more, l', ?_, by simpa using holds'⟩
      rw [appendChildren, List.foldlM_cons]
      change (listAppend l c >>= _) = _
      rw [first, ok_bind]
      exact appended

/-- Where a loop goes on at the first element of a ring. -/
theorem enterFirst (holds : Holds l.fields boxes values) {c : Box} {post : List Box}
    (back : boxes ++ [getHead] = c :: post) :
    (boxes = [] ∧ enterRound l (some c) = .ok none) ∨
      ∃ b bs v vs next, boxes = b :: bs ∧ values = v :: vs ∧
        enterRound l (some c) = .ok (some ⟨b, next, v⟩) := by
  cases boxes with
  | nil =>
    cases back
    exact .inl ⟨rfl, rfl⟩
  | cons b bs =>
    obtain ⟨rfl, rfl⟩ := List.cons.inj back
    obtain ⟨_, _, c, post, _, back⟩ := Lib.ring_around [] bs getHead
    have lengths := congrArg List.length holds.data
    cases values with
    | nil => simp at lengths
    | cons v vs =>
      have entered :=
        enterRound_spec (show Holds l.fields ([] ++ b :: bs) ([] ++ v :: vs) from holds) rfl back
      exact .inr ⟨b, bs, v, vs, some c, rfl, rfl, entered⟩

/-- The current element is taken out, and the loop goes on at the new first one. -/
theorem removeFirst (holds : Holds l.fields (b :: boxes) (v :: values)) (loop : Loop)
    (here : loop.elBox = b) {c : Box} {post : List Box} (back : boxes ++ [getHead] = c :: post)
    (saved : loop.next = some c) :
    ∃ l', listRemoveCurrentEl l loop = .ok l' ∧ Holds l'.fields boxes values := by
  obtain ⟨l₁, unlinked, ⟨l', freed, holds'⟩, _⟩ :=
    unlink_free_spec (show Holds l.fields ([] ++ b :: boxes) ([] ++ v :: values) from holds) rfl back
  refine ⟨l', ?_, holds'⟩
  rw [listRemoveCurrentEl, here, saved, unlinked, ok_bind, freed]

/-- `LIST_FOREACH_CLEAR` leaves an empty list. -/
theorem clearRounds_spec {fuel : Nat} (holds : Holds l.fields boxes values)
    (enough : boxes.length < fuel) {c : Box} {post : List Box}
    (back : boxes ++ [getHead] = c :: post) :
    ∃ l', (do clearRounds fuel l (← enterRound l (some c))) = .ok l' ∧ Holds l'.fields [] [] := by
  induction fuel generalizing l boxes values c post with
  | zero => omega
  | succ fuel ih =>
    rcases enterFirst holds back with ⟨rfl, entered⟩ | ⟨b, bs, v, vs, next, rfl, rfl, entered⟩
    · have lengths := congrArg List.length holds.data
      cases values with
      | nil => exact ⟨l, by rw [entered]; rfl, holds⟩
      | cons v vs => simp at lengths
    · obtain ⟨rfl, rfl⟩ := List.cons.inj back
      obtain ⟨_, _, c, post, _, back⟩ := Lib.ring_around [] bs getHead
      have saved :=
        enterRound_spec (show Holds l.fields ([] ++ b :: bs) ([] ++ v :: vs) from holds) rfl back
      obtain ⟨l₁, removed, holds₁⟩ := removeFirst holds ⟨b, some c, v⟩ rfl back rfl
      obtain ⟨l', cleared, holds'⟩ := ih holds₁ (by simpa using enough) back
      refine ⟨l', ?_, holds'⟩
      rw [saved, ok_bind, clearRounds, removed, ok_bind]
      exact cleared

theorem listForeachClear_spec {fuel : Nat} (holds : Holds l.fields boxes values)
    (enough : boxes.length < fuel) :
    ∃ l', listForeachClear fuel l = .ok l' ∧ Holds l'.fields [] [] := by
  obtain ⟨head, c, loaded, first, post, back⟩ := load_head holds
  have entered : listForeach l = enterRound l (some c) := by
    rw [listForeach, loaded, ok_bind, first]
  rw [listForeachClear, entered]
  exact clearRounds_spec holds enough back

end

/-! ## The order, level by level -/

/-- The children of a level that are there, from left to right. -/
def below (level : List ExprRef) : List ExprRef :=
  level.flatMap fun
    | .null => []
    | .node _ k cs => if k.isEnumerated then cs.filter isPresent else []

/-- The addresses of a level, of the one below it, and so on. -/
def levels : Nat → List ExprRef → List Nat
  | 0, _ => []
  | n + 1, level => level.filterMap addr? ++ levels n (below level)

section
variable {queue xs ys : List ExprRef}

theorem levels_nil (n : Nat) : levels n [] = [] := by
  induction n with
  | zero => rfl
  | succ n ih => exact ih

private theorem exists_node {e : ExprRef} (present : isPresent e = true) :
    ∃ a k cs, e = .node a k cs := by
  cases e with
  | null => cases present
  | node a k cs => exact ⟨a, k, cs, rfl⟩

theorem present_below (level : List ExprRef) : ∀ e ∈ below level, isPresent e = true := by
  intro e member
  obtain ⟨parent, _, child⟩ := List.mem_flatMap.mp member
  cases parent with
  | null => cases child
  | node a k cs =>
    simp only at child
    split at child
    · exact (List.mem_filter.mp child).2
    · cases child

/-- A level has at most the nodes that are left without the one above it. -/
theorem length_below (present : ∀ e ∈ queue, isPresent e = true) :
    (addrsAll (below queue)).length + queue.length ≤ (addrsAll queue).length := by
  induction queue with
  | nil => simp [below, addrsAll]
  | cons e queue ih =>
    obtain ⟨a, k, cs, rfl⟩ := exists_node (present e List.mem_cons_self)
    have rest := ih fun e member => present e (List.mem_cons_of_mem _ member)
    have children : (addrsAll (if k.isEnumerated then cs.filter isPresent else [])).length ≤
        (addrsAll cs).length := by
      split
      · exact (length_addrsAll_present cs).le
      · simp [addrsAll]
    rw [below, List.flatMap_cons, length_addrsAll_append]
    simp only [addrsAll, addrs, List.length_append, List.length_cons] at children ⊢
    rw [below] at rest
    omega

/-- A whole level is taken from the list before the one below it. -/
theorem visitOrder_level (present : ∀ e ∈ xs, isPresent e = true) (n : Nat) :
    visitOrder (n + xs.length) (xs ++ ys) = xs.filterMap addr? ++ visitOrder n (ys ++ below xs) := by
  induction xs generalizing ys with
  | nil => simp [below]
  | cons e xs ih =>
    obtain ⟨a, k, cs, rfl⟩ := exists_node (present e List.mem_cons_self)
    have rest := @ih (ys ++ if k.isEnumerated then cs.filter isPresent else [])
      fun e member => present e (List.mem_cons_of_mem _ member)
    rw [List.length_cons, ← Nat.add_assoc, List.cons_append, visitOrder, List.append_assoc, rest]
    simp [below, addr?]

/-- With as many steps as there are nodes the list goes through the levels. -/
theorem visitOrder_levels {n m : Nat} (present : ∀ e ∈ queue, isPresent e = true)
    (enough : (addrsAll queue).length ≤ n) (deep : (addrsAll queue).length ≤ m) :
    visitOrder n queue = levels m queue := by
  induction m generalizing n queue with
  | zero =>
    have := length_below present
    have empty : queue = [] := List.length_eq_zero_iff.mp (by omega)
    subst empty
    cases n <;> rfl
  | succ m ih =>
    cases queue with
    | nil =>
      rw [levels_nil]
      cases n <;> rfl
    | cons e queue =>
      have fewer := length_below present
      rw [List.length_cons] at fewer
      obtain ⟨n, rfl⟩ : ∃ n', n = n' + (e :: queue).length :=
        ⟨n - (e :: queue).length, by rw [List.length_cons]; omega⟩
      have level := @visitOrder_level (e :: queue) [] present n
      rw [List.append_nil, List.nil_append] at level
      rw [List.length_cons] at enough
      rw [level, levels, ih (present_below _) (by omega) (by omega)]

end

/-! ## The whole traversal -/

section
variable {root : ExprRef} {l : ListT} {boxes : List Box}
  {queue : List ExprRef}

/-- The queue of references that the list holds. -/
structure Queued (root : ExprRef) (queue : List ExprRef) : Prop where
  present : ∀ e ∈ queue, isPresent e = true
  reached : ∀ e ∈ queue, ∃ path above, Reaches root path above e

private theorem Reaches.step {e c : ExprRef} {path : List Nat} {above : List Kind} {a : Nat} {k : Kind}
    {cs : List ExprRef} (reached : Reaches root path above e) (node : e = .node a k cs)
    (enumerated : k.isEnumerated = true) (member : c ∈ cs) :
    ∃ path above, Reaches root path above c := by
  induction reached with
  | here =>
    subst node
    obtain ⟨i, position⟩ := List.mem_iff_getElem?.mp member
    exact ⟨_, _, .child enumerated position (.here c)⟩
  | child enumerated' position _ ih =>
    obtain ⟨path, above, reached⟩ := ih node
    exact ⟨_, _, .child enumerated' position reached⟩

/-- Taking a node from the front and appending its children keeps the queue among the nodes. -/
theorem Queued.advance {a : Nat} {k : Kind} {cs : List ExprRef}
    (queued : Queued root (.node a k cs :: queue)) :
    Queued root (queue ++ if k.isEnumerated then cs.filter isPresent else []) where
  present := by
    intro e member
    rcases List.mem_append.mp member with later | child
    · exact queued.present e (List.mem_cons_of_mem _ later)
    · split at child
      · exact (List.mem_filter.mp child).2
      · cases child
  reached := by
    intro e member
    rcases List.mem_append.mp member with later | child
    · exact queued.reached e (List.mem_cons_of_mem _ later)
    · split at child
      next enumerated =>
        obtain ⟨path, above, reached⟩ := queued.reached _ List.mem_cons_self
        exact Reaches.step reached rfl enumerated (List.mem_filter.mp child).1
      · cases child

private theorem filterMap_present (cs : List ExprRef) :
    (cs.map addr?).filterMap id = (cs.filter isPresent).filterMap addr? := by
  induction cs with
  | nil => rfl
  | cons c cs ih =>
    cases c with
    | null => exact ih
    | node a k ds => exact congrArg (a :: ·) ih

/-- The children that the block appends. -/
theorem childrenAt_reached {a : Nat} {k : Kind} {cs : List ExprRef} {path : List Nat}
    {above : List Kind} (reached : Reaches root path above (.node a k cs)) (unique : occ a root ≤ 1) :
    (childrenAt root a).filterMap id =
      (if k.isEnumerated then cs.filter isPresent else []).filterMap addr? := by
  rw [childrenAt, Reaches.find? reached rfl unique]
  simp only [childAddrs]
  split
  · exact filterMap_present cs
  · rfl

/-- The loop visits the nodes in the order of the queue, until the mutator leaves it. -/
theorem rounds_spec (unique : ∀ x, occ x root ≤ 1) (enough : List Nat → Bool) (fuel : Nat) (queued : Queued root queue)
    (holds : Holds l.fields boxes (queue.filterMap addr?)) (fits : (addrsAll queue).length ≤ fuel)
    (done : List Nat) {c : Box} {post : List Box} (back : boxes ++ [getHead] = c :: post) :
    ∃ l' visited boxes' values,
      (do rounds root enough (fuel + 1) l (← enterRound l (some c)) done) = .ok (l', done ++ visited) ∧
      visited <+: visitOrder fuel queue ∧ Holds l'.fields boxes' values ∧
      ((∀ p, enough p = false) → visited = visitOrder fuel queue ∧ values = []) := by
  induction fuel generalizing queue l boxes done c post with
  | zero =>
    have := length_below queued.present
    have empty : queue = [] := List.length_eq_zero_iff.mp (by omega)
    subst empty
    have lengths := congrArg List.length holds.data
    have none_left : boxes = [] := List.length_eq_zero_iff.mp (by simpa using lengths)
    subst none_left
    cases back
    refine ⟨l, [], [], [], by rw [enterRound_head, List.append_nil]; rfl, List.prefix_refl _, holds, ?_⟩
    exact fun _ => ⟨rfl, rfl⟩
  | succ fuel ih =>
    cases queue with
    | nil =>
      have lengths := congrArg List.length holds.data
      have none_left : boxes = [] := List.length_eq_zero_iff.mp (by simpa using lengths)
      subst none_left
      cases back
      refine ⟨l, [], [], [], by rw [enterRound_head, List.append_nil]; rfl, List.nil_prefix, holds, ?_⟩
      exact fun _ => ⟨rfl, rfl⟩
    | cons e queue =>
      obtain ⟨a, k, cs, rfl⟩ := exists_node (queued.present e List.mem_cons_self)
      obtain ⟨path, above, reached⟩ := queued.reached _ List.mem_cons_self
      change Holds l.fields boxes (a :: queue.filterMap addr?) at holds
      rcases enterFirst holds back with ⟨rfl, _⟩ | ⟨b, bs, v, vs, next, rfl, values, entered⟩
      · have lengths := congrArg List.length holds.data
        simp at lengths
      obtain ⟨rfl, rfl⟩ := List.cons.inj values
      by_cases stop : enough (done ++ [a]) = true
      · refine ⟨l, [a], _, _, ?_, ?_, holds, ?_⟩
        · rw [entered, ok_bind, rounds]
          exact if_pos stop
        · rw [visitOrder]
          exact List.cons_prefix_cons.mpr ⟨rfl, List.nil_prefix⟩
        · intro never
          exact absurd stop (by simp [never])
      · obtain ⟨more, l₁, appended, holds₁⟩ := appendChildren_spec (childrenAt root a) holds
        obtain ⟨_, _, c₁, post₁, _, back₁⟩ := Lib.ring_around [] (bs ++ more) getHead
        have reread := rereadNext_spec (show Holds l₁.fields ([] ++ b :: (bs ++ more)) _ from holds₁)
          back₁ ⟨b, next, a⟩ rfl
        rw [List.cons_append, List.cons_append] at holds₁
        obtain ⟨l₂, removed, holds₂⟩ :=
          removeFirst holds₁ ⟨b, some c₁, a⟩ rfl back₁ rfl
        rw [childrenAt_reached reached (unique a), ← List.filterMap_append] at holds₂
        have shorter := length_below queued.present
        have size : (addrsAll (queue ++ if k.isEnumerated then cs.filter isPresent else [])).length ≤
            fuel := by
          have children : (addrsAll (if k.isEnumerated then cs.filter isPresent else [])).length ≤
              (addrsAll cs).length := by
            split
            · exact (length_addrsAll_present cs).le
            · simp [addrsAll]
          rw [length_addrsAll_append]
          simp only [addrsAll, addrs, List.length_append, List.length_cons] at fits children ⊢
          omega
        obtain ⟨l', visited, boxes', values', ran, prefix_, holds', whole⟩ :=
          ih queued.advance holds₂ size (done ++ [a]) back₁
        refine ⟨l', a :: visited, boxes', values', ?_, ?_, holds', ?_⟩
        · rw [entered, ok_bind, rounds]
          simp only [if_neg stop]
          rw [appended, ok_bind, reread, ok_bind, removed, ok_bind]
          simpa using ran
        · rw [visitOrder]
          exact List.cons_prefix_cons.mpr ⟨rfl, prefix_⟩
        · intro never
          obtain ⟨all, empty⟩ := whole never
          exact ⟨by rw [visitOrder, all], empty⟩

end

/-- An idle list with its first element. -/
theorem listAppend_idle {l : ListT} (idle : Idle l) (el : Nat) :
    ∃ b l', listAppend l el = .ok l' ∧ Holds l'.fields [b] [el] := by
  rcases idle with holds | untouched
  · obtain ⟨b, l', appended, _, holds'⟩ := listAppend_spec holds el
    exact ⟨b, l', appended, holds'⟩
  · obtain ⟨b, l', appended, _, holds'⟩ := listAppend_untouched untouched el
    exact ⟨b, l', appended, holds'⟩

/-- The traversal of a tree with as much fuel as there are nodes: it ends, and it visits the nodes
level by level until the mutator leaves it. -/
theorem traverse_spec {root : ExprRef} {l : ListT} (enough : List Nat → Bool) (idle : Idle l)
    (tree : root.addrs.Nodup) {body : Nat} (there : root.addr? = some body) {fuel : Nat}
    (fits : root.addrs.length < fuel) :
    ∃ l' visited boxes values, traverse root enough fuel l body = .ok (l', visited) ∧
      visited <+: levels root.addrs.length [root] ∧ Holds l'.fields boxes values ∧
      ((∀ p, enough p = false) → visited = levels root.addrs.length [root] ∧ values = []) := by
  obtain ⟨fuel, rfl⟩ : ∃ n, fuel = n + 1 := ⟨fuel - 1, by omega⟩
  have unique (x : Nat) : occ x root ≤ 1 := List.nodup_iff_count_le_one.mp tree x
  have nodes : (addrsAll [root]).length = root.addrs.length := by simp [addrsAll]
  have queued : Queued root [root] := by
    refine ⟨?_, ?_⟩
    · intro e member
      rw [List.mem_singleton.mp member, isPresent, there]
      rfl
    · intro e member
      rw [List.mem_singleton.mp member]
      exact ⟨[], [], .here root⟩
  obtain ⟨b, l₁, appended, holds⟩ := listAppend_idle idle body
  have single : [root].filterMap addr? = [body] := List.filterMap_cons_some there
  rw [← single] at holds
  obtain ⟨head, c, loaded, first, post, back⟩ := load_head holds
  have entered : listForeach l₁ = enterRound l₁ (some c) := by
    rw [listForeach, loaded, ok_bind, first]
  obtain ⟨l', visited, boxes, values, ran, prefix_, holds', whole⟩ :=
    rounds_spec unique enough fuel queued holds (by omega) [] back
  have order : visitOrder fuel [root] = levels root.addrs.length [root] :=
    visitOrder_levels queued.present (by omega) (by omega)
  rw [order] at prefix_ whole
  refine ⟨l', visited, boxes, values, ?_, prefix_, holds', whole⟩
  rw [traverse, appended, ok_bind, entered]
  exact ran

/-- The loop of a mutator over a body visits every node that is reached through the children
exactly once, in breadth-first order, ends, and leaves the list empty. A mutator that has enough
leaves it on the way, and the list is cleared afterwards. -/
theorem traverse_breadthFirst {root : ExprRef} {l : ListT} (idle : Idle l)
    (tree : root.addrs.Nodup) {body : Nat} (there : root.addr? = some body) :
    (∀ fuel, root.addrs.length < fuel → ∃ l' visited,
      traverse root (fun _ => false) fuel l body = .ok (l', visited) ∧
      visited = levels root.addrs.length [root] ∧ visited.Nodup ∧
      (∀ addr, addr ∈ visited ↔ ∃ path above k, SiteAt root path above addr k) ∧
      Spells l' [] ∧ l'.elementTotalCount = 0) ∧
    ∀ (enough : List Nat → Bool) fuel, root.addrs.length < fuel → ∃ l' visited size,
      traverse root enough fuel l body = .ok (l', visited) ∧
      visited <+: levels root.addrs.length [root] ∧
      ∀ rounds, size < rounds → ∃ l'', listForeachClear rounds l' = .ok l'' ∧ Spells l'' [] := by
  have unique (x : Nat) : occ x root ≤ 1 := List.nodup_iff_count_le_one.mp tree x
  have order : fragmentNodes root = levels root.addrs.length [root] := by
    refine visitOrder_levels ?_ (by simp [addrsAll]) (by simp [addrsAll])
    intro e member
    rw [List.mem_singleton.mp member, isPresent, there]
    rfl
  constructor
  · intro fuel fits
    obtain ⟨l', visited, boxes, values, ran, _, holds, whole⟩ :=
      traverse_spec (fun _ => false) idle tree there fits
    obtain ⟨all, rfl⟩ := whole fun _ => rfl
    refine ⟨l', visited, ran, all, ?_, ?_, holds.spells, ?_⟩
    · rw [all, ← order]
      exact fragmentNodes_nodup unique
    · intro addr
      rw [all, ← order, mem_fragmentNodes]
    · have lengths := congrArg List.length holds.data
      have total : l'.elementTotalCount = s32 boxes.length := holds.total
      rw [total, show boxes.length = 0 by simpa using lengths]
      rfl
  · intro enough fuel fits
    obtain ⟨l', visited, boxes, values, ran, prefix_, holds, _⟩ :=
      traverse_spec enough idle tree there fits
    refine ⟨l', visited, boxes.length, ran, prefix_, ?_⟩
    intro rounds more
    obtain ⟨l'', cleared, empty⟩ := listForeachClear_spec holds more
    exact ⟨l'', cleared, empty.spells⟩

/-- A body whose children are partly missing, on a list before its first append. -/
theorem traverse_breadthFirst_if :
    ∃ l' visited, traverse (.node 1 .if_ [.node 2 .drop [.node 4 .nop []], .node 3 .nop [], .null])
        (fun _ => false) 5 clearedList 1 = .ok (l', visited) ∧ visited = [1, 2, 3, 4] ∧
      Spells l' [] := by
  obtain ⟨l', visited, ran, order, _, _, spells, _⟩ :=
    (@traverse_breadthFirst (.node 1 .if_ [.node 2 .drop [.node 4 .nop []], .node 3 .nop [], .null]) _
      (.inr clearedList_untouched) (by decide) 1 rfl).1 5 (by decide)
  exact ⟨l', visited, ran, order.trans (by decide), spells⟩

end Swam.Worklist
