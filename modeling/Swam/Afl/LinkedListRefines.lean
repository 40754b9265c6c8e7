import Swam.Afl.LinkedListSound

/-!
# `list_t` is a sequence

The purpose of the list, in its own terms: a sequence of values, each under a tag of its own, and
the loops that go over it. A loop has the tag of its element and of the one it goes on with. The
steps that a program may take are those with a result here; on these the ring follows the
sequence.
-/
namespace Swam.Afl.LinkedList

open Lib

/-- Where a loop is: its element, and the tag it goes on with, if the end is not reached. -/
structure Cursor where
  tag : Nat
  value : Nat
  next : Option Nat
deriving DecidableEq

/-- A sequence of tagged values, the next unused tag, and the loops that are running. -/
structure Sequence where
  ready : Bool
  items : List (Nat × Nat)
  unused : Nat
  cursors : List Cursor
deriving DecidableEq

namespace Sequence

def tags (q : Sequence) : List Nat := q.items.map Prod.fst

def values (q : Sequence) : List Nat := q.items.map Prod.snd

/-- The cursor at a tag. -/
def cursor (q : Sequence) (tag : Nat) : Option Cursor :=
  match q.items.dropWhile (·.1 ≠ tag) with
  | [] => none
  | (tag, value) :: rest => some ⟨tag, value, rest.head?.map Prod.fst⟩

/-- Some loop goes on with the tag. -/
def awaited (q : Sequence) (tag : Nat) : Bool := q.cursors.any fun c => c.next = some tag

def without (q : Sequence) (tag : Nat) : Sequence :=
  { q with items := q.items.filter (·.1 ≠ tag) }

/-- The steps of a program that keeps to the rules of the list. -/
def step (q : Sequence) : Op → Option Sequence
  | .append el => some { q with
      ready := true
      items := q.items ++ [(q.unused, el)]
      unused := q.unused + 1 }
  | .remove el =>
    -- Only data that occurs, and no element that a loop goes on with.
    match q.items.find? (·.2 = el) with
    | none => none
    | some (tag, _) => if q.awaited tag then none else some (q.without tag)
  | .foreach =>
    -- Only on a list that had an element once.
    if q.ready then
      match q.items with
      | [] => some q
      | (tag, _) :: _ => (q.cursor tag).map fun c => { q with cursors := c :: q.cursors }
    else none
  | .rereadNext =>
    match q.cursors with
    | [] => none
    | c :: outer => (q.cursor c.tag).map fun now => { q with cursors := { c with next := now.next } :: outer }
  | .removeCurrent =>
    -- Only while the saved pointer is the one of the element, so that no element is cut off.
    match q.cursors with
    | [] => none
    | c :: _ =>
      match q.cursor c.tag with
      | none => none
      | some now => if now.next = c.next ∧ q.awaited c.tag = false then some (q.without c.tag) else none
  | .advance =>
    match q.cursors with
    | [] => none
    | c :: outer =>
      match c.next with
      | none => some { q with cursors := outer }
      | some tag => (q.cursor tag).map fun now => { q with cursors := now :: outer }
  | .leave =>
    match q.cursors with
    | [] => none
    | _ :: outer => some { q with cursors := outer }

def start : Sequence where
  ready := false
  items := []
  unused := 0
  cursors := []

def run (q : Sequence) (ops : List Op) : Option Sequence := ops.foldlM step q

/-! ## What the steps do to the sequence -/

section
variable {q q' : Sequence} {tag value : Nat} {us vs : List (Nat × Nat)}

private theorem tag_notMem (split : q.items = us ++ (tag, value) :: vs) (distinct : q.tags.Nodup) :
    tag ∉ us.map Prod.fst ∧ tag ∉ vs.map Prod.fst := by
  rw [tags, split, List.map_append, List.map_cons, List.nodup_middle] at distinct
  have apart := (List.nodup_cons.mp distinct).1
  rwa [List.mem_append, not_or] at apart

private theorem dropWhile_tag (us : List (Nat × Nat)) (absent : tag ∉ us.map Prod.fst) :
    (us ++ (tag, value) :: vs).dropWhile (·.1 ≠ tag) = (tag, value) :: vs := by
  induction us with
  | nil => simp
  | cons u us ih =>
    simp only [List.map_cons, List.mem_cons, not_or] at absent
    simp only [List.cons_append, List.dropWhile_cons, decide_not, Bool.not_eq_true',
      decide_eq_false_iff_not, Ne.symm absent.1, not_false_eq_true, if_true]
    simpa using ih absent.2

theorem cursor_split (split : q.items = us ++ (tag, value) :: vs) (distinct : q.tags.Nodup) :
    q.cursor tag = some ⟨tag, value, vs.head?.map Prod.fst⟩ := by
  rw [cursor, split, dropWhile_tag us (tag_notMem split distinct).1]

theorem exists_split_of_mem (member : tag ∈ q.tags) :
    ∃ us value vs, q.items = us ++ (tag, value) :: vs := by
  obtain ⟨⟨_, value⟩, inside, rfl⟩ := List.mem_map.mp member
  obtain ⟨us, vs, split⟩ := List.append_of_mem inside
  exact ⟨us, value, vs, split⟩

theorem cursor_some {c : Cursor} (found : q.cursor tag = some c) :
    tag ∈ q.tags ∧ c.tag = tag := by
  rw [cursor] at found
  split at found
  · cases found
  next t v rest dropped =>
    cases found
    have here : t = tag := by
      by_contra different
      have := List.head?_dropWhile_not (fun x : Nat × Nat => decide (x.1 ≠ tag)) q.items
      rw [dropped] at this
      simp [different] at this
    subst here
    refine ⟨?_, rfl⟩
    have inside : (t, v) ∈ q.items :=
      (List.dropWhile_sublist _).subset (dropped ▸ List.mem_cons_self)
    exact List.mem_map_of_mem inside

theorem without_items (split : q.items = us ++ (tag, value) :: vs) (distinct : q.tags.Nodup) :
    (q.without tag).items = us ++ vs := by
  obtain ⟨left, right⟩ := tag_notMem split distinct
  have others {zs : List (Nat × Nat)} (absent : tag ∉ zs.map Prod.fst) :
      zs.filter (·.1 ≠ tag) = zs := by
    rw [List.filter_eq_self]
    intro x member
    have : x.1 ≠ tag := by
      rintro rfl
      exact absent (List.mem_map_of_mem member)
    simpa using this
  rw [without]
  simp only [split, List.filter_append]
  rw [others left, List.filter_cons_of_neg (by simp), others right]

end

end Sequence

/-! ## The ring follows the sequence -/

/-- The box of a tag, or the head where the sequence ends. -/
def boxOf (box : Nat → Box) : Option Nat → Box
  | none => getHead
  | some tag => box tag

/-- A loop of the program is where a cursor is. -/
def Follows (box : Nat → Box) (tags : List Nat) (loop : Loop) (c : Cursor) : Prop :=
  loop.el = c.value ∧ loop.next = some (boxOf box c.next) ∧ (c.tag ∈ tags → loop.elBox = box c.tag)

/-- The list and the loops of a program are those of a sequence, the boxes named by tags. -/
structure Matches (box : Nat → Box) (s : State) (q : Sequence) : Prop where
  holds : q.ready = true → Holds s.list.fields (q.tags.map box) q.values
  untouched : q.ready = false → Untouched s.list ∧ q.items = [] ∧ q.cursors = []
  distinct : q.tags.Nodup
  below : ∀ tag ∈ q.tags, tag < q.unused
  loops : List.Forall₂ (Follows box q.tags) s.loops q.cursors
  earlier : ∀ c ∈ q.cursors, c.tag < q.unused
  awaits : ∀ c ∈ q.cursors, ∀ tag, c.next = some tag → tag ∈ q.tags

section
variable {box : Nat → Box} {s : State} {q q' : Sequence}

private theorem boxes_back (box : Nat → Box) (vs : List (Nat × Nat)) :
    ∃ post, (vs.map Prod.fst).map box ++ [getHead] = boxOf box (vs.head?.map Prod.fst) :: post := by
  cases vs with
  | nil => exact ⟨[], rfl⟩
  | cons v vs => exact ⟨(vs.map Prod.fst).map box ++ [getHead], rfl⟩

private theorem split_unique {α : Type} {a : α} {xs xs' ys ys' : List α}
    (same : xs ++ a :: ys = xs' ++ a :: ys') (absent : a ∉ xs) (absent' : a ∉ xs') :
    xs = xs' ∧ ys = ys' := by
  induction xs generalizing xs' with
  | nil =>
    cases xs' with
    | nil => exact ⟨rfl, (List.cons.inj same).2⟩
    | cons x xs' => exact absurd ((List.cons.inj same).1 ▸ List.mem_cons_self) absent'
  | cons x xs ih =>
    cases xs' with
    | nil => exact absurd ((List.cons.inj same).1 ▸ List.mem_cons_self) absent
    | cons x' xs' =>
      obtain ⟨rfl, rest⟩ := List.cons.inj same
      obtain ⟨rfl, rfl⟩ := ih rest (fun member => absent (List.mem_cons_of_mem _ member))
        (fun member => absent' (List.mem_cons_of_mem _ member))
      exact ⟨rfl, rfl⟩

private theorem forall₂_imp_right {α β : Type} {R S : α → β → Prop} {xs : List α} {ys : List β}
    (each : List.Forall₂ R xs ys) (implies : ∀ a, ∀ b ∈ ys, R a b → S a b) :
    List.Forall₂ S xs ys := by
  induction each with
  | nil => exact .nil
  | cons first _ ih =>
    exact .cons (implies _ _ List.mem_cons_self first)
      (ih fun a b member => implies a b (List.mem_cons_of_mem _ member))

/-- A sequence with an element has a ring. -/
private theorem ready_of_item (matched : Matches box s q) {us vs : List (Nat × Nat)} {x : Nat × Nat}
    (split : q.items = us ++ x :: vs) : q.ready = true := by
  by_contra never
  have empty := (matched.untouched (by simpa using never)).2.1
  simp [empty] at split

private theorem holds_split (matched : Matches box s q) {us vs : List (Nat × Nat)} {tag value : Nat}
    (split : q.items = us ++ (tag, value) :: vs) :
    Holds s.list.fields ((us.map Prod.fst).map box ++ box tag :: (vs.map Prod.fst).map box)
      (us.map Prod.snd ++ value :: vs.map Prod.snd) := by
  have holds := matched.holds (ready_of_item matched split)
  rw [Sequence.tags, Sequence.values, split] at holds
  simpa using holds

/-- A round at an element starts where the cursor at its tag is. -/
theorem enterRound_cursor (matched : Matches box s q) {tag : Nat} {c : Cursor}
    (found : q.cursor tag = some c) :
    ∃ loop, enterRound s.list (some (box tag)) = .ok (some loop) ∧ Follows box q.tags loop c ∧
      c.tag < q.unused ∧ ∀ n, c.next = some n → n ∈ q.tags := by
  obtain ⟨member, _⟩ := Sequence.cursor_some found
  obtain ⟨us, value, vs, split⟩ := Sequence.exists_split_of_mem member
  rw [Sequence.cursor_split split matched.distinct] at found
  cases found
  obtain ⟨post, back⟩ := boxes_back box vs
  refine ⟨_, enterRound_spec (holds_split matched split) (by simp) back, ⟨rfl, rfl, fun _ => rfl⟩,
    matched.below tag member, ?_⟩
  intro n next
  obtain ⟨x, first, rfl⟩ := Option.map_eq_some_iff.mp next
  rw [Sequence.tags, split]
  have inside : x ∈ us ++ (tag, value) :: vs := by simp [List.mem_of_mem_head? first]
  exact List.mem_map_of_mem inside

/-- An element that no loop goes on with can be taken out. -/
theorem matches_without (matched : Matches box s q) {us vs : List (Nat × Nat)} {tag value : Nat}
    (split : q.items = us ++ (tag, value) :: vs) (free : q.awaited tag = false) {l' : ListT}
    (holds' : Holds l'.fields ((us.map Prod.fst).map box ++ (vs.map Prod.fst).map box)
      (us.map Prod.snd ++ vs.map Prod.snd)) :
    Matches box { s with list := l' } (q.without tag) := by
  have items := Sequence.without_items split matched.distinct
  have tags : (q.without tag).tags = us.map Prod.fst ++ vs.map Prod.fst := by
    rw [Sequence.tags, items, List.map_append]
  have kept {n : Nat} (member : n ∈ (q.without tag).tags) : n ∈ q.tags := by
    rw [tags] at member
    rw [Sequence.tags, split, List.map_append, List.map_cons]
    exact (List.Sublist.append_left (List.sublist_cons_self _ _) _).subset member
  have ready : q.ready = true := ready_of_item matched split
  refine ⟨?_, ?_, ?_, ?_, ?_, matched.earlier, ?_⟩
  · intro _
    rw [tags, Sequence.values, items, List.map_append, List.map_append]
    exact holds'
  · intro never
    exact absurd (ready.symm.trans never) (by simp)
  · have distinct := matched.distinct
    rw [Sequence.tags, split, List.map_append, List.map_cons] at distinct
    rw [tags]
    exact distinct.sublist (List.Sublist.append_left (List.sublist_cons_self _ _) _)
  · intro n member
    exact matched.below n (kept member)
  · refine matched.loops.imp ?_
    intro loop c ⟨data, next, here⟩
    exact ⟨data, next, fun member => here (kept member)⟩
  · intro c member n next
    have old := matched.awaits c member n next
    have other : n ≠ tag := by
      rintro rfl
      have : q.awaited n = true := List.any_eq_true.mpr ⟨c, member, by simpa using next⟩
      exact absurd (this.symm.trans free) (by simp)
    rw [Sequence.tags, split] at old
    rw [tags]
    simpa [other] using old

/-- A new element is under a tag that no loop knows. -/
theorem matches_append (matched : Matches box s q) (el : Nat) {b : Box} {l' : ListT}
    (holds' : Holds l'.fields (q.tags.map box ++ [b]) (q.values ++ [el])) :
    Matches (Function.update box q.unused b) { s with list := l' }
      { q with ready := true, items := q.items ++ [(q.unused, el)], unused := q.unused + 1 } := by
  have old {n : Nat} (below : n < q.unused) : Function.update box q.unused b n = box n :=
    Function.update_of_ne (by omega) _ _
  have tags : Sequence.tags { q with
      ready := true, items := q.items ++ [(q.unused, el)], unused := q.unused + 1 } =
        q.tags ++ [q.unused] := by
    simp [Sequence.tags]
  refine ⟨?_, fun never => by simp at never, ?_, ?_, ?_, ?_, ?_⟩
  · intro _
    have boxes : q.tags.map (Function.update box q.unused b) = q.tags.map box :=
      List.map_congr_left fun n member => old (matched.below n member)
    rw [tags, List.map_append, boxes]
    simpa [Sequence.values] using holds'
  · rw [tags]
    refine List.nodup_append'.mpr ⟨matched.distinct, List.nodup_singleton _, ?_⟩
    intro n member inside
    cases List.mem_singleton.mp inside
    exact Nat.lt_irrefl _ (matched.below _ member)
  · intro n member
    rw [tags, List.mem_append, List.mem_singleton] at member
    rcases member with member | rfl
    · exact Nat.lt_succ_of_lt (matched.below n member)
    · exact Nat.lt_succ_self _
  · rw [tags]
    refine forall₂_imp_right matched.loops ?_
    rintro loop c among ⟨data, next, here⟩
    refine ⟨data, ?_, ?_⟩
    · rw [next]
      cases goesOn : c.next with
      | none => rfl
      | some n => exact congrArg some (old (matched.below n (matched.awaits c among n goesOn))).symm
    · intro member
      rw [old (matched.earlier c among)]
      rcases List.mem_append.mp member with member | member
      · exact here member
      · have same := List.mem_singleton.mp member
        have := matched.earlier c among
        omega
  · intro c member
    exact Nat.lt_succ_of_lt (matched.earlier c member)
  · intro c member n next
    rw [tags]
    exact List.mem_append_left _ (matched.awaits c member n next)

/-- The loops may change as long as each is where its cursor is. -/
theorem matches_loops (matched : Matches box s q) (ready : q.ready = true) {loops : List Loop}
    {cursors : List Cursor} (follow : List.Forall₂ (Follows box q.tags) loops cursors)
    (earlier : ∀ c ∈ cursors, c.tag < q.unused)
    (awaits : ∀ c ∈ cursors, ∀ tag, c.next = some tag → tag ∈ q.tags) :
    Matches box { s with loops } { q with cursors } where
  holds := matched.holds
  untouched := fun never => absurd (ready.symm.trans never) (by simp)
  distinct := matched.distinct
  below := matched.below
  loops := follow
  earlier := earlier
  awaits := awaits

/-- A round that starts at a tag puts a loop above the others. -/
private theorem matches_round (matched : Matches box s q) {tag : Nat} {c : Cursor}
    (found : q.cursor tag = some c) {loops : List Loop} {cursors : List Cursor}
    (follow : List.Forall₂ (Follows box q.tags) loops cursors) (among : cursors ⊆ q.cursors) :
    ∃ loop, enterRound s.list (some (box tag)) = .ok (some loop) ∧
      Matches box { s with loops := loop :: loops } { q with cursors := c :: cursors } := by
  obtain ⟨loop, entered, follows, earlier, awaits⟩ := enterRound_cursor matched found
  obtain ⟨us, value, vs, split⟩ := Sequence.exists_split_of_mem (Sequence.cursor_some found).1
  refine ⟨loop, entered, matches_loops matched (ready_of_item matched split) (.cons follows follow) ?_ ?_⟩
  · exact List.forall_mem_cons.mpr ⟨earlier, fun c member => matched.earlier c (among member)⟩
  · exact List.forall_mem_cons.mpr ⟨awaits, fun c member => matched.awaits c (among member)⟩

/-- What the sequence allows, the list does, and they match again. -/
theorem step_matches (matched : Matches box s q) (op : Op) (taken : q.step op = some q') :
    ∃ box' s', step s op = .ok s' ∧ Matches box' s' q' := by
  cases op with
  | append el =>
    cases taken
    cases ready : q.ready with
    | true =>
      obtain ⟨b, l', appended, _, holds'⟩ := listAppend_spec (matched.holds ready) el
      exact ⟨_, _, by rw [step, appended]; rfl, matches_append matched el holds'⟩
    | false =>
      obtain ⟨untouched, empty, _⟩ := matched.untouched ready
      obtain ⟨b, l', appended, _, holds'⟩ := listAppend_untouched untouched el
      refine ⟨_, _, by rw [step, appended]; rfl, matches_append matched el (b := b) ?_⟩
      simpa [Sequence.tags, Sequence.values, empty] using holds'
  | remove el =>
    simp only [Sequence.step] at taken
    split at taken
    · cases taken
    next tag value found =>
      split at taken
      · cases taken
      next free =>
        cases taken
        obtain ⟨here, us, vs, split, before⟩ := List.find?_eq_some_iff_append.mp found
        obtain rfl : value = el := by simpa using here
        have absent : value ∉ us.map Prod.snd := by
          intro member
          obtain ⟨x, inside, rfl⟩ := List.mem_map.mp member
          simpa using before x inside
        obtain ⟨zs, b, tl, ws, rest, l', boxes, values, absent', lengths, removed, holds'⟩ :=
          listRemove_spec (holds_split matched split)
            (show value ∈ us.map Prod.snd ++ value :: vs.map Prod.snd by simp)
        obtain ⟨rfl, rfl⟩ := split_unique values absent absent'
        obtain ⟨rfl, rest⟩ := List.append_inj boxes (by simpa using lengths.symm)
        obtain ⟨rfl, rfl⟩ := List.cons.inj rest
        exact ⟨box, _, by rw [step, removed]; rfl, matches_without matched split (by simpa using free) holds'⟩
  | foreach =>
    simp only [Sequence.step] at taken
    split at taken
    next ready =>
      have holds := matched.holds ready
      obtain ⟨head, c, loaded, first, post, back⟩ := load_head holds
      have entered : listForeach s.list = enterRound s.list (some c) := by
        rw [listForeach, loaded, ok_bind, first]
      split at taken
      next empty =>
        cases taken
        rw [Sequence.tags, empty] at back
        cases back
        exact ⟨box, s, by rw [step, entered]; rfl, matched⟩
      next tag value rest split =>
        obtain ⟨now, found, same⟩ := Option.map_eq_some_iff.mp taken
        subst same
        rw [Sequence.tags, split] at back
        cases back
        obtain ⟨loop, round, matched'⟩ := matches_round matched found matched.loops (List.Subset.refl _)
        exact ⟨box, _, by rw [step, entered, round]; rfl, matched'⟩
    · cases taken
  | rereadNext =>
    simp only [Sequence.step] at taken
    split at taken
    · cases taken
    next c outer cursors =>
      obtain ⟨now, found, same⟩ := Option.map_eq_some_iff.mp taken
      subst same
      have follow := matched.loops
      have earlier := matched.earlier
      have awaits := matched.awaits
      rw [cursors] at follow earlier awaits
      obtain ⟨loop, loops, ⟨data, next, here⟩, others, loops_eq⟩ := List.forall₂_cons_right_iff.mp follow
      obtain ⟨member, _⟩ := Sequence.cursor_some found
      obtain ⟨us, value, vs, split⟩ := Sequence.exists_split_of_mem member
      obtain ⟨_, _, _, _, awaits'⟩ := enterRound_cursor matched found
      rw [Sequence.cursor_split split matched.distinct] at found
      cases found
      obtain ⟨post, back⟩ := boxes_back box vs
      have reread := rereadNext_spec (holds_split matched split) back loop (here member)
      refine ⟨box, { s with loops := { loop with next := some (boxOf box (vs.head?.map Prod.fst)) } :: loops },
        ?_, ?_⟩
      · rw [step, loops_eq]
        change (rereadNext s.list loop >>= _) = _
        rw [reread]
        rfl
      · refine matches_loops matched (ready_of_item matched split) (.cons ⟨data, rfl, here⟩ others) ?_ ?_
        · exact List.forall_mem_cons.mpr (List.forall_mem_cons.mp earlier)
        · exact List.forall_mem_cons.mpr ⟨awaits', (List.forall_mem_cons.mp awaits).2⟩
  | removeCurrent =>
    simp only [Sequence.step] at taken
    split at taken
    · cases taken
    next c outer cursors =>
      split at taken
      · cases taken
      next now found =>
        split at taken
        next allowed =>
          cases taken
          have follow := matched.loops
          rw [cursors] at follow
          obtain ⟨loop, loops, ⟨data, next, here⟩, others, loops_eq⟩ :=
            List.forall₂_cons_right_iff.mp follow
          obtain ⟨member, _⟩ := Sequence.cursor_some found
          obtain ⟨us, value, vs, split⟩ := Sequence.exists_split_of_mem member
          rw [Sequence.cursor_split split matched.distinct] at found
          cases found
          obtain ⟨post, back⟩ := boxes_back box vs
          obtain ⟨l₁, unlinked, ⟨l', freed, holds'⟩, _⟩ :=
            unlink_free_spec (holds_split matched split) (by simp) back
          refine ⟨box, { s with list := l' }, ?_, matches_without matched split allowed.2 holds'⟩
          have removed : listRemoveCurrentEl s.list loop = .ok l' := by
            rw [listRemoveCurrentEl, here member, next, ← allowed.1, unlinked, ok_bind, freed]
          rw [step, loops_eq]
          change (listRemoveCurrentEl s.list loop >>= _) = _
          rw [removed]
          rfl
        · cases taken
  | advance =>
    simp only [Sequence.step] at taken
    split at taken
    · cases taken
    next c outer cursors =>
      have follow := matched.loops
      have earlier := matched.earlier
      have awaits := matched.awaits
      rw [cursors] at follow earlier awaits
      obtain ⟨loop, loops, ⟨_, next, _⟩, others, loops_eq⟩ := List.forall₂_cons_right_iff.mp follow
      have ready : q.ready = true := by
        by_contra never
        have idle := (matched.untouched (by simpa using never)).2.2
        rw [idle] at cursors
        cases cursors
      split at taken
      next last =>
        cases taken
        refine ⟨box, { s with loops := loops }, ?_, matches_loops matched ready others
          (List.forall_mem_cons.mp earlier).2 (List.forall_mem_cons.mp awaits).2⟩
        rw [step, loops_eq]
        change (enterRound s.list loop.next >>= _) = _
        rw [next, last]
        rfl
      next tag goesOn =>
        obtain ⟨now, found, same⟩ := Option.map_eq_some_iff.mp taken
        subst same
        obtain ⟨loop', round, matched'⟩ := matches_round matched found others
          (by rw [cursors]; exact List.subset_cons_self _ _)
        refine ⟨box, _, ?_, matched'⟩
        rw [step, loops_eq]
        change (enterRound s.list loop.next >>= _) = _
        rw [next, goesOn]
        change (enterRound s.list (some (box tag)) >>= _) = _
        rw [round]
        rfl
  | leave =>
    simp only [Sequence.step] at taken
    split at taken
    · cases taken
    next c outer cursors =>
      cases taken
      have follow := matched.loops
      have earlier := matched.earlier
      have awaits := matched.awaits
      rw [cursors] at follow earlier awaits
      obtain ⟨loop, loops, _, others, loops_eq⟩ := List.forall₂_cons_right_iff.mp follow
      have ready : q.ready = true := by
        by_contra never
        have idle := (matched.untouched (by simpa using never)).2.2
        rw [idle] at cursors
        cases cursors
      refine ⟨box, { s with loops := s.loops.tail }, rfl, ?_⟩
      rw [loops_eq]
      exact matches_loops matched ready others (List.forall_mem_cons.mp earlier).2
        (List.forall_mem_cons.mp awaits).2

/-- Every run that the sequence allows is a run of the list. -/
theorem run_matches (matched : Matches box s q) (ops : List Op) (taken : q.run ops = some q') :
    ∃ box' s', run s ops = .ok s' ∧ Matches box' s' q' := by
  induction ops generalizing box s q with
  | nil =>
    cases taken
    exact ⟨box, s, rfl, matched⟩
  | cons op ops ih =>
    rw [Sequence.run, List.foldlM_cons] at taken
    obtain ⟨q₁, first, rest⟩ := Option.bind_eq_some_iff.mp taken
    obtain ⟨box₁, s₁, stepped, matched₁⟩ := step_matches matched op first
    obtain ⟨box', s', ran, matched'⟩ := ih matched₁ rest
    refine ⟨box', s', ?_, matched'⟩
    rw [run, List.foldlM_cons, stepped]
    exact ran

theorem matches_start {l : ListT} (untouched : Untouched l) :
    Matches (fun _ => getHead) ⟨l, []⟩ Sequence.start where
  holds := fun ready => absurd ready (by simp [Sequence.start])
  untouched := fun _ => ⟨untouched, rfl, rfl⟩
  distinct := List.nodup_nil
  below := fun _ member => absurd member List.not_mem_nil
  loops := .nil
  earlier := fun _ member => absurd member List.not_mem_nil
  awaits := fun _ member => absurd member List.not_mem_nil

end

/-! ## The list as a whole -/

/-- The slots of the buffer that are in use. -/
def usedSlots (l : ListT) : Nat :=
  (List.range listPreallocSize).countP fun i => l.fields.status (.slot i) = some .used

/-- The ring from the head spells the values, forwards and backwards, and the counters are right. -/
def Spells (l : ListT) (values : List Nat) : Prop :=
  ∃ boxes, Ring l.fields.next l.fields.prev getHead boxes ∧ (getHead :: boxes).Nodup ∧
    boxes.map l.fields.data = values.map some ∧
    l.elementTotalCount = s32 values.length ∧ l.elementPreallocCount = usedSlots l

theorem Holds.spells {l : ListT} {boxes : List Box} {values : List Nat}
    (holds : Holds l.fields boxes values) : Spells l values := by
  have lengths : boxes.length = values.length := by
    have := congrArg List.length holds.data
    simpa using this
  refine ⟨boxes, holds.ring, holds.different, holds.data, lengths ▸ holds.total, ?_⟩
  refine holds.prealloc.trans ?_
  rw [countP_isSlot holds.different holds.known, usedSlots, holds.status]
  norm_cast
  apply List.countP_congr
  intro i inside
  by_cases member : Box.slot i ∈ getHead :: boxes
  · simp [statusOf, List.mem_range.mp inside, member]
  · simp [statusOf, List.mem_range.mp inside, member]

/-- In every run that keeps to the rules the list is the sequence, and no step fails. -/
theorem list_refines_sequence {l : ListT} (untouched : Untouched l) {ops : List Op} {q : Sequence}
    (allowed : Sequence.run .start ops = some q) :
    ∃ s, run ⟨l, []⟩ ops = .ok s ∧ s.loops.map Loop.el = q.cursors.map Cursor.value ∧
      (q.ready = true → Spells s.list q.values) := by
  obtain ⟨box, s, ran, matched⟩ := run_matches (matches_start untouched) ops allowed
  refine ⟨s, ran, ?_, fun ready => (matched.holds ready).spells⟩
  have follow := matched.loops
  revert follow
  generalize s.loops = loops
  generalize q.cursors = cursors
  intro follow
  induction follow with
  | nil => rfl
  | cons first _ ih => rw [List.map_cons, List.map_cons, first.1, ih]

/-- A list in memory that was cleared. -/
def clearedList : ListT := zeroed ⟨fun _ => none, 0, 0, 0⟩

theorem clearedList_untouched : Untouched clearedList where
  head := ⟨_, rfl, rfl⟩
  heap := fun _ => rfl

/-- A loop over one element that appends another, goes on with it and takes both out. -/
theorem list_refines_sequence_loop :
    ∃ s, run ⟨clearedList, []⟩ [.append 7, .foreach, .append 8, .rereadNext, .removeCurrent, .advance,
        .append 7, .rereadNext, .removeCurrent, .advance] = .ok s ∧
      s.loops.map Loop.el = [7] ∧ Spells s.list [7] := by
  have allowed : Sequence.run .start [.append 7, .foreach, .append 8, .rereadNext, .removeCurrent,
      .advance, .append 7, .rereadNext, .removeCurrent, .advance] =
        some ⟨true, [(2, 7)], 3, [⟨2, 7, none⟩]⟩ := by decide
  obtain ⟨s, ran, loops, spells⟩ := list_refines_sequence clearedList_untouched allowed
  exact ⟨s, ran, loops, spells rfl⟩

/-! ## What the rules keep out -/

private theorem appends_values (n : Nat) (q : Sequence) :
    ∃ q', q.run (List.replicate n (.append 0)) = some q' ∧
      q'.values = q.values ++ List.replicate n 0 ∧ (0 < n → q'.ready = true) := by
  induction n generalizing q with
  | zero => exact ⟨q, rfl, by simp, by simp⟩
  | succ n ih =>
    obtain ⟨q', ran, values, ready⟩ := ih
      { q with ready := true, items := q.items ++ [(q.unused, 0)], unused := q.unused + 1 }
    refine ⟨q', ran, ?_, ?_⟩
    · rw [values]
      simp [Sequence.values, List.replicate_succ]
    · intro _
      cases n with
      | zero =>
        cases ran
        rfl
      | succ n => exact ready (Nat.succ_pos n)

private theorem appends_spell {n : Nat} (positive : 0 < n) :
    ∃ ops s values, run ⟨clearedList, []⟩ ops = .ok s ∧ Spells s.list values ∧ values.length = n := by
  obtain ⟨q, allowed, values, ready⟩ := appends_values n .start
  obtain ⟨box, s, ran, matched⟩ := run_matches (matches_start clearedList_untouched) _ allowed
  have holds := matched.holds (ready positive)
  refine ⟨_, s, q.values, ran, holds.spells, ?_⟩
  rw [values]
  simp [Sequence.values, Sequence.start]

/-- A loop before the first append, a removal with a pointer that appends made stale, two removals
of one element, the removal of the element that a loop goes on with, and a list that is too long
for its counter. -/
theorem list_not_sequence :
    run ⟨clearedList, []⟩ [.foreach] = .error (.fatal "foreach over uninitialized list") ∧
    (∃ s, run ⟨clearedList, []⟩ [.append 7, .foreach, .append 8, .removeCurrent] = .ok s ∧
      ¬ ∃ values, Spells s.list values) ∧
    run ⟨clearedList, []⟩ [.append 7, .foreach, .removeCurrent, .removeCurrent] =
      .error (.fatal "Double Free Detected") ∧
    run ⟨clearedList, []⟩ [.append 7, .append 8, .foreach, .remove 8, .advance, .removeCurrent] =
      .error (.fatal "Double Free Detected") ∧
    ∃ ops s values, run ⟨clearedList, []⟩ ops = .ok s ∧ Spells s.list values ∧
      s.list.elementTotalCount ≠ values.length := by
  refine ⟨rfl, ?_, rfl, rfl, ?_⟩
  · refine ⟨_, rfl, ?_⟩
    rintro ⟨values, boxes, ring, different, data, total, _⟩
    -- The head goes on to itself, but one element is counted.
    have empty : boxes = [] := by
      cases boxes with
      | nil => rfl
      | cons b boxes =>
        obtain ⟨⟨ahead, _⟩, _⟩ := List.isChain_cons_cons.mp ring
        cases ahead
        exact absurd List.mem_cons_self (List.nodup_cons.mp different).1
    subst empty
    cases List.map_eq_nil_iff.mp data.symm
    exact absurd total (by decide)
  · obtain ⟨ops, s, values, ran, spells, length⟩ := appends_spell (Nat.two_pow_pos 31)
    refine ⟨ops, s, values, ran, spells, ?_⟩
    obtain ⟨_, _, _, _, total, _⟩ := spells
    rw [total, length]
    decide

end Swam.Afl.LinkedList
