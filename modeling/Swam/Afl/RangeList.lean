import Mathlib.Data.List.Perm.Subperm
import Swam.Lib.Links
import Swam.Afl.Colorization

/-!
# The list of ranges

What the operations of the list of ranges do to its cells. The member `prev` of the first cell is
never read before it is written, whatever the memory of a new cell holds.
-/
namespace Swam.Afl.Colorization

open Lib

/-- A range without its pointers. -/
structure Piece where
  start : Nat
  end_ : Nat
  ok : Nat
deriving DecidableEq

def Range.piece (r : Range) : Piece := ⟨r.start, r.end_, r.ok⟩

/-- `1 + end - start` of a piece. -/
def Piece.size (c : Piece) : Nat := (1 + c.end_ + 2 ^ 32 - c.start) % 2 ^ 32

/-- The members of all cells, and the first address that was never used. -/
structure Cells where
  next : Nat → Option Nat
  prev : Nat → Option Nat
  piece : Nat → Option Piece
  used : Nat

def Heap.cells (h : Heap) : Cells where
  next := fun a => (h.cell a).bind Range.next
  prev := fun a => (h.cell a).bind Range.prev
  piece := fun a => (h.cell a).map Range.piece
  used := h.used

section
variable {h : Heap} {a : Nat} {c : Piece}

theorem ok_bind {ε β γ : Type} (x : β) (f : β → Except ε γ) : (Except.ok x >>= f) = f x := rfl

theorem load_piece (live : h.cells.piece a = some c) :
    ∃ r, h.cell a = some r ∧ h.load (some a) = .ok r ∧ r.piece = c ∧ r.next = h.cells.next a ∧
      r.prev = h.cells.prev a := by
  obtain ⟨r, held, same⟩ := Option.map_eq_some_iff.mp live
  refine ⟨r, held, ?_, same, ?_, ?_⟩
  · simp [Heap.load, held]
  · simp [Heap.cells, held]
  · simp [Heap.cells, held]

/-- A write to a cell is a write to each member. -/
theorem modify_piece (live : h.cells.piece a = some c) (f : Range → Range) :
    ∃ r h', h.cell a = some r ∧ h.modify (some a) f = .ok h' ∧
      h'.cells = { h.cells with
        next := Function.update h.cells.next a (f r).next
        prev := Function.update h.cells.prev a (f r).prev
        piece := Function.update h.cells.piece a (some (f r).piece) } := by
  obtain ⟨r, held, _⟩ := load_piece live
  refine ⟨r, { h with cell := Function.update h.cell a (some (f r)) }, held, ?_, ?_⟩
  · simp [Heap.modify, held]
  · simp only [Heap.cells, Cells.mk.injEq, and_true]
    refine ⟨?_, ?_, ?_⟩
    all_goals
      funext x
      by_cases here : x = a
      · subst x
        simp
      · simp [here]

theorem modify_next (live : h.cells.piece a = some c) (p : Option Nat) :
    ∃ h', h.modify (some a) (fun r => { r with next := p }) = .ok h' ∧
      h'.cells = { h.cells with next := Function.update h.cells.next a p } := by
  obtain ⟨r, h', held, wrote, cells⟩ := modify_piece live fun r => { r with next := p }
  exact ⟨h', wrote, cells.trans (by simp [Heap.cells, held, Range.piece])⟩

theorem modify_prev (live : h.cells.piece a = some c) (p : Option Nat) :
    ∃ h', h.modify (some a) (fun r => { r with prev := p }) = .ok h' ∧
      h'.cells = { h.cells with prev := Function.update h.cells.prev a p } := by
  obtain ⟨r, h', held, wrote, cells⟩ := modify_piece live fun r => { r with prev := p }
  exact ⟨h', wrote, cells.trans (by simp [Heap.cells, held, Range.piece])⟩

theorem modify_ok (live : h.cells.piece a = some c) (ok : Nat) :
    ∃ h', h.modify (some a) (fun r => { r with ok }) = .ok h' ∧
      h'.cells = { h.cells with piece := Function.update h.cells.piece a (some { c with ok }) } := by
  obtain ⟨r, h', held, wrote, cells⟩ := modify_piece live fun r => { r with ok }
  obtain ⟨_, held', _, same, _⟩ := load_piece live
  rw [held] at held'
  cases held'
  exact ⟨h', wrote, cells.trans (by simp [Heap.cells, held, ← same, Range.piece])⟩

end

/-! ## The list -/

/-- The list goes through some cells, the last of which has no next one. -/
structure Listed (w : Cells) (ranges : Option Nat) (cs : List (Nat × Piece)) : Prop where
  head : ranges = cs.head?.map Prod.fst
  linked : Linked w.next w.prev (cs.map Prod.fst)
  last : ∀ a ∈ (cs.map Prod.fst).getLast?, w.next a = none
  different : (cs.map Prod.fst).Nodup
  holds : ∀ c ∈ cs, w.piece c.1 = some c.2
  below : ∀ c ∈ cs, c.1 < w.used

section
variable {h : Heap} {ranges : Option Nat} {cs xs ys : List (Nat × Piece)} {a : Nat} {c : Piece}

/-- The pointer from a cell goes to the one after it. -/
theorem Listed.next {w : Cells} (listed : Listed w ranges (xs ++ (a, c) :: ys)) :
    w.next a = ys.head?.map Prod.fst := by
  cases ys with
  | nil => exact listed.last a (by simp)
  | cons y ys =>
    have linked := listed.linked
    rw [List.map_append, List.map_cons, List.map_cons] at linked
    exact (linked_append_cons_cons.mp linked).2.1.1

theorem Listed.prev {w : Cells} {x : Nat × Piece}
    (listed : Listed w ranges (xs ++ x :: (a, c) :: ys)) : w.prev a = some x.1 := by
  have linked := listed.linked
  rw [List.map_append, List.map_cons, List.map_cons] at linked
  exact (linked_append_cons_cons.mp linked).2.1.2

/-- `add_range` puts a range in front. -/
theorem addRange_spec (listed : Listed h.cells ranges cs) (start end_ : Nat) :
    ∃ r h', addRange h ranges start end_ = .ok (r, h') ∧ h.used ≤ h'.used ∧
      Listed h'.cells (some r) ((r, ⟨start, end_, 0⟩) :: cs) := by
  have apart (c : Nat × Piece) (member : c ∈ cs) : c.1 ≠ h.used := (listed.below c member).ne
  have fresh : h.used ∉ cs.map Prod.fst := by
    intro inside
    obtain ⟨c, member, same⟩ := List.mem_map.mp inside
    exact apart c member same
  have grown : (h.alloc start end_ ranges).cells = { h.cells with
      next := Function.update h.cells.next h.used ranges
      prev := Function.update h.cells.prev h.used (h.garbage h.used)
      piece := Function.update h.cells.piece h.used (some ⟨start, end_, 0⟩)
      used := h.used + 1 } := by
    simp only [Heap.cells, Heap.alloc, Cells.mk.injEq, and_true]
    refine ⟨?_, ?_, ?_⟩
    all_goals
      funext x
      by_cases here : x = h.used
      · subst x
        simp [Range.piece]
      · simp [here]
  cases cs with
  | nil =>
    have head : ranges = none := listed.head
    subst head
    refine ⟨h.used, h.alloc start end_ none, rfl, Nat.le_succ _, ?_⟩
    rw [grown]
    refine ⟨rfl, .singleton _, ?_, List.nodup_singleton _, ?_, ?_⟩
    · intro a member
      obtain rfl : h.used = a := by simpa using member
      simp
    · simp
    · simp
  | cons first cs =>
    have head : ranges = some first.1 := listed.head
    subst head
    have live : (h.alloc start end_ (some first.1)).cells.piece first.1 = some first.2 := by
      rw [grown]
      exact (Function.update_of_ne (apart first List.mem_cons_self) _ _).trans
        (listed.holds first List.mem_cons_self)
    obtain ⟨h', wrote, cells⟩ := modify_prev live (some h.used)
    have kept : h'.used = h.used + 1 := by
      change h'.cells.used = _
      rw [cells, grown]
    refine ⟨h.used, h', ?_, by omega, ?_⟩
    · simp only [addRange, Option.isSome_some, if_true]
      rw [wrote]
      rfl
    · rw [cells, grown]
      refine ⟨rfl, ?_, ?_, List.nodup_cons.mpr ⟨fresh, listed.different⟩, ?_, ?_⟩
      · refine List.isChain_cons_cons.mpr ⟨⟨by simp, by simp⟩, ?_⟩
        refine Linked.congr listed.linked ?_ ?_
        · intro x member
          have inside := List.dropLast_subset _ member
          exact Function.update_of_ne (by rintro rfl; exact fresh inside) _ _
        · intro x member
          have inside := List.mem_of_mem_tail member
          have distinct := listed.different
          have other : x ≠ first.1 := by
            rintro rfl
            exact (List.nodup_cons.mp distinct).1 member
          exact (Function.update_of_ne other _ _).trans
            (Function.update_of_ne (by rintro rfl; exact fresh inside) _ _)
      · intro x member
        rw [List.map_cons, List.map_cons, List.getLast?_cons_cons] at member
        have inside := List.mem_of_getLast? member
        exact (Function.update_of_ne (by rintro rfl; exact fresh inside) _ _).trans
          (listed.last x member)
      · intro c member
        rcases List.mem_cons.mp member with rfl | member
        · simp
        · exact (Function.update_of_ne (apart c member) _ _).trans (listed.holds c member)
      · intro c member
        rcases List.mem_cons.mp member with rfl | member
        · exact Nat.lt_succ_self _
        · exact Nat.lt_succ_of_lt (listed.below c member)

private theorem neighbours_apart (listed : Listed h.cells ranges (xs ++ (a, c) :: ys)) :
    a ∉ xs.map Prod.fst ∧ a ∉ ys.map Prod.fst ∧ (xs.map Prod.fst ++ ys.map Prod.fst).Nodup := by
  have different := listed.different
  rw [List.map_append, List.map_cons, List.nodup_middle, List.nodup_cons, List.mem_append,
    not_or] at different
  exact ⟨different.1.1, different.1.2, different.2⟩

/-- A list is what its cells and pointers outside a freed cell say. -/
private theorem listed_of_agree {w w' : Cells} {ranges' : Option Nat}
    (listed : Listed w ranges (xs ++ (a, c) :: ys)) (apart : a ∉ (xs ++ ys).map Prod.fst)
    (head : ranges' = (xs ++ ys).head?.map Prod.fst)
    (linked : Linked w'.next w'.prev ((xs ++ ys).map Prod.fst))
    (last : ∀ b ∈ ((xs ++ ys).map Prod.fst).getLast?, w'.next b = none)
    (pieces : ∀ b, b ≠ a → w'.piece b = w.piece b) (used : w'.used = w.used) :
    Listed w' ranges' (xs ++ ys) := by
  have among {b : Nat × Piece} (member : b ∈ xs ++ ys) : b ∈ xs ++ (a, c) :: ys := by
    rcases List.mem_append.mp member with member | member <;> simp [member]
  have distinct := listed.different
  refine ⟨head, linked, last, ?_, ?_, ?_⟩
  · refine distinct.sublist (List.Sublist.map _ ?_)
    exact List.Sublist.append_left (List.sublist_cons_self _ _) _
  · intro b member
    have other : b.1 ≠ a := by
      rintro rfl
      exact apart (List.mem_map_of_mem member)
    rw [pieces b.1 other]
    exact listed.holds b (among member)
  · intro b member
    rw [used]
    exact listed.below b (among member)

/-- A range that is taken out and freed leaves the others as they were. -/
theorem unlinkRange_spec (listed : Listed h.cells ranges (xs ++ (a, c) :: ys)) :
    ∃ ranges' h', unlinkRange h ranges a = .ok (ranges', h') ∧ h'.used = h.used ∧
      Listed (h'.free a).cells ranges' (xs ++ ys) := by
  obtain ⟨notXs, notYs, distinct⟩ := neighbours_apart listed
  have apart : a ∉ (xs ++ ys).map Prod.fst := by
    rw [List.map_append, List.mem_append]
    exact not_or.mpr ⟨notXs, notYs⟩
  have freed (g : Heap) : (g.free a).cells = { g.cells with
      next := Function.update g.cells.next a none
      prev := Function.update g.cells.prev a none
      piece := Function.update g.cells.piece a none } := by
    simp only [Heap.cells, Heap.free, Cells.mk.injEq, and_true]
    refine ⟨?_, ?_, ?_⟩
    all_goals
      funext x
      by_cases here : x = a
      · subst x
        simp
      · simp [here]
  have away {b : Nat} (member : b ∈ (xs ++ ys).map Prod.fst) : b ≠ a := by
    rintro rfl
    exact apart member
  obtain ⟨e, held, loaded, _, next, prev⟩ := load_piece (listed.holds (a, c) (by simp))
  rw [listed.next] at next
  cases xs with
  | nil =>
    -- The first range: the one after it becomes the first.
    have head : ranges = some a := listed.head
    subst head
    cases ys with
    | nil =>
      refine ⟨none, h, ?_, rfl, ?_⟩
      · rw [unlinkRange, loaded, ok_bind, if_pos rfl, next]
        rfl
      · exact ⟨rfl, .nil, by simp, List.nodup_nil, by simp, by simp⟩
    | cons y ys =>
      obtain ⟨h', wrote, cells⟩ := modify_prev (listed.holds y (by simp)) none
      refine ⟨some y.1, h', ?_, congrArg Cells.used cells, ?_⟩
      · rw [unlinkRange, loaded, ok_bind, if_pos rfl, next]
        simp only [List.head?_cons, Option.map_some, Option.isSome_some, if_true]
        rw [wrote]
        rfl
      · refine listed_of_agree listed apart rfl ?_ ?_ ?_ ?_
        · have linked := (List.isChain_cons_cons.mp listed.linked).2
          refine Linked.congr linked ?_ ?_
          · intro b member
            rw [freed, cells]
            exact Function.update_of_ne (away (List.dropLast_subset _ member)) _ _
          · intro b member
            have other : b ≠ y.1 := by
              rintro rfl
              exact (List.nodup_cons.mp distinct).1 member
            rw [freed, cells]
            exact (Function.update_of_ne (away (List.mem_of_mem_tail member)) _ _).trans
              (Function.update_of_ne other _ _)
        · intro b member
          rw [freed, cells]
          refine (Function.update_of_ne (away (List.mem_of_getLast? member)) _ _).trans
            (listed.last b ?_)
          simpa using member
        · intro b other
          rw [freed, cells]
          exact Function.update_of_ne other _ _
        · rw [freed, cells]
  | cons first rest =>
    have notFirst : ranges ≠ some a := by
      rw [listed.head]
      intro same
      exact notXs (by simpa using Or.inl (Option.some.inj same).symm)
    obtain ⟨xs, x, split⟩ : ∃ zs x, first :: rest = zs ++ [x] :=
      ⟨_, _, (List.dropLast_concat_getLast (List.cons_ne_nil first rest)).symm⟩
    rw [split] at listed notXs distinct apart away ⊢
    rw [List.append_assoc, List.singleton_append] at listed
    have before := listed.prev
    rw [before] at prev
    have liveX := listed.holds x (by simp)
    have headSame : ranges = (xs ++ [x] ++ ys).head?.map Prod.fst := by
      rw [listed.head]
      cases xs <;> rfl
    cases ys with
    | nil =>
      obtain ⟨h', wrote, cells⟩ := modify_next liveX none
      refine ⟨ranges, h', ?_, congrArg Cells.used cells, ?_⟩
      · rw [unlinkRange, loaded, ok_bind, if_neg notFirst, next, prev]
        simp only [List.head?_nil, Option.map_none, Option.isSome_none, Bool.false_eq_true, if_false,
          Option.isSome_some, if_true]
        rw [wrote]
        rfl
      · have linked := listed.linked
        rw [List.map_append, List.map_cons] at linked
        have left := (linked_append_cons.mp linked).1
        have last : x.1 ∉ xs.map Prod.fst := by
          rw [List.map_nil, List.append_nil, List.map_append, List.nodup_append'] at distinct
          intro member
          exact distinct.2.2 member (by simp)
        have away {b : Nat} (member : b ∈ (xs ++ [x]).map Prod.fst) : b ≠ a :=
          away (by simpa using member)
        refine listed_of_agree
          (show Listed h.cells ranges ((xs ++ [x]) ++ (a, c) :: []) by simpa using listed)
          apart headSame ?_ ?_ ?_ ?_
        · rw [List.append_nil, List.map_append]
          refine Linked.congr left ?_ ?_
          · intro b member
            have inside : b ∈ xs.map Prod.fst := by simpa using member
            rw [freed, cells]
            refine (Function.update_of_ne (away (by simp_all)) _ _).trans
              (Function.update_of_ne (by rintro rfl; exact last inside) _ _)
          · intro b member
            rw [freed, cells]
            refine Function.update_of_ne (away ?_) _ _
            rw [List.map_append]
            exact List.mem_of_mem_tail member
        · intro b member
          have here : b = x.1 := by simpa using member.symm
          subst here
          rw [freed, cells]
          exact (Function.update_of_ne (away (by simp)) _ _).trans (Function.update_self _ _ _)
        · intro b other
          rw [freed, cells]
          exact Function.update_of_ne other _ _
        · rw [freed, cells]
    | cons y ys =>
      have other : a ≠ x.1 := fun same => notXs (by simp [← same])
      obtain ⟨h₁, wrote₁, cells₁⟩ := modify_next liveX (some y.1)
      obtain ⟨e₁, _, loaded₁, _, next₁, prev₁⟩ := load_piece (h := h₁) (a := a) (c := c)
        (by rw [cells₁]; exact listed.holds (a, c) (by simp))
      have after : h.cells.next a = some y.1 := by
        have whole := listed
        rw [← List.singleton_append, ← List.append_assoc] at whole
        exact whole.next
      rw [cells₁] at next₁ prev₁
      simp only [Function.update_of_ne other, after, before] at next₁ prev₁
      obtain ⟨h', wrote, cells⟩ := modify_prev (h := h₁) (a := y.1) (c := y.2)
        (by rw [cells₁]; exact listed.holds y (by simp)) (some x.1)
      rw [cells₁] at cells
      refine ⟨ranges, h', ?_, congrArg Cells.used cells, ?_⟩
      · rw [unlinkRange, loaded, ok_bind, if_neg notFirst, next, prev]
        simp only [List.head?_cons, Option.map_some, Option.isSome_some, if_true]
        rw [wrote₁, ok_bind, loaded₁, ok_bind, next₁, prev₁, wrote]
        rfl
      · have linked := listed.linked
        rw [List.map_append, List.map_cons, List.map_cons, List.map_cons] at linked
        rw [List.map_append, List.map_cons] at distinct
        have parts := List.nodup_append'.mp distinct
        have front := List.nodup_append'.mp parts.1
        have inX : x.1 ∈ xs.map Prod.fst ++ [x].map Prod.fst := by simp
        have inY : y.1 ∈ y.1 :: ys.map Prod.fst := List.mem_cons_self
        have unlinked := linked.unlink (fun member => front.2.2 member (by simp))
          (fun member => parts.2.2 inX (List.dropLast_subset _ member))
          (List.nodup_cons.mp parts.2.1).1
          (fun member => parts.2.2 (List.mem_of_mem_tail (by simpa using member)) inY)
        refine listed_of_agree
          (show Listed h.cells ranges ((xs ++ [x]) ++ (a, c) :: y :: ys) by simpa using listed)
          apart headSame ?_ ?_ ?_ ?_
        · have shape : (xs ++ [x] ++ y :: ys).map Prod.fst =
              xs.map Prod.fst ++ x.1 :: y.1 :: ys.map Prod.fst := by simp
          rw [shape] at away ⊢
          refine Linked.congr unlinked ?_ ?_
          · intro b member
            rw [freed, cells]
            exact Function.update_of_ne (away (List.dropLast_subset _ member)) _ _
          · intro b member
            rw [freed, cells]
            exact Function.update_of_ne (away (List.mem_of_mem_tail member)) _ _
        · intro b member
          have inside := List.mem_of_getLast? member
          have different : b ≠ x.1 := by
            rintro rfl
            have there : x.1 ∈ (y :: ys).map Prod.fst := by
              rw [List.map_append, List.getLast?_append_of_ne_nil _ (by simp)] at member
              exact List.mem_of_getLast? member
            exact parts.2.2 inX there
          rw [freed, cells]
          refine (Function.update_of_ne (away inside) _ _).trans
            ((Function.update_of_ne different _ _).trans (listed.last b ?_))
          rw [List.map_append, List.getLast?_append_of_ne_nil _ (by simp)] at member ⊢
          simpa using member
        · intro b other
          rw [freed, cells]
          exact Function.update_of_ne other _ _
        · rw [freed, cells]

/-- A mark in a range leaves the list as it is. -/
theorem modify_ok_spec (listed : Listed h.cells ranges (xs ++ (a, c) :: ys)) (ok : Nat) :
    ∃ h', h.modify (some a) (fun r => { r with ok }) = .ok h' ∧ h'.used = h.used ∧
      Listed h'.cells ranges (xs ++ (a, { c with ok }) :: ys) := by
  obtain ⟨notXs, notYs, _⟩ := neighbours_apart listed
  obtain ⟨h', wrote, cells⟩ := modify_ok (listed.holds (a, c) (by simp)) ok
  have addresses : (xs ++ (a, { c with ok }) :: ys).map Prod.fst = (xs ++ (a, c) :: ys).map Prod.fst := by
    simp
  refine ⟨h', wrote, congrArg Cells.used cells, ?_⟩
  rw [cells]
  refine ⟨?_, ?_, ?_, ?_, ?_, ?_⟩
  · rw [listed.head]
    cases xs <;> rfl
  · rw [addresses]
    exact listed.linked
  · rw [addresses]
    exact listed.last
  · rw [addresses]
    exact listed.different
  · intro b member
    rcases List.mem_append.mp member with left | right
    · have other : b.1 ≠ a := fun same => notXs (same ▸ List.mem_map_of_mem left)
      exact (Function.update_of_ne other _ _).trans (listed.holds b (List.mem_append_left _ left))
    · rcases List.mem_cons.mp right with rfl | right
      · simp
      · have other : b.1 ≠ a := fun same => notYs (same ▸ List.mem_map_of_mem right)
        exact (Function.update_of_ne other _ _).trans (listed.holds b (by simp [right]))
  · intro b member
    have inside : b.1 ∈ (xs ++ (a, c) :: ys).map Prod.fst := addresses ▸ List.mem_map_of_mem member
    obtain ⟨b', member', same⟩ := List.mem_map.mp inside
    exact same ▸ listed.below b' member'

/-- There are no more ranges than addresses that were given out. -/
theorem Listed.length_le {w : Cells} (listed : Listed w ranges cs) : cs.length ≤ w.used := by
  have among : cs.map Prod.fst ⊆ List.range w.used := by
    intro a member
    obtain ⟨c, inside, rfl⟩ := List.mem_map.mp member
    exact List.mem_range.mpr (listed.below c inside)
  have := (List.subperm_of_subset listed.different among).length_le
  simpa using this

/-! ## The biggest range -/

/-- The last of the biggest ranges to be tried, beside one found before. -/
def biggest : List (Nat × Piece) → Option Nat → Nat → Option Nat
  | [], rmax, _ => rmax
  | (a, c) :: cs, rmax, maxSize =>
    if c.ok = 0 ∧ maxSize ≤ c.size then biggest cs (some a) c.size else biggest cs rmax maxSize

theorem popBiggestRange_spec (listed : Listed h.cells ranges (xs ++ ys)) {fuel : Nat}
    (enough : ys.length < fuel) (rmax : Option Nat) (maxSize : Nat) :
    popBiggestRange h fuel (ys.head?.map Prod.fst) rmax maxSize = .ok (biggest ys rmax maxSize) := by
  induction ys generalizing xs fuel rmax maxSize with
  | nil =>
    cases fuel with
    | zero => simp at enough
    | succ fuel => rfl
  | cons y ys ih =>
    obtain ⟨a, c⟩ := y
    cases fuel with
    | zero => simp at enough
    | succ fuel =>
      have enough : ys.length < fuel := by simpa using enough
      have moved : Listed h.cells ranges ((xs ++ [(a, c)]) ++ ys) := by simpa using listed
      obtain ⟨r, _, loaded, piece, next, _⟩ := load_piece (listed.holds (a, c) (by simp))
      rw [listed.next] at next
      have ok : r.ok = c.ok := congrArg Piece.ok piece
      have size : r.size = c.size := congrArg Piece.size piece
      change popBiggestRange h (fuel + 1) (some a) rmax maxSize = _
      rw [popBiggestRange, loaded, ok_bind, next, ok, size, biggest]
      split
      · exact ih moved enough (some a) c.size
      · exact ih moved enough rmax maxSize

/-- What is found is one of the ranges to be tried. -/
theorem biggest_mem {rmax : Option Nat} {maxSize : Nat} (found : biggest cs rmax maxSize = some a) :
    rmax = some a ∨ ∃ xs c ys, cs = xs ++ (a, c) :: ys ∧ c.ok = 0 := by
  induction cs generalizing rmax maxSize with
  | nil => exact .inl found
  | cons y cs ih =>
    obtain ⟨b, d⟩ := y
    rw [biggest] at found
    split at found
    next fresh =>
      rcases ih found with same | ⟨xs, c, ys, rfl, waits⟩
      · cases same
        exact .inr ⟨[], d, cs, rfl, fresh.1⟩
      · exact .inr ⟨(b, d) :: xs, c, ys, rfl, waits⟩
    next =>
      rcases ih found with same | ⟨xs, c, ys, rfl, waits⟩
      · exact .inl same
      · exact .inr ⟨(b, d) :: xs, c, ys, rfl, waits⟩

private theorem biggest_keeps (cs : List (Nat × Piece)) (a maxSize : Nat) :
    biggest cs (some a) maxSize ≠ none := by
  induction cs generalizing a maxSize with
  | nil => exact Option.some_ne_none a
  | cons y cs ih =>
    obtain ⟨b, d⟩ := y
    rw [biggest]
    split
    · exact ih b d.size
    · exact ih a maxSize

/-- Nothing is found only when every range was tried. -/
theorem biggest_eq_none (found : biggest cs none 0 = none) : ∀ c ∈ cs, c.2.ok ≠ 0 := by
  induction cs with
  | nil => simp
  | cons y cs ih =>
    obtain ⟨b, d⟩ := y
    rw [biggest] at found
    split at found
    · exact absurd found (biggest_keeps cs b d.size)
    next tried =>
      have first : d.ok ≠ 0 := fun waits => tried ⟨waits, Nat.zero_le _⟩
      exact List.forall_mem_cons.mpr ⟨first, ih found⟩

end

end Swam.Afl.Colorization
