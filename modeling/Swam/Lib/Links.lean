import Mathlib.Algebra.Order.Ring.Int
import Mathlib.Data.List.Chain
import Mathlib.Data.List.Nodup
import Mathlib.Logic.Function.Basic

/-!
# Doubly linked cells

A chain of cells is linked when each cell points to the one after it and is pointed back at. A
ring is such a chain that starts and ends at its head.
-/
namespace Swam.Lib

variable {α : Type*} {next prev next' prev' : α → Option α}

/-- Each cell points to the one after it, which points back. -/
def Linked (next prev : α → Option α) (cells : List α) : Prop :=
  cells.IsChain fun a b => next a = some b ∧ prev b = some a

/-- The ring through some cells and the head. -/
def Ring (next prev : α → Option α) (head : α) (cells : List α) : Prop :=
  Linked next prev (head :: cells ++ [head])

theorem linked_append_cons {xs ys : List α} {c : α} :
    Linked next prev (xs ++ c :: ys) ↔ Linked next prev (xs ++ [c]) ∧ Linked next prev (c :: ys) :=
  List.isChain_split

theorem linked_append_cons_cons {xs ys : List α} {b c : α} :
    Linked next prev (xs ++ b :: c :: ys) ↔
      Linked next prev (xs ++ [b]) ∧ (next b = some c ∧ prev c = some b) ∧
        Linked next prev (c :: ys) :=
  List.isChain_append_cons_cons

/-- A chain only reads the pointers between its cells. -/
theorem Linked.congr {cells : List α} (linked : Linked next prev cells)
    (forward : ∀ a ∈ cells.dropLast, next' a = next a) (back : ∀ b ∈ cells.tail, prev' b = prev b) :
    Linked next' prev' cells := by
  induction cells with
  | nil => exact .nil
  | cons a rest ih =>
    cases rest with
    | nil => exact .singleton a
    | cons b rest =>
      obtain ⟨⟨ahead, behind⟩, linked⟩ := List.isChain_cons_cons.mp linked
      refine List.isChain_cons_cons.mpr ⟨⟨?_, ?_⟩, ih linked ?_ ?_⟩
      · rw [forward a (by simp), ahead]
      · rw [back b (by simp), behind]
      · intro c member
        exact forward c (by simp [member])
      · intro c member
        exact back c (List.mem_of_mem_tail member)

/-! ## Taking a cell out and putting one in -/

section
variable [DecidableEq α] {xs ys : List α} {a b c : α}

/-- The cell between two others is taken out by their pointers alone. -/
theorem Linked.unlink (linked : Linked next prev (xs ++ a :: b :: c :: ys)) (newA : a ∉ xs)
    (keepA : a ∉ (c :: ys).dropLast) (newC : c ∉ ys) (keepC : c ∉ (xs ++ [a]).tail) :
    Linked (Function.update next a (some c)) (Function.update prev c (some a))
      (xs ++ a :: c :: ys) := by
  obtain ⟨left, _, rest⟩ := linked_append_cons_cons.mp linked
  obtain ⟨_, right⟩ := List.isChain_cons_cons.mp rest
  refine linked_append_cons_cons.mpr ⟨?_, ⟨by simp, by simp⟩, ?_⟩
  · refine left.congr ?_ ?_
    · intro x member
      rw [List.dropLast_concat] at member
      exact Function.update_of_ne (by rintro rfl; exact newA member) _ _
    · intro x member
      exact Function.update_of_ne (by rintro rfl; exact keepC member) _ _
  · refine Linked.congr right ?_ ?_
    · intro x member
      exact Function.update_of_ne (by rintro rfl; exact keepA member) _ _
    · intro x member
      exact Function.update_of_ne (by rintro rfl; exact newC member) _ _

/-- A new cell is put in between two others. -/
theorem Linked.insert (linked : Linked next prev (xs ++ a :: c :: ys)) (newA : a ∉ xs)
    (keepA : a ∉ (c :: ys).dropLast) (newC : c ∉ ys) (keepC : c ∉ (xs ++ [a]).tail)
    (fresh : b ∉ xs ++ a :: c :: ys) :
    Linked (Function.update (Function.update next b (some c)) a (some b))
      (Function.update (Function.update prev b (some a)) c (some b))
      (xs ++ a :: b :: c :: ys) := by
  obtain ⟨left, _, right⟩ := linked_append_cons_cons.mp linked
  simp only [List.mem_append, List.mem_cons, not_or] at fresh
  obtain ⟨notXs, notA, notC, notYs⟩ := fresh
  refine linked_append_cons_cons.mpr ⟨?_, ⟨by simp, by simp [notC]⟩, ?_⟩
  · refine left.congr ?_ ?_
    · intro x member
      rw [List.dropLast_concat] at member
      rw [Function.update_of_ne (by rintro rfl; exact newA member),
        Function.update_of_ne (by rintro rfl; exact notXs member)]
    · intro x member
      have inside := List.mem_of_mem_tail member
      rw [Function.update_of_ne (by rintro rfl; exact keepC member),
        Function.update_of_ne (by rintro rfl; simp_all)]
  · refine List.isChain_cons_cons.mpr ⟨⟨by simp [notA], by simp⟩, ?_⟩
    refine Linked.congr right ?_ ?_
    · intro x member
      have inside := List.dropLast_subset _ member
      rw [Function.update_of_ne (by rintro rfl; exact keepA member),
        Function.update_of_ne (by rintro rfl; simp_all)]
    · intro x member
      rw [Function.update_of_ne (by rintro rfl; exact newC member),
        Function.update_of_ne (by rintro rfl; exact notYs member)]

end

/-! ## Rings -/

section
variable {head a b c : α} {cells xs ys : List α}

/-- Around a place of the ring: the cell before it, and the rest from it on. -/
theorem ring_around (xs ys : List α) (head : α) :
    ∃ pre a c post, head :: xs = pre ++ [a] ∧ ys ++ [head] = c :: post := by
  have front : ∃ pre a, head :: xs = pre ++ [a] :=
    ⟨(head :: xs).dropLast, (head :: xs).getLast (by simp), (List.dropLast_concat_getLast _).symm⟩
  obtain ⟨pre, a, front⟩ := front
  cases ys with
  | nil => exact ⟨pre, a, head, [], front, rfl⟩
  | cons c ys => exact ⟨pre, a, c, ys ++ [head], front, rfl⟩

/-- In a ring of different cells the neighbours of a place do not occur elsewhere. -/
private theorem ring_apart {pre post : List α} (different : (head :: (xs ++ ys)).Nodup)
    (front : head :: xs = pre ++ [a]) (back : ys ++ [head] = c :: post) :
    a ∉ pre ∧ a ∉ (c :: post).dropLast ∧ c ∉ post ∧ c ∉ (pre ++ [a]).tail := by
  have splitFront : (pre ++ [a]).Nodup :=
    front ▸ different.sublist (List.cons_sublist_cons.mpr (List.sublist_append_left xs ys))
  have splitBack : (ys ++ [head]).Nodup := by
    have perm : (ys ++ [head]).Perm (head :: ys) := List.perm_append_comm
    exact perm.nodup_iff.mpr (different.sublist
      (List.cons_sublist_cons.mpr (List.sublist_append_right xs ys)))
  have headAway := List.nodup_cons.mp different
  have apart := List.nodup_append'.mp headAway.2
  refine ⟨?_, ?_, ?_, ?_⟩
  · intro member
    exact (List.nodup_append'.mp splitFront).2.2 member (List.mem_singleton_self a)
  · rw [← back, List.dropLast_concat]
    intro member
    have inFront : a ∈ head :: xs := front ▸ List.mem_append_right pre (List.mem_singleton_self a)
    rcases List.mem_cons.mp inFront with rfl | inFront
    · exact headAway.1 (List.mem_append_right xs member)
    · exact apart.2.2 inFront member
  · rw [back] at splitBack
    exact (List.nodup_cons.mp splitBack).1
  · rw [← front, List.tail_cons]
    intro member
    have inBack : c ∈ ys ++ [head] := back ▸ List.mem_cons_self
    rcases List.mem_append.mp inBack with inBack | inBack
    · exact apart.2.2 member inBack
    · cases List.mem_singleton.mp inBack
      exact headAway.1 (List.mem_append_left ys member)

/-- What a ring says about a cell and its neighbours. -/
theorem Ring.neighbours (ring : Ring next prev head (xs ++ b :: ys)) {pre post : List α}
    (front : head :: xs = pre ++ [a]) (back : ys ++ [head] = c :: post) :
    next a = some b ∧ prev b = some a ∧ next b = some c ∧ prev c = some b := by
  have whole : head :: (xs ++ b :: ys) ++ [head] = pre ++ a :: b :: c :: post := by
    simp [← List.cons_append, front, back]
  rw [Ring, whole] at ring
  obtain ⟨_, ⟨ab, ba⟩, rest⟩ := linked_append_cons_cons.mp ring
  obtain ⟨⟨bc, cb⟩, _⟩ := List.isChain_cons_cons.mp rest
  exact ⟨ab, ba, bc, cb⟩

theorem Ring.ends (ring : Ring next prev head cells) {pre post : List α}
    (front : head :: cells = pre ++ [a]) (back : cells ++ [head] = c :: post) :
    next a = some head ∧ prev head = some a ∧ next head = some c ∧ prev c = some head := by
  have fromEnd : head :: cells ++ [head] = pre ++ a :: head :: [] := by simp [front]
  have fromStart : head :: cells ++ [head] = [] ++ head :: c :: post := by simp [back]
  have start := ring
  rw [Ring, fromEnd] at ring
  rw [Ring, fromStart] at start
  obtain ⟨_, ⟨last, before⟩, _⟩ := linked_append_cons_cons.mp ring
  obtain ⟨_, ⟨first, after⟩, _⟩ := linked_append_cons_cons.mp start
  exact ⟨last, before, first, after⟩

variable [DecidableEq α]

/-- The ring without one of its cells. -/
theorem Ring.unlink (ring : Ring next prev head (xs ++ b :: ys))
    (different : (head :: (xs ++ ys)).Nodup) {pre post : List α}
    (front : head :: xs = pre ++ [a]) (back : ys ++ [head] = c :: post) :
    Ring (Function.update next a (some c)) (Function.update prev c (some a)) head (xs ++ ys) := by
  have whole : head :: (xs ++ b :: ys) ++ [head] = pre ++ a :: b :: c :: post := by
    simp [← List.cons_append, front, back]
  have rest : head :: (xs ++ ys) ++ [head] = pre ++ a :: c :: post := by
    simp [← List.cons_append, front, back]
  obtain ⟨newA, keepA, newC, keepC⟩ := ring_apart different front back
  rw [Ring, whole] at ring
  rw [Ring, rest]
  exact ring.unlink newA keepA newC keepC

/-- The ring with one more cell before the head. -/
theorem Ring.concat (ring : Ring next prev head cells) (different : (head :: cells).Nodup)
    (fresh : b ∉ head :: cells) {pre : List α} (front : head :: cells = pre ++ [a]) :
    Ring (Function.update (Function.update next b (some head)) a (some b))
      (Function.update (Function.update prev b (some a)) head (some b)) head (cells ++ [b]) := by
  have whole : head :: cells ++ [head] = pre ++ a :: head :: [] := by simp [front]
  have more : head :: (cells ++ [b]) ++ [head] = pre ++ a :: b :: head :: [] := by
    simp [← List.cons_append, front]
  obtain ⟨newA, keepA, newC, keepC⟩ :=
    ring_apart (show (head :: (cells ++ [])).Nodup by simpa using different) front
      (show [] ++ [head] = head :: [] from rfl)
  rw [Ring, whole] at ring
  rw [Ring, more]
  refine ring.insert newA keepA newC keepC ?_
  rw [← whole]
  intro inside
  rcases List.mem_append.mp inside with inside | inside
  · exact fresh inside
  · cases List.mem_singleton.mp inside
    exact fresh List.mem_cons_self

end

end Swam.Lib
