import Mathlib.Data.List.Perm.Subperm
import Swam.Lib.Links
import Swam.Afl.LinkedList

/-!
# What the operations do to the ring

The writes of an operation are followed on the four fields of the elements, each a function of
the box. An operation on a list whose ring spells a sequence gives a list whose ring spells the
changed sequence, and the state of every box is told by the boxes of the ring.
-/
namespace Swam.Afl.LinkedList

open Lib

/-! ## Fields of the elements -/

/-- The fields of all elements, and the counters. -/
structure Fields where
  next : Box → Option Box
  prev : Box → Option Box
  data : Box → Option Nat
  status : Box → Option PreStatus
  prealloc : Int
  total : Int
  mallocs : Nat

def ListT.fields (l : ListT) : Fields where
  next := fun b => (l.element b).bind Element.next
  prev := fun b => (l.element b).bind Element.prev
  data := fun b => (l.element b).map Element.data
  status := fun b => (l.element b).map Element.preStatus
  prealloc := l.elementPreallocCount
  total := l.elementTotalCount
  mallocs := l.mallocs

def Fields.live (w : Fields) (b : Box) : Prop := (w.status b).isSome = true

section
variable {l : ListT} {b : Box}

theorem load_live (live : l.fields.live b) :
    ∃ e, l.element b = some e ∧ l.load (some b) = .ok e ∧ e.next = l.fields.next b ∧
      e.prev = l.fields.prev b ∧ some e.data = l.fields.data b ∧
      some e.preStatus = l.fields.status b := by
  obtain ⟨status, known⟩ := Option.isSome_iff_exists.mp live
  obtain ⟨e, held, _⟩ := Option.map_eq_some_iff.mp known
  refine ⟨e, held, ?_, ?_⟩
  · simp [ListT.load, held]
  · simp [ListT.fields, held]

/-- A write to an element is a write to each of the fields. -/
theorem modify_live (live : l.fields.live b) (f : Element → Element) :
    ∃ e l', l.element b = some e ∧ l.modify (some b) f = .ok l' ∧
      l'.fields = { l.fields with
        next := Function.update l.fields.next b (f e).next
        prev := Function.update l.fields.prev b (f e).prev
        data := Function.update l.fields.data b (some (f e).data)
        status := Function.update l.fields.status b (some (f e).preStatus) } := by
  obtain ⟨e, held, _⟩ := load_live live
  refine ⟨e, { l with element := Function.update l.element b (some (f e)) }, held, ?_, ?_⟩
  · simp [ListT.modify, held]
  · simp only [ListT.fields, Fields.mk.injEq, and_true]
    refine ⟨?_, ?_, ?_, ?_⟩
    all_goals
      funext x
      by_cases here : x = b
      · subst x
        simp
      · simp [here]

theorem modify_next (live : l.fields.live b) (p : Option Box) :
    ∃ l', l.modify (some b) (fun e => { e with next := p }) = .ok l' ∧
      l'.fields = { l.fields with next := Function.update l.fields.next b p } := by
  obtain ⟨e, l', held, wrote, fields⟩ := modify_live live fun e => { e with next := p }
  exact ⟨l', wrote, fields.trans (by simp [ListT.fields, held])⟩

theorem modify_prev (live : l.fields.live b) (p : Option Box) :
    ∃ l', l.modify (some b) (fun e => { e with prev := p }) = .ok l' ∧
      l'.fields = { l.fields with prev := Function.update l.fields.prev b p } := by
  obtain ⟨e, l', held, wrote, fields⟩ := modify_live live fun e => { e with prev := p }
  exact ⟨l', wrote, fields.trans (by simp [ListT.fields, held])⟩

theorem modify_data (live : l.fields.live b) (d : Nat) :
    ∃ l', l.modify (some b) (fun e => { e with data := d }) = .ok l' ∧
      l'.fields = { l.fields with data := Function.update l.fields.data b (some d) } := by
  obtain ⟨e, l', held, wrote, fields⟩ := modify_live live fun e => { e with data := d }
  exact ⟨l', wrote, fields.trans (by simp [ListT.fields, held])⟩

theorem modify_status (live : l.fields.live b) (status : PreStatus) :
    ∃ l', l.modify (some b) (fun e => { e with preStatus := status }) = .ok l' ∧
      l'.fields = { l.fields with status := Function.update l.fields.status b (some status) } := by
  obtain ⟨e, l', held, wrote, fields⟩ := modify_live live fun e => { e with preStatus := status }
  exact ⟨l', wrote, fields.trans (by simp [ListT.fields, held])⟩

end

/-! ## States of the boxes -/

def Box.isSlot : Box → Bool
  | .slot _ => true
  | .heap _ => false

/-- The state of a box that is in the ring. -/
def Box.taken : Box → PreStatus
  | .slot _ => .used
  | .heap _ => .malloc

/-- The state of a box that was given back. -/
def Box.givenBack : Box → Option PreStatus
  | .slot _ => some .unused
  | .heap _ => none

/-- The states of all boxes when some are in the ring. -/
def statusOf (cells : List Box) : Box → Option PreStatus
  | .slot i =>
    if i < listPreallocSize then some (if .slot i ∈ cells then .used else .unused) else none
  | .heap n => if .heap n ∈ cells then some .malloc else none

/-- A box that exists: a slot inside the buffer, or one that was allocated. -/
def Box.known (mallocs : Nat) : Box → Prop
  | .slot i => i < listPreallocSize
  | .heap n => n < mallocs

theorem statusOf_mem {cells : List Box} {mallocs : Nat} {b : Box} (member : b ∈ cells)
    (known : b.known mallocs) : statusOf cells b = some b.taken := by
  cases b with
  | slot i =>
    have inside : i < listPreallocSize := known
    simp [statusOf, member, inside, Box.taken]
  | heap n => simp [statusOf, member, Box.taken]

/-- One more box in the ring changes the state of that box. -/
theorem statusOf_insert {cells cells' : List Box} {mallocs : Nat} {b : Box} (known : b.known mallocs)
    (same : ∀ x, x ∈ cells' ↔ x = b ∨ x ∈ cells) :
    statusOf cells' = Function.update (statusOf cells) b (some b.taken) := by
  funext x
  by_cases here : x = b
  · subst x
    rw [Function.update_self]
    exact statusOf_mem ((same b).mpr (.inl rfl)) known
  · rw [Function.update_of_ne here]
    cases x with
    | slot i => simp [statusOf, same, here]
    | heap n => simp [statusOf, same, here]

/-- One box less likewise. -/
theorem statusOf_erase {cells cells' : List Box} {mallocs : Nat} {b : Box} (known : b.known mallocs)
    (gone : b ∉ cells') (same : ∀ x, x ∈ cells ↔ x = b ∨ x ∈ cells') :
    statusOf cells' = Function.update (statusOf cells) b b.givenBack := by
  funext x
  by_cases here : x = b
  · subst x
    rw [Function.update_self]
    cases b with
    | slot i =>
      have inside : i < listPreallocSize := known
      simp [statusOf, gone, inside, Box.givenBack]
    | heap n => simp [statusOf, gone, Box.givenBack]
  · rw [Function.update_of_ne here]
    cases x with
    | slot i => simp [statusOf, same, here]
    | heap n => simp [statusOf, same, here]

/-- The slots of the ring, counted over the ring and over the buffer. -/
theorem countP_isSlot {cells : List Box} {mallocs : Nat} (different : cells.Nodup)
    (known : ∀ b ∈ cells, b.known mallocs) :
    cells.countP Box.isSlot = (List.range listPreallocSize).countP fun i => .slot i ∈ cells := by
  have slots_injective : Function.Injective Box.slot := fun _ _ => Box.slot.inj
  have perm : (cells.filter Box.isSlot).Perm
      (((List.range listPreallocSize).filter fun i => .slot i ∈ cells).map .slot) := by
    refine (List.perm_ext_iff_of_nodup (different.filter _) ?_).mpr ?_
    · exact (List.nodup_range.filter _).map slots_injective
    · intro x
      simp only [List.mem_filter, List.mem_map, List.mem_range, decide_eq_true_eq]
      constructor
      · rintro ⟨member, slot⟩
        cases x with
        | slot i => exact ⟨i, ⟨known _ member, member⟩, rfl⟩
        | heap n => cases slot
      · rintro ⟨i, ⟨_, member⟩, rfl⟩
        exact ⟨member, rfl⟩
  rw [List.countP_eq_length_filter, perm.length_eq, List.length_map, ← List.countP_eq_length_filter]

theorem s32_of_small {x : Int} (low : 0 ≤ x) (high : x ≤ 64) : s32 x = x :=
  Int.bmod_eq_of_le_mul_two (by omega) (by omega)

/-! ## The ring -/

/-- The ring goes through some boxes and spells some values. -/
structure Holds (w : Fields) (boxes : List Box) (values : List Nat) : Prop where
  ring : Ring w.next w.prev getHead boxes
  different : (getHead :: boxes).Nodup
  data : boxes.map w.data = values.map some
  status : w.status = statusOf (getHead :: boxes)
  known : ∀ b ∈ getHead :: boxes, b.known w.mallocs
  prealloc : w.prealloc = ((getHead :: boxes).countP Box.isSlot : Nat)
  total : w.total = s32 boxes.length

/-- Two lists have the same pointers and data outside one box. -/
def Fields.AgreeOff (b : Box) (w w' : Fields) : Prop :=
  ∀ x, x ≠ b → w'.next x = w.next x ∧ w'.prev x = w.prev x ∧ w'.data x = w.data x

section
variable {l : ListT} {boxes : List Box} {values : List Nat} {b : Box}

theorem Holds.live {w : Fields} (holds : Holds w boxes values) (member : b ∈ getHead :: boxes) :
    w.live b := by
  rw [Fields.live, holds.status, statusOf_mem member (holds.known b member)]
  rfl

theorem Holds.prealloc_le {w : Fields} (holds : Holds w boxes values) :
    0 ≤ w.prealloc ∧ w.prealloc ≤ 64 := by
  have counted := countP_isSlot holds.different holds.known
  have few : (List.range listPreallocSize).countP (fun i => .slot i ∈ getHead :: boxes) ≤
      listPreallocSize := by
    simpa using List.countP_le_length (p := fun i => decide (Box.slot i ∈ getHead :: boxes))
      (l := List.range listPreallocSize)
  rw [holds.prealloc, counted]
  unfold listPreallocSize at few ⊢
  omega

theorem ok_bind {ε β γ : Type} (x : β) (f : β → Except ε γ) :
    (Except.ok x >>= f) = f x := rfl

/-- The loop over the buffer takes a free slot, when there is one. -/
theorem scanSlots_spec {cells : List Box} (status : l.fields.status = statusOf cells)
    (left i : Nat) (rest : i + left = listPreallocSize)
    (free : ∃ j, i ≤ j ∧ j < listPreallocSize ∧ .slot j ∉ cells) (p : Option Box) :
    ∃ j l', j < listPreallocSize ∧ .slot j ∉ cells ∧
      scanSlots l left i p = .ok (some (.slot j), l') ∧
      l'.fields = { l.fields with
        status := Function.update l.fields.status (.slot j) (some .used)
        prealloc := s32 (l.fields.prealloc + 1) } := by
  induction left generalizing i p with
  | zero =>
    obtain ⟨j, _, _, _⟩ := free
    omega
  | succ left ih =>
    have inside : i < listPreallocSize := by omega
    have known : l.fields.status (.slot i) = some (if .slot i ∈ cells then .used else .unused) := by
      rw [status, statusOf, if_pos inside]
    obtain ⟨e, held, loaded, _, _, _, told⟩ := load_live (l := l) (b := .slot i)
      (by rw [Fields.live, known]; rfl)
    rw [known, Option.some_inj] at told
    by_cases member : .slot i ∈ cells
    · have later : ∃ j, i + 1 ≤ j ∧ j < listPreallocSize ∧ .slot j ∉ cells := by
        obtain ⟨j, from_, below, absent⟩ := free
        have : j ≠ i := by
          rintro rfl
          exact absent member
        exact ⟨j, by omega, below, absent⟩
      obtain ⟨j, l', below, absent, scanned, fields⟩ := ih (i + 1) (by omega) later (some (.slot i))
      refine ⟨j, l', below, absent, ?_, fields⟩
      rw [if_pos member] at told
      rw [scanSlots, loaded, ok_bind, if_neg (by rw [told]; decide), scanned]
    · rw [if_neg member] at told
      let counted : ListT := { l with elementPreallocCount := s32 (l.elementPreallocCount + 1) }
      obtain ⟨l', wrote, fields⟩ := modify_status (l := counted) (b := .slot i)
        (by rw [Fields.live, show counted.fields.status = l.fields.status from rfl, known]; rfl) .used
      refine ⟨i, l', inside, member, ?_, fields⟩
      rw [scanSlots, loaded, ok_bind, if_pos told]
      change (counted.modify _ _ >>= fun l => pure (some (Box.slot i), l)) = _
      rw [wrote]
      rfl

/-- `PRE_ALLOC` gives a box that is not in the ring. -/
theorem preAlloc_spec (holds : Holds l.fields boxes values) :
    ∃ b l', preAlloc l = .ok (some b, l') ∧ b ∉ getHead :: boxes ∧
      b.known l'.fields.mallocs ∧ l.fields.mallocs ≤ l'.fields.mallocs ∧
      l.fields.AgreeOff b l'.fields ∧
      l'.fields.status = Function.update l.fields.status b (some b.taken) ∧
      l'.fields.prealloc = l.fields.prealloc + (if b.isSlot then 1 else 0) ∧
      l'.fields.total = l.fields.total := by
  have counted := countP_isSlot holds.different holds.known
  by_cases full : (listPreallocSize : Int) ≤ l.elementPreallocCount
  · have fresh : Box.heap l.mallocs ∉ getHead :: boxes := by
      intro member
      exact Nat.lt_irrefl _ (holds.known _ member)
    refine ⟨.heap l.mallocs, l.mallocElement, by rw [preAlloc, if_pos full]; rfl, fresh,
      Nat.lt_succ_self l.mallocs, Nat.le_succ l.mallocs, ?_, ?_, ?_, rfl⟩
    · intro x other
      simp [ListT.fields, ListT.mallocElement, other]
    · funext x
      by_cases here : x = .heap l.mallocs
      · subst x
        simp [ListT.fields, ListT.mallocElement, Box.taken]
      · simp [ListT.fields, ListT.mallocElement, here]
    · simp [ListT.fields, ListT.mallocElement, Box.isSlot]
  · have free : ∃ j, 0 ≤ j ∧ j < listPreallocSize ∧ .slot j ∉ getHead :: boxes := by
      by_contra none_free
      have all : (List.range listPreallocSize).countP (fun i => .slot i ∈ getHead :: boxes) =
          listPreallocSize := by
        rw [List.countP_eq_length.mpr, List.length_range]
        intro i inside
        by_contra absent
        exact none_free ⟨i, Nat.zero_le i, List.mem_range.mp inside, by simpa using absent⟩
      have count : l.elementPreallocCount = ((getHead :: boxes).countP Box.isSlot : Nat) :=
        holds.prealloc
      rw [count, counted, all] at full
      exact full (Int.le_refl _)
    obtain ⟨j, l', inside, absent, scanned, fields⟩ :=
      scanSlots_spec holds.status listPreallocSize 0 (Nat.zero_add _) free none
    refine ⟨.slot j, l', ?_, absent, inside, ?_, ?_, ?_, ?_, ?_⟩
    · rw [preAlloc, if_neg full, scanned]
      rfl
    · rw [fields]
    · intro x _
      rw [fields]
      exact ⟨rfl, rfl, rfl⟩
    · rw [fields]
      rfl
    · have small : l.fields.prealloc < 64 := by
        unfold listPreallocSize at full
        exact Int.not_le.mp full
      rw [fields]
      exact s32_of_small (by have := holds.prealloc_le; omega) (by omega)
    · rw [fields]

/-- The writes of `list_append` put a box in before the head. -/
theorem linkLast_spec {a : Box} (liveB : l.fields.live b) (liveHead : l.fields.live getHead)
    (liveA : l.fields.live a) (other : b ≠ getHead) (last : l.fields.prev getHead = some a)
    (el : Nat) :
    ∃ l', linkLast l (some b) el = .ok l' ∧
      l'.fields = { l.fields with
        next := Function.update (Function.update l.fields.next b (some getHead)) a (some b)
        prev := Function.update (Function.update l.fields.prev b (some a)) getHead (some b)
        data := Function.update l.fields.data b (some el) } := by
  obtain ⟨l₁, wrote₁, fields₁⟩ := modify_data liveB el
  obtain ⟨l₂, wrote₂, fields₂⟩ :=
    modify_next (l := l₁) (b := b) (by rw [fields₁]; exact liveB) (some getHead)
  obtain ⟨head₂, _, load₂, _, prev₂, _⟩ :=
    load_live (l := l₂) (b := getHead) (by rw [fields₂, fields₁]; exact liveHead)
  rw [fields₂, fields₁, last] at prev₂
  obtain ⟨l₃, wrote₃, fields₃⟩ :=
    modify_prev (l := l₂) (b := b) (by rw [fields₂, fields₁]; exact liveB) (some a)
  obtain ⟨head₃, _, load₃, _, prev₃, _⟩ :=
    load_live (l := l₃) (b := getHead) (by rw [fields₃, fields₂, fields₁]; exact liveHead)
  -- The box is not the head, so the head still points back to the last element.
  rw [fields₃, fields₂, fields₁] at prev₃
  simp only [Function.update_of_ne other.symm, last] at prev₃
  obtain ⟨l₄, wrote₄, fields₄⟩ :=
    modify_next (l := l₃) (b := a) (by rw [fields₃, fields₂, fields₁]; exact liveA) (some b)
  obtain ⟨l₅, wrote₅, fields₅⟩ := modify_prev (l := l₄) (b := getHead)
    (by rw [fields₄, fields₃, fields₂, fields₁]; exact liveHead) (some b)
  refine ⟨l₅, ?_, ?_⟩
  · rw [linkLast, wrote₁, ok_bind, wrote₂, ok_bind, load₂, ok_bind, prev₂, wrote₃, ok_bind, load₃,
      ok_bind, prev₃, wrote₄, ok_bind, wrote₅]
  · rw [fields₅, fields₄, fields₃, fields₂, fields₁]

/-- A linked box is one more element at the end. -/
theorem holds_concat {w w₁ w₂ : Fields} (holds : Holds w boxes values)
    (fresh : b ∉ getHead :: boxes) (known : b.known w₁.mallocs) (grown : w.mallocs ≤ w₁.mallocs)
    (agree : w.AgreeOff b w₁) (status : w₁.status = Function.update w.status b (some b.taken))
    (prealloc : w₁.prealloc = w.prealloc + if b.isSlot then 1 else 0) (total : w₁.total = w.total)
    {pre : List Box} {a : Box} (front : getHead :: boxes = pre ++ [a]) (el : Nat)
    (linked : w₂ = { w₁ with
      next := Function.update (Function.update w₁.next b (some getHead)) a (some b)
      prev := Function.update (Function.update w₁.prev b (some a)) getHead (some b)
      data := Function.update w₁.data b (some el)
      total := s32 (w₁.total + 1) }) :
    Holds w₂ (boxes ++ [b]) (values ++ [el]) := by
  subst linked
  have different : (getHead :: (boxes ++ [b])).Nodup := by
    have perm : (getHead :: (boxes ++ [b])).Perm (b :: getHead :: boxes) := by
      rw [← List.cons_append]
      exact List.perm_append_comm
    exact perm.nodup_iff.mpr (List.nodup_cons.mpr ⟨fresh, holds.different⟩)
  refine ⟨?_, different, ?_, ?_, ?_, ?_, ?_⟩
  · refine Ring.concat ?_ holds.different fresh front
    refine Linked.congr holds.ring ?_ ?_
    · intro x member
      rw [List.dropLast_concat] at member
      exact (agree x fun here => fresh (here ▸ member)).1
    · intro x member
      have inside : x ∈ getHead :: boxes := List.perm_append_comm.mem_iff.mp member
      exact (agree x fun here => fresh (here ▸ inside)).2.1
  · rw [List.map_append, List.map_append, ← holds.data]
    congr 1
    · apply List.map_congr_left
      intro x member
      have away : x ≠ b := by
        rintro rfl
        exact fresh (List.mem_cons_of_mem _ member)
      exact (Function.update_of_ne away _ _).trans (agree x away).2.2
    · simp
  · change w₁.status = _
    rw [status, holds.status]
    refine (statusOf_insert known ?_).symm
    intro x
    simp only [List.mem_cons, List.mem_append, List.not_mem_nil, or_false]
    tauto
  · intro x member
    have old : x = b ∨ x ∈ getHead :: boxes := by
      simp only [List.mem_cons, List.mem_append, List.not_mem_nil, or_false] at member ⊢
      tauto
    rcases old with rfl | old
    · exact known
    · have := holds.known x old
      cases x with
      | slot i => exact this
      | heap n => exact Nat.lt_of_lt_of_le this grown
  · change w₁.prealloc = _
    rw [prealloc, holds.prealloc, ← List.cons_append, List.countP_append]
    cases slot : b.isSlot <;> simp [slot]
  · change s32 (w₁.total + 1) = _
    rw [total, holds.total, s32, s32, s32, Int.bmod_add_bmod]
    simp

/-- `list_append` on a list with a head. -/
theorem appendBox_spec (holds : Holds l.fields boxes values) (el : Nat) :
    ∃ b l', appendBox l el = .ok l' ∧ b ∉ getHead :: boxes ∧
      Holds l'.fields (boxes ++ [b]) (values ++ [el]) := by
  obtain ⟨pre, a, _, _, front, _⟩ := ring_around boxes [] getHead
  obtain ⟨_, _, c, post, _, back⟩ := ring_around [] boxes getHead
  obtain ⟨_, last, _⟩ := holds.ring.ends front back
  have inA : a ∈ getHead :: boxes := front ▸ List.mem_append_right pre (List.mem_singleton_self a)
  obtain ⟨b, l₁, allocated, fresh, known, grown, agree, status, prealloc, total⟩ :=
    preAlloc_spec holds
  have other : b ≠ getHead := by
    rintro rfl
    exact fresh List.mem_cons_self
  have still {x : Box} (member : x ∈ getHead :: boxes) : l₁.fields.live x := by
    rw [Fields.live, status, Function.update_of_ne (by rintro rfl; exact fresh member)]
    exact holds.live member
  obtain ⟨l₂, wrote, fields⟩ := linkLast_spec (l := l₁) (b := b)
    (by rw [Fields.live, status, Function.update_self]; rfl) (still List.mem_cons_self) (still inA)
    other ((agree getHead other.symm).2.1.trans last) el
  refine ⟨b, { l₂ with elementTotalCount := s32 (l₂.elementTotalCount + 1) }, ?_, fresh,
    holds_concat holds fresh known grown agree status prealloc total front el ?_⟩
  · rw [appendBox, allocated, ok_bind]
    simp only [reduceCtorEq, if_false]
    rw [wrote]
    rfl
  · have written : l₂.elementTotalCount = l₁.fields.total := congrArg Fields.total fields
    change { l₂.fields with total := s32 (l₂.elementTotalCount + 1) } = _
    rw [fields, written]

/-- A ring has a head. -/
theorem load_head (holds : Holds l.fields boxes values) :
    ∃ head c, l.load (some getHead) = .ok head ∧ head.next = some c ∧
      ∃ post, boxes ++ [getHead] = c :: post := by
  obtain ⟨pre, a, _, _, front, _⟩ := ring_around boxes [] getHead
  obtain ⟨_, _, c, post, _, back⟩ := ring_around [] boxes getHead
  obtain ⟨_, _, first, _⟩ := holds.ring.ends front back
  obtain ⟨head, _, loaded, headNext, _⟩ := load_live (holds.live List.mem_cons_self)
  exact ⟨head, c, loaded, headNext.trans first, post, back⟩

theorem listAppend_spec (holds : Holds l.fields boxes values) (el : Nat) :
    ∃ b l', listAppend l el = .ok l' ∧ b ∉ getHead :: boxes ∧
      Holds l'.fields (boxes ++ [b]) (values ++ [el]) := by
  obtain ⟨head, c, loaded, first, _⟩ := load_head holds
  obtain ⟨b, l', appended, fresh, holds'⟩ := appendBox_spec holds el
  refine ⟨b, l', ?_, fresh, holds'⟩
  rw [listAppend, loaded, ok_bind, if_neg (by rw [first]; simp), appended]

/-! ## The first append -/

/-- A list before its first append: the head has no successor, and nothing is on the heap. -/
structure Untouched (l : ListT) : Prop where
  head : ∃ e, l.element getHead = some e ∧ e.next = none
  heap : ∀ n, l.element (.heap n) = none

theorem fields_zeroed (heap : ∀ n, l.element (.heap n) = none) :
    (zeroed l).fields.status = statusOf [] := by
  funext x
  cases x with
  | slot i =>
    by_cases inside : i < listPreallocSize
    · simp [ListT.fields, zeroed, statusOf, inside]
    · simp [ListT.fields, zeroed, statusOf, inside]
  | heap n => simp [ListT.fields, zeroed, statusOf, heap]

theorem initHead_spec (heap : ∀ n, l.element (.heap n) = none) :
    ∃ l', initHead l = .ok l' ∧ Holds l'.fields [] [] := by
  have inside : getHead.known (zeroed l).fields.mallocs := by
    change 0 < listPreallocSize
    decide
  have unused : (zeroed l).fields.status getHead = some .unused := rfl
  obtain ⟨e, _, loaded, _, _, _, told⟩ := load_live (l := zeroed l) (b := getHead)
    (by rw [Fields.live, unused]; rfl)
  rw [unused, Option.some_inj] at told
  obtain ⟨l₁, wrote₁, fields₁⟩ := modify_status (l := zeroed l) (b := getHead)
    (by rw [Fields.live, unused]; rfl) .used
  let l₂ : ListT := { l₁ with elementPreallocCount := s32 (l₁.elementPreallocCount + 1) }
  have fields₂ : l₂.fields = { l₁.fields with prealloc := s32 (l₁.fields.prealloc + 1) } := rfl
  obtain ⟨l₃, wrote₃, fields₃⟩ := modify_prev (l := l₂) (b := getHead)
    (by rw [Fields.live, fields₂, fields₁]; simp) (some getHead)
  obtain ⟨l₄, wrote₄, fields₄⟩ := modify_next (l := l₃) (b := getHead)
    (by rw [Fields.live, fields₃, fields₂, fields₁]; simp) (some getHead)
  refine ⟨l₄, ?_, ?_⟩
  · have forced : preAllocForce (zeroed l) = .ok l₂ := by
      rw [preAllocForce, loaded, ok_bind, if_neg (by simp [told]), wrote₁]
      rfl
    rw [initHead, forced, ok_bind, wrote₃, ok_bind, wrote₄]
  · rw [fields₄, fields₃, fields₂, fields₁]
    refine ⟨?_, List.nodup_singleton _, rfl, ?_, ?_, rfl, rfl⟩
    · refine List.isChain_cons_cons.mpr ⟨⟨?_, ?_⟩, .singleton _⟩
      · simp
      · simp
    · change Function.update (zeroed l).fields.status getHead (some .used) = _
      rw [fields_zeroed heap]
      exact (statusOf_insert inside (by simp)).symm
    · intro b member
      cases List.mem_singleton.mp member
      exact inside

theorem listAppend_untouched (untouched : Untouched l) (el : Nat) :
    ∃ b l', listAppend l el = .ok l' ∧ b ≠ getHead ∧ Holds l'.fields [b] [el] := by
  obtain ⟨head, held, first⟩ := untouched.head
  obtain ⟨l₁, initialised, holds⟩ := initHead_spec untouched.heap
  obtain ⟨b, l', appended, fresh, holds'⟩ := appendBox_spec holds el
  refine ⟨b, l', ?_, by simpa using fresh, holds'⟩
  have loaded : l.load (some getHead) = .ok head := by simp [ListT.load, held]
  rw [listAppend, loaded, ok_bind, if_pos first, initialised, ok_bind, appended]

/-! ## Taking an element out -/

/-- The two writes that take a box out of the ring. -/
theorem unlinkBox_spec {a c : Box} (liveB : l.fields.live b) (liveA : l.fields.live a)
    (liveC : l.fields.live c) (other : b ≠ a) (before : l.fields.prev b = some a)
    (after : l.fields.next b = some c) :
    ∃ l', unlinkBox l b (some c) = .ok l' ∧
      l'.fields = { l.fields with
        next := Function.update l.fields.next a (some c)
        prev := Function.update l.fields.prev c (some a) } := by
  obtain ⟨e₁, _, load₁, _, prev₁, _⟩ := load_live liveB
  obtain ⟨l₁, wrote₁, fields₁⟩ := modify_next liveA (some c)
  obtain ⟨e₂, _, load₂, next₂, prev₂, _⟩ :=
    load_live (l := l₁) (b := b) (by rw [fields₁]; exact liveB)
  -- The first write goes to the neighbour, so the box still has its pointers.
  rw [fields₁] at next₂ prev₂
  simp only [Function.update_of_ne other, after] at next₂
  obtain ⟨l₂, wrote₂, fields₂⟩ :=
    modify_prev (l := l₁) (b := c) (by rw [fields₁]; exact liveC) (some a)
  refine ⟨l₂, ?_, ?_⟩
  · rw [unlinkBox, load₁, ok_bind, prev₁, before, wrote₁, ok_bind, load₂, ok_bind, next₂, prev₂, before,
      wrote₂]
  · rw [fields₂, fields₁]

/-- `PRE_FREE` gives a box back. -/
theorem preFree_spec (taken : l.fields.status b = some b.taken)
    (counted : b.isSlot = true → 1 ≤ l.fields.prealloc) (few : l.fields.prealloc ≤ 64) :
    ∃ l', preFree l b = .ok l' ∧ l.fields.AgreeOff b l'.fields ∧
      l'.fields.status = Function.update l.fields.status b b.givenBack ∧
      l'.fields.prealloc = l.fields.prealloc - (if b.isSlot then 1 else 0) ∧
      l'.fields.total = l.fields.total ∧ l'.fields.mallocs = l.fields.mallocs := by
  have live : l.fields.live b := by rw [Fields.live, taken]; rfl
  obtain ⟨e, _, loaded, _, _, _, told⟩ := load_live live
  rw [taken, Option.some_inj] at told
  cases b with
  | slot i =>
    have positive := counted rfl
    obtain ⟨l₁, wrote, fields⟩ := modify_status live .unused
    have same : l₁.elementPreallocCount = l.fields.prealloc := congrArg Fields.prealloc fields
    have count : s32 (l₁.elementPreallocCount - 1) = l.fields.prealloc - 1 := by
      rw [same]
      exact s32_of_small (by omega) (by omega)
    let l' : ListT := { l₁ with elementPreallocCount := s32 (l₁.elementPreallocCount - 1) }
    have fields' : l'.fields = { l₁.fields with prealloc := s32 (l₁.elementPreallocCount - 1) } := rfl
    refine ⟨l', ?_, ?_, ?_, ?_, ?_, ?_⟩
    · rw [preFree, loaded, ok_bind, told]
      change (l.modify _ _ >>= _) = _
      rw [wrote, ok_bind]
      exact if_neg (by change ¬ s32 (l₁.elementPreallocCount - 1) < 0; omega)
    · intro x _
      rw [fields', fields]
      exact ⟨rfl, rfl, rfl⟩
    · rw [fields', fields]
      rfl
    · rw [fields']
      exact count
    · rw [fields', fields]
    · rw [fields', fields]
  | heap n =>
    refine ⟨{ l with element := Function.update l.element (.heap n) none }, ?_, ?_, ?_, ?_, rfl, rfl⟩
    · rw [preFree, loaded, ok_bind, told]
      rfl
    · intro x other
      simp [ListT.fields, other]
    · funext x
      by_cases here : x = .heap n
      · subst x
        simp [ListT.fields, Box.givenBack]
      · simp [ListT.fields, here]
    · simp [ListT.fields, Box.isSlot]

/-- The ring and the counters after an element was taken out and given back. -/
theorem holds_erase {w w' : Fields} {xs ys : List Box} {us vs : List Nat} {v : Nat}
    (holds : Holds w (xs ++ b :: ys) (us ++ v :: vs)) (aligned : xs.length = us.length)
    {pre post : List Box} {a c : Box} (front : getHead :: xs = pre ++ [a])
    (back : ys ++ [getHead] = c :: post)
    (agree : Fields.AgreeOff b { w with
      next := Function.update w.next a (some c)
      prev := Function.update w.prev c (some a) } w')
    (status : w'.status = Function.update w.status b b.givenBack)
    (prealloc : w'.prealloc = w.prealloc - if b.isSlot then 1 else 0)
    (total : w'.total = w.total) (mallocs : w'.mallocs = w.mallocs) :
    Holds { w' with total := s32 (w'.total - 1) } (xs ++ ys) (us ++ vs) := by
  have perm : (getHead :: (xs ++ b :: ys)).Perm (b :: getHead :: (xs ++ ys)) :=
    (List.perm_middle.cons getHead).trans (.swap b getHead _)
  have apart := List.nodup_cons.mp (perm.nodup_iff.mp holds.different)
  have away {x : Box} (member : x ∈ getHead :: (xs ++ ys)) : x ≠ b := by
    rintro rfl
    exact apart.1 member
  refine ⟨?_, apart.2, ?_, ?_, ?_, ?_, ?_⟩
  · refine Linked.congr (holds.ring.unlink apart.2 front back) ?_ ?_
    · intro x member
      rw [List.dropLast_concat] at member
      exact (agree x (away member)).1
    · intro x member
      exact (agree x (away (List.perm_append_comm.mem_iff.mp member))).2.1
  · have data := holds.data
    rw [List.map_append, List.map_append, List.map_cons, List.map_cons] at data
    obtain ⟨left, right⟩ := List.append_inj data (by simpa using aligned)
    have kept {zs : List Box} (inside : zs ⊆ xs ++ ys) : zs.map w'.data = zs.map w.data := by
      apply List.map_congr_left
      intro x member
      exact (agree x (away (List.mem_cons_of_mem _ (inside member)))).2.2
    rw [List.map_append, List.map_append, kept (List.subset_append_left xs ys),
      kept (List.subset_append_right xs ys), left, (List.cons.inj right).2]
  · change w'.status = _
    rw [status, holds.status]
    exact (statusOf_erase (holds.known b (by simp)) apart.1 fun x => by
      rw [perm.mem_iff, List.mem_cons]).symm
  · intro x member
    change x.known w'.mallocs
    rw [mallocs]
    exact holds.known x (perm.mem_iff.mpr (List.mem_cons_of_mem b member))
  · have count := perm.countP_eq Box.isSlot
    change w'.prealloc = _
    rw [prealloc, holds.prealloc, count, List.countP_cons]
    cases b.isSlot <;> simp
  · change s32 (w'.total - 1) = _
    rw [total, holds.total, s32, s32, s32, Int.bmod_sub_bmod]
    simp only [List.length_append, List.length_cons]
    congr 1
    omega

/-- Taking a box out of the ring, with a write of its data or without, and giving it back. -/
theorem unlink_free_spec {xs ys : List Box} {us vs : List Nat} {v : Nat}
    (holds : Holds l.fields (xs ++ b :: ys) (us ++ v :: vs)) (aligned : xs.length = us.length)
    {c : Box} {post : List Box} (back : ys ++ [getHead] = c :: post) :
    ∃ l₁, unlinkBox l b (some c) = .ok l₁ ∧
      (∃ l', listFreeEl l₁ b = .ok l' ∧ Holds l'.fields (xs ++ ys) (us ++ vs)) ∧
      ∃ l₂ l', l₁.modify (some b) (fun e => { e with data := 0 }) = .ok l₂ ∧
        listFreeEl l₂ b = .ok l' ∧ Holds l'.fields (xs ++ ys) (us ++ vs) := by
  obtain ⟨pre, a, _, _, front, _⟩ := ring_around xs ys getHead
  obtain ⟨ab, ba, bc, cb⟩ := holds.ring.neighbours front back
  have inB : b ∈ getHead :: (xs ++ b :: ys) := by simp
  have inA : a ∈ getHead :: (xs ++ b :: ys) := by
    have : a ∈ getHead :: xs := front ▸ List.mem_append_right pre (List.mem_singleton_self a)
    exact List.cons_subset_cons getHead (List.subset_append_left xs _) this
  have inC : c ∈ getHead :: (xs ++ b :: ys) := by
    have : c ∈ ys ++ [getHead] := back ▸ List.mem_cons_self
    rcases List.mem_append.mp this with inside | inside
    · simp [inside]
    · simp_all
  have other : b ≠ a := by
    rintro rfl
    have inFront : b ∈ getHead :: xs := front ▸ List.mem_append_right pre (List.mem_singleton_self b)
    have different := holds.different
    rw [← List.cons_append, List.nodup_append'] at different
    exact different.2.2 inFront List.mem_cons_self
  have taken := statusOf_mem inB (holds.known b inB)
  rw [← holds.status] at taken
  have counted : b.isSlot = true → 1 ≤ l.fields.prealloc := by
    intro slot
    have := List.countP_pos_iff.mpr ⟨b, inB, slot⟩
    rw [holds.prealloc]
    exact_mod_cast this
  have few := holds.prealloc_le.2
  obtain ⟨l₁, unlinked, fields₁⟩ :=
    unlinkBox_spec (holds.live inB) (holds.live inA) (holds.live inC) other ba bc
  refine ⟨l₁, unlinked, ?_, ?_⟩
  · obtain ⟨l', freed, agree, status, prealloc, total, mallocs⟩ := preFree_spec (l := l₁) (b := b)
      (by rw [fields₁]; exact taken) (by rw [fields₁]; exact counted) (by rw [fields₁]; exact few)
    rw [fields₁] at agree status prealloc total mallocs
    exact ⟨_, by rw [listFreeEl, freed]; rfl,
      holds_erase holds aligned front back agree status prealloc total mallocs⟩
  · obtain ⟨l₂, wrote, fields₂⟩ := modify_data (l := l₁) (b := b)
      (by rw [fields₁]; exact holds.live inB) 0
    obtain ⟨l', freed, agree, status, prealloc, total, mallocs⟩ := preFree_spec (l := l₂) (b := b)
      (by rw [fields₂, fields₁]; exact taken) (by rw [fields₂, fields₁]; exact counted)
      (by rw [fields₂, fields₁]; exact few)
    rw [fields₂, fields₁] at agree status prealloc total mallocs
    refine ⟨l₂, _, wrote, by rw [listFreeEl, freed]; rfl,
      holds_erase holds aligned front back ?_ status prealloc total mallocs⟩
    intro x away
    obtain ⟨sameNext, samePrev, sameData⟩ := agree x away
    exact ⟨sameNext, samePrev, sameData.trans (Function.update_of_ne away _ _)⟩

/-! ## Going along the ring -/

/-- A round of a loop sees the data of its element and saves the pointer to the next one. -/
theorem enterRound_spec {xs ys : List Box} {us vs : List Nat} {v : Nat}
    (holds : Holds l.fields (xs ++ b :: ys) (us ++ v :: vs)) (aligned : xs.length = us.length)
    {c : Box} {post : List Box} (back : ys ++ [getHead] = c :: post) :
    enterRound l (some b) = .ok (some ⟨b, some c, v⟩) := by
  obtain ⟨pre, a, _, _, front, _⟩ := ring_around xs ys getHead
  obtain ⟨_, _, bc, _⟩ := holds.ring.neighbours front back
  obtain ⟨e, _, loaded, next, _, data, _⟩ := load_live (holds.live (b := b) (by simp))
  have read : l.fields.data b = some v := by
    have data := holds.data
    rw [List.map_append, List.map_append] at data
    exact (List.cons.inj (List.append_inj data (by simpa using aligned)).2).1
  have other : b ≠ getHead := by
    rintro rfl
    exact (List.nodup_cons.mp holds.different).1 (by simp)
  rw [read, Option.some_inj] at data
  rw [enterRound, if_neg other, loaded, ok_bind, next, bc, data]
  rfl

/-- After the pointer was read again it is the one of the element. -/
theorem rereadNext_spec {xs ys : List Box} (holds : Holds l.fields (xs ++ b :: ys) values)
    {c : Box} {post : List Box} (back : ys ++ [getHead] = c :: post) (loop : Loop)
    (here : loop.elBox = b) : rereadNext l loop = .ok { loop with next := some c } := by
  subst here
  obtain ⟨pre, a, _, _, front, _⟩ := ring_around xs ys getHead
  obtain ⟨_, _, bc, _⟩ := holds.ring.neighbours front back
  obtain ⟨e, _, loaded, next, _⟩ := load_live (holds.live (b := loop.elBox) (by simp))
  rw [rereadNext, loaded, ok_bind, ← bc, ← next]
  by_cases current : e.next = loop.next
  · rw [if_neg (not_not.mpr current), current]
    rfl
  · rw [if_pos current]
    rfl

theorem enterRound_head : enterRound l (some getHead) = .ok none := rfl

/-- The boxes of a ring are bounded by those that exist. -/
theorem Holds.length_le {w : Fields} (holds : Holds w boxes values) :
    boxes.length ≤ listPreallocSize + w.mallocs := by
  have among : boxes ⊆ (List.range listPreallocSize).map .slot ++ (List.range w.mallocs).map .heap := by
    intro x member
    have known := holds.known x (List.mem_cons_of_mem _ member)
    cases x with
    | slot i => exact List.mem_append_left _ (List.mem_map_of_mem (List.mem_range.mpr known))
    | heap n => exact List.mem_append_right _ (List.mem_map_of_mem (List.mem_range.mpr known))
  have := (List.subperm_of_subset (List.nodup_cons.mp holds.different).2 among).length_le
  simpa using this

/-- The search goes from a place of the ring to the first element with the data. -/
theorem findFrom_spec {xs ys : List Box} {us vs : List Nat}
    (holds : Holds l.fields (xs ++ ys) (us ++ vs)) (aligned : xs.length = us.length)
    {c : Box} {post : List Box} (back : ys ++ [getHead] = c :: post) (el fuel : Nat)
    (enough : ys.length < fuel) :
    (el ∉ vs ∧ findFrom l el fuel (some c) = .ok none) ∨
      ∃ zs b tl ws rest, ys = zs ++ b :: tl ∧ vs = ws ++ el :: rest ∧ el ∉ ws ∧
        zs.length = ws.length ∧ findFrom l el fuel (some c) = .ok (some b) := by
  induction ys generalizing xs us vs c post fuel with
  | nil =>
    cases back
    have lengths := congrArg List.length holds.data
    have none_left : vs = [] := by
      simp only [List.map_append, List.length_append, List.length_map] at lengths
      exact List.length_eq_zero_iff.mp (by simp at lengths; omega)
    obtain ⟨fuel, rfl⟩ := Nat.exists_eq_add_of_lt enough
    left
    refine ⟨by simp [none_left], ?_⟩
    rw [findFrom, enterRound_head]
    rfl
  | cons b ys ih =>
    cases back
    obtain ⟨v, vs, rfl⟩ : ∃ v vs', vs = v :: vs' := by
      have lengths := congrArg List.length holds.data
      cases vs with
      | nil => simp at lengths; omega
      | cons v vs => exact ⟨v, vs, rfl⟩
    obtain ⟨_, _, c, post, _, back⟩ := ring_around [] ys getHead
    have entered := enterRound_spec holds aligned back
    cases fuel with
    | zero => simp at enough
    | succ fuel =>
      by_cases here : v = el
      · subst v
        right
        refine ⟨[], b, ys, [], vs, rfl, rfl, by simp, rfl, ?_⟩
        rw [findFrom, entered, ok_bind]
        exact if_pos rfl
      · have onward : findFrom l el (fuel + 1) (some b) = findFrom l el fuel (some c) := by
          rw [findFrom, entered, ok_bind]
          exact if_neg here
        have moved : Holds l.fields ((xs ++ [b]) ++ ys) ((us ++ [v]) ++ vs) := by
          simpa using holds
        rcases ih moved (by simp [aligned]) back fuel (by simpa using enough) with
          ⟨absent, found⟩ | ⟨zs, b', tl, ws, rest, rfl, rfl, absent, lengths, found⟩
        · left
          exact ⟨by simp [absent, Ne.symm here], onward.trans found⟩
        · right
          exact ⟨b :: zs, b', tl, v :: ws, rest, rfl, rfl, by simp [absent, Ne.symm here],
            by simp [lengths], onward.trans found⟩

theorem listFind_spec (holds : Holds l.fields boxes values) (el : Nat) :
    (el ∉ values ∧ listFind l el = .ok none) ∨
      ∃ zs b tl ws rest, boxes = zs ++ b :: tl ∧ values = ws ++ el :: rest ∧ el ∉ ws ∧
        zs.length = ws.length ∧ listFind l el = .ok (some b) := by
  obtain ⟨head, c, loaded, first, post, back⟩ := load_head holds
  have start : listFind l el = findFrom l el (listPreallocSize + l.mallocs + 1) (some c) := by
    rw [listFind, loaded, ok_bind, first]
  rw [start]
  exact findFrom_spec (show Holds l.fields ([] ++ boxes) ([] ++ values) from holds) rfl back el _
    (Nat.lt_succ_of_le holds.length_le)

/-- `list_remove` of data that occurs takes out the first element with it. -/
theorem listRemove_spec (holds : Holds l.fields boxes values) {el : Nat} (member : el ∈ values) :
    ∃ zs b tl ws rest l', boxes = zs ++ b :: tl ∧ values = ws ++ el :: rest ∧ el ∉ ws ∧
      zs.length = ws.length ∧ listRemove l el = .ok l' ∧
      Holds l'.fields (zs ++ tl) (ws ++ rest) := by
  rcases listFind_spec holds el with ⟨absent, _⟩ | ⟨zs, b, tl, ws, rest, rfl, rfl, absent, lengths, found⟩
  · exact absurd member absent
  obtain ⟨pre, a, c, post, front, back⟩ := ring_around zs tl getHead
  obtain ⟨_, _, bc, _⟩ := holds.ring.neighbours front back
  obtain ⟨e, _, loaded, next, _⟩ := load_live (holds.live (b := b) (by simp))
  obtain ⟨l₁, unlinked, _, l₂, l', wrote, freed, holds'⟩ := unlink_free_spec holds lengths back
  refine ⟨zs, b, tl, ws, rest, l', rfl, rfl, absent, lengths, ?_, holds'⟩
  rw [listRemove, found, ok_bind]
  change (l.load (some b) >>= _) = _
  rw [loaded, ok_bind, next, bc, unlinked, ok_bind, wrote, ok_bind, freed]

end

end Swam.Afl.LinkedList
