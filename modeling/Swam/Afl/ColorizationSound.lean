import Swam.Afl.RangeList

/-!
# What colorization does to an input

In every round the ranges of the list and the single bytes that were given up are a partition of
the input, and the buffer has the replacement on the ranges that were kept and the input
elsewhere. The loop ends because every range was tried, before its budget is used up.
-/
namespace Swam.Afl.Colorization

open Lib

/-! ## Copies of bytes -/

theorem memcpy_spec (dst src : List UInt8) {off n : Nat} (fitsDst : off + n ≤ dst.length)
    (fitsSrc : off + n ≤ src.length) :
    ∃ buf, memcpy dst src off n = .ok buf ∧ buf.length = dst.length ∧
      ∀ i, buf[i]? = if off ≤ i ∧ i < off + n then src[i]? else dst[i]? := by
  refine ⟨_, if_pos ⟨fitsDst, fitsSrc⟩, by simp; omega, ?_⟩
  intro i
  have front : (dst.take off).length = off := by simp; omega
  have middle : ((src.drop off).take n).length = n := by simp; omega
  by_cases before : i < off
  · rw [if_neg (by omega), List.append_assoc, List.getElem?_append_left (by omega),
      List.getElem?_take, if_pos before]
  · by_cases inside : i < off + n
    · rw [if_pos ⟨by omega, inside⟩, List.append_assoc, List.getElem?_append_right (by omega),
        List.getElem?_append_left (by omega), front, List.getElem?_take, if_pos (by omega),
        List.getElem?_drop, show off + (i - off) = i by omega]
    · rw [if_neg (by omega), List.append_assoc, List.getElem?_append_right (by omega),
        List.getElem?_append_right (by omega), front, middle, List.getElem?_drop,
        show off + n + (i - off - n) = i by omega]

/-! ## Ranges of an input -/

def Piece.covers (c : Piece) (i : Nat) : Prop := c.start ≤ i ∧ i ≤ c.end_

instance (c : Piece) (i : Nat) : Decidable (c.covers i) := inferInstanceAs (Decidable (_ ∧ _))

@[simp] theorem Piece.covers_mark (c : Piece) (ok i : Nat) :
    (Piece.mk c.start c.end_ ok).covers i ↔ c.covers i := Iff.rfl

/-- Ranges inside an input and bytes that are in none of them: every byte is in one. -/
structure Partition (len : Nat) (cs : List (Nat × Piece)) (rejected : List Nat) : Prop where
  proper : ∀ c ∈ cs, c.2.start ≤ c.2.end_ ∧ c.2.end_ < len
  once : ∀ i, cs.countP (fun c => c.2.covers i) + rejected.count i = if i < len then 1 else 0

/-- What is left to try: a range of some size takes at most twice as many executions less one. -/
def work (cs : List (Nat × Piece)) : Nat :=
  (cs.map fun c => if c.2.ok = 0 then 2 * (c.2.end_ - c.2.start) + 1 else 0).sum

section
variable {len : Nat} {cs xs ys : List (Nat × Piece)} {rejected : List Nat} {a : Nat} {c : Piece}

theorem Piece.size_eq (proper : c.start ≤ c.end_ ∧ c.end_ < len) (fits : len < 2 ^ 31) :
    c.size = c.end_ + 1 - c.start := by
  unfold Piece.size
  omega

theorem work_split : work (xs ++ (a, c) :: ys) =
    (if c.ok = 0 then 2 * (c.end_ - c.start) + 1 else 0) + work (xs ++ ys) := by
  simp only [work, List.map_append, List.map_cons, List.sum_append, List.sum_cons]
  omega

theorem work_cons : work ((a, c) :: cs) =
    (if c.ok = 0 then 2 * (c.end_ - c.start) + 1 else 0) + work cs := by
  simp [work]

/-- A byte of one range is in no other. -/
theorem Partition.apart (partition : Partition len (xs ++ (a, c) :: ys) rejected) {i : Nat}
    (covers : c.covers i) :
    (∀ d ∈ xs ++ ys, ¬ d.2.covers i) ∧ i ∉ rejected ∧ i < len := by
  have once := partition.once i
  rw [List.perm_middle.countP_eq, List.countP_cons_of_pos (by simpa using covers)] at once
  have inside : i < len := by
    by_contra outside
    rw [if_neg outside] at once
    omega
  rw [if_pos inside] at once
  have none_else : (xs ++ ys).countP (fun d => d.2.covers i) = 0 := by omega
  have not_rejected : rejected.count i = 0 := by omega
  refine ⟨?_, List.count_eq_zero.mp not_rejected, inside⟩
  intro d member
  simpa using List.countP_eq_zero.mp none_else d member

/-- A mark does not change the partition. -/
theorem Partition.mark (partition : Partition len (xs ++ (a, c) :: ys) rejected) (ok : Nat) :
    Partition len (xs ++ (a, { c with ok }) :: ys) rejected where
  proper := by
    intro d member
    rcases List.mem_append.mp member with left | right
    · exact partition.proper d (List.mem_append_left _ left)
    · rcases List.mem_cons.mp right with rfl | right
      · exact partition.proper (a, c) (by simp)
      · exact partition.proper d (by simp [right])
  once := by
    intro i
    rw [← partition.once i, List.countP_append, List.countP_append, List.countP_cons, List.countP_cons]
    rfl

/-- A single byte is given up. -/
theorem Partition.giveUp (partition : Partition len (xs ++ (a, c) :: ys) rejected)
    (single : c.start = c.end_) : Partition len (xs ++ ys) (c.start :: rejected) where
  proper := by
    intro d member
    refine partition.proper d ?_
    rcases List.mem_append.mp member with member | member <;> simp [member]
  once := by
    intro i
    rw [← partition.once i, List.perm_middle.countP_eq, List.countP_cons, List.count_cons]
    have same : (c.covers i) ↔ c.start = i := by
      unfold Piece.covers
      omega
    by_cases here : c.start = i
    · simp [same, here]
      omega
    · simp [same, here]

/-- A range is split in two. -/
theorem Partition.divide (partition : Partition len (xs ++ (a, c) :: ys) rejected) (r₁ r₂ : Nat)
    {middle : Nat} (left : c.start < middle) (right : middle ≤ c.end_) :
    Partition len ((r₂, ⟨middle, c.end_, 0⟩) :: (r₁, ⟨c.start, middle - 1, 0⟩) :: (xs ++ ys)) rejected where
  proper := by
    have whole := partition.proper (a, c) (by simp)
    refine List.forall_mem_cons.mpr ⟨⟨right, whole.2⟩, List.forall_mem_cons.mpr ⟨?_, ?_⟩⟩
    · have := whole.2
      exact ⟨by simp only; omega, by simp only at this ⊢; omega⟩
    · intro d member
      refine partition.proper d ?_
      rcases List.mem_append.mp member with member | member <;> simp [member]
  once := by
    intro i
    rw [← partition.once i, List.perm_middle.countP_eq, List.countP_cons, List.countP_cons,
      List.countP_cons]
    -- A byte of the range is in one of the two halves.
    by_cases before : c.start ≤ i
    · by_cases after : i ≤ c.end_
      · by_cases half : i < middle
        · have : i ≤ middle - 1 := by omega
          simp [Piece.covers, before, after, this, show ¬ middle ≤ i by omega]
        · have : ¬ i ≤ middle - 1 := by omega
          simp [Piece.covers, before, after, this, show middle ≤ i by omega]
      · have : ¬ i ≤ middle - 1 := by omega
        simp [Piece.covers, after, this]
    · have : ¬ middle ≤ i := by omega
      simp [Piece.covers, before, this]

end

/-! ## The rounds of the loop -/

/-- A byte of a range whose replacement is kept. -/
def Kept (cs : List (Nat × Piece)) (i : Nat) : Prop := ∃ c ∈ cs, c.2.ok ≠ 0 ∧ c.2.covers i

instance (cs : List (Nat × Piece)) (i : Nat) : Decidable (Kept cs i) :=
  inferInstanceAs (Decidable (∃ c ∈ cs, _ ∧ _))

theorem kept_cons {cs : List (Nat × Piece)} {c : Nat × Piece} {i : Nat} :
    Kept (c :: cs) i ↔ (c.2.ok ≠ 0 ∧ c.2.covers i) ∨ Kept cs i := by
  simp [Kept]

theorem kept_middle {xs ys : List (Nat × Piece)} {c : Nat × Piece} {i : Nat} :
    Kept (xs ++ c :: ys) i ↔ (c.2.ok ≠ 0 ∧ c.2.covers i) ∨ Kept (xs ++ ys) i := by
  simp only [Kept, List.mem_append, List.mem_cons]
  constructor
  · rintro ⟨d, left | rfl | right, kept⟩
    · exact .inr ⟨d, .inl left, kept⟩
    · exact .inl kept
    · exact .inr ⟨d, .inr right, kept⟩
  · rintro (kept | ⟨d, left | right, kept⟩)
    · exact ⟨c, .inr (.inl rfl), kept⟩
    · exact ⟨d, .inl left, kept⟩
    · exact ⟨d, .inr (.inr right), kept⟩

/-- What the stage relies on: an input that is neither empty nor too long, a replacement of every
byte, and executions that all end in time and whose checksum is a function of the bytes. -/
structure Setting.Deterministic (p : Setting) (cksum : List UInt8 → Nat) : Prop where
  nonempty : 1 ≤ p.backup.length
  short : p.backup.length < 2 ^ 31
  sameLength : p.changed.length = p.backup.length
  replaced : ∀ i < p.backup.length, p.changed[i]? ≠ p.backup[i]?
  executes : ∀ buf, p.getExecChecksum buf = some (cksum buf)
  baseline : p.execCksum = cksum p.backup
  inTime : ∀ n, p.tooSlow n = false

/-- A state of the loop: the list, its ranges and the bytes that were given up, and the buffer. -/
structure State.Sound (p : Setting) (st : State) (cs : List (Nat × Piece)) (rejected : List Nat) :
    Prop where
  listed : Listed st.heap.cells st.ranges cs
  partition : Partition p.backup.length cs rejected
  marks : ∀ c ∈ cs, c.2.ok = 0 ∨ c.2.ok = 1
  length : st.buf.length = p.backup.length
  bytes : ∀ i, st.buf[i]? = if Kept cs i then p.changed[i]? else p.backup[i]?
  checksum : p.getExecChecksum st.buf = some p.execCksum
  spent : st.stageCur + work cs ≤ 2 * p.backup.length - 1

section
variable {p : Setting} {cksum : List UInt8 → Nat} {st : State} {xs ys : List (Nat × Piece)}
  {rejected : List Nat} {a : Nat} {c : Piece}

/-- The replacement of a range that waits, and back. -/
private theorem State.Sound.putBack (sound : st.Sound p (xs ++ (a, c) :: ys) rejected)
    (deterministic : p.Deterministic cksum) (waits : c.ok = 0) :
    ∃ buf, memcpy st.buf p.changed c.start c.size = .ok buf ∧ buf.length = p.backup.length ∧
      (∀ i, buf[i]? = if Kept (xs ++ (a, { c with ok := 1 }) :: ys) i then p.changed[i]?
        else p.backup[i]?) ∧
      memcpy buf p.backup c.start c.size = .ok st.buf := by
  have proper : c.start ≤ c.end_ ∧ c.end_ < _ := sound.partition.proper (a, c) (by simp)
  have size := Piece.size_eq proper deterministic.short
  have short := deterministic.sameLength
  have length := sound.length
  have fits : c.start + c.size ≤ p.backup.length := by omega
  obtain ⟨buf, copied, sameLength, bytes⟩ :=
    memcpy_spec st.buf p.changed (length.symm ▸ fits) (short.symm ▸ fits)
  obtain ⟨buf', copied', sameLength', bytes'⟩ :=
    memcpy_spec buf p.backup ((sameLength.trans length).symm ▸ fits) fits
  -- A byte of the range is in no other one, so it was not replaced before.
  have inside (i : Nat) : (c.start ≤ i ∧ i < c.start + c.size) ↔ c.covers i := by
    unfold Piece.covers
    omega
  have untouched {i : Nat} (covers : c.covers i) : ¬ Kept (xs ++ ys) i := by
    rintro ⟨d, member, _, also⟩
    exact (sound.partition.apart covers).1 d member also
  refine ⟨buf, copied, by omega, ?_, ?_⟩
  · intro i
    rw [bytes, sound.bytes]
    simp only [inside, kept_middle, waits]
    by_cases covers : c.covers i
    · simp [covers]
    · simp [covers]
  · rw [copied']
    congr 1
    refine List.ext_getElem? ?_
    intro i
    rw [bytes', bytes, sound.bytes]
    simp only [inside, kept_middle, waits]
    by_cases covers : c.covers i
    · simp [covers, untouched covers]
    · simp [covers]

/-- Where the halves of a range meet, in 32 bits. -/
private theorem half_ends {start end_ s len : Nat} (size : s = end_ + 1 - start) (several : 1 < s)
    (inside : end_ < len) (short : len < 2 ^ 31) :
    (start + s / 2) % 2 ^ 32 = start + s / 2 ∧
      (start + 2 ^ 32 - 1 + s / 2) % 2 ^ 32 = start + s / 2 - 1 ∧
      start < start + s / 2 ∧ start + s / 2 ≤ end_ := by
  omega

/-- A range that changes the execution is split or given up, and less is left to try. -/
private theorem State.Sound.discards (sound : st.Sound p (xs ++ (a, c) :: ys) rejected)
    (short : p.backup.length < 2 ^ 31) (waits : c.ok = 0) {buf : List UInt8}
    (back : memcpy buf p.backup c.start c.size = .ok st.buf) {e : Range} (same : e.piece = c) :
    ∃ st' cs' rejected', discard p { st with buf } a e = .ok st' ∧ st'.stageCur = st.stageCur ∧
      { st' with stageCur := st.stageCur + 1 }.Sound p cs' rejected' := by
  have proper : c.start ≤ c.end_ ∧ c.end_ < _ := sound.partition.proper (a, c) (by simp)
  have size := Piece.size_eq proper short
  have eStart : e.start = c.start := congrArg Piece.start same
  have eEnd : e.end_ = c.end_ := congrArg Piece.end_ same
  have eSize : e.size = c.size := congrArg Piece.size same
  have spent := sound.spent
  rw [work_split, if_pos waits] at spent
  have marks {d : Nat × Piece} (member : d ∈ xs ++ ys) : d.2.ok = 0 ∨ d.2.ok = 1 := by
    refine sound.marks d ?_
    rcases List.mem_append.mp member with member | member <;> simp [member]
  have sameBytes (i : Nat) : st.buf[i]? = if Kept (xs ++ ys) i then p.changed[i]? else p.backup[i]? := by
    rw [sound.bytes]
    simp [kept_middle, waits]
  -- The size is a name from here on: its words are not to be unfolded.
  generalize c.size = s at size eSize back
  unfold discard
  rw [eStart, eEnd, eSize]
  dsimp only
  rw [back, ok_bind]
  by_cases several : 1 < s
  · obtain ⟨middle, before, left, right⟩ := half_ends size several proper.2 short
    rw [if_pos several, middle, before]
    -- The halves are put in front while the range is still in the list.
    obtain ⟨r₁, h₁, added₁, _, listed₁⟩ :=
      addRange_spec sound.listed c.start (c.start + s / 2 - 1)
    obtain ⟨r₂, h₂, added₂, _, listed₂⟩ := addRange_spec listed₁ (c.start + s / 2) c.end_
    rw [← List.cons_append, ← List.cons_append] at listed₂
    obtain ⟨ranges', h', unlinked, _, listed'⟩ := unlinkRange_spec listed₂
    refine ⟨⟨h'.free a, ranges', st.buf, st.stageCur⟩, _, _, ?_, rfl, ⟨listed',
      sound.partition.divide r₁ r₂ left right, ?_, sound.length, ?_, sound.checksum, ?_⟩⟩
    · simp only [added₁, added₂, ok_bind, pure, Except.pure, unlinked]
    · intro d member
      rcases List.mem_cons.mp member with rfl | member
      · exact .inl rfl
      · rcases List.mem_cons.mp member with rfl | member
        · exact .inl rfl
        · exact marks member
    · intro i
      rw [sameBytes i]
      simp [kept_cons]
    · simp only [List.cons_append, work_cons, if_true]
      omega
  · obtain ⟨ranges', h', unlinked, _, listed'⟩ := unlinkRange_spec sound.listed
    refine ⟨⟨h'.free a, ranges', st.buf, st.stageCur⟩, _, _, ?_, rfl, ⟨listed',
      sound.partition.giveUp (by omega), fun d => marks, sound.length, sameBytes, sound.checksum, ?_⟩⟩
    · simp only [if_neg several, ok_bind, unlinked]
      rfl
    · simp only
      omega

theorem stageMax_eq {len : Nat} (short : len < 2 ^ 31) : stageMax len = 2 * len := by
  rw [stageMax, Nat.shiftLeft_eq]
  omega

/-- A range that does not change the execution is kept. -/
private theorem State.Sound.keeps (sound : st.Sound p (xs ++ (a, c) :: ys) rejected)
    (waits : c.ok = 0) {buf : List UInt8} (length : buf.length = p.backup.length)
    (bytes : ∀ i, buf[i]? = if Kept (xs ++ (a, { c with ok := 1 }) :: ys) i then p.changed[i]?
      else p.backup[i]?)
    (checksum : p.getExecChecksum buf = some p.execCksum) :
    ∃ h', st.heap.modify (some a) (fun r => { r with ok := 1 }) = .ok h' ∧
      (State.mk h' st.ranges buf (st.stageCur + 1)).Sound p (xs ++ (a, { c with ok := 1 }) :: ys)
        rejected := by
  obtain ⟨h', wrote, _, listed⟩ := modify_ok_spec sound.listed 1
  refine ⟨h', wrote, listed, sound.partition.mark 1, ?_, length, bytes, checksum, ?_⟩
  · intro d member
    rcases List.mem_append.mp member with left | right
    · exact sound.marks d (List.mem_append_left _ left)
    · rcases List.mem_cons.mp right with rfl | right
      · exact .inr rfl
      · exact sound.marks d (by simp [right])
  · have spent := sound.spent
    rw [work_split, if_pos waits] at spent
    rw [work_split, if_neg (by simp)]
    simp only
    omega

/-- A round ends the loop when every range was tried, and else does one execution. -/
theorem State.Sound.round {cs : List (Nat × Piece)} (sound : st.Sound p cs rejected)
    (deterministic : p.Deterministic cksum) :
    (round p st = .ok (.ended st) ∧ ∀ c ∈ cs, c.2.ok = 1) ∨
      ∃ st' cs' rejected', round p st = .ok (.running st') ∧ st'.Sound p cs' rejected' ∧
        st'.stageCur = st.stageCur + 1 := by
  have whole : Listed st.heap.cells st.ranges ([] ++ cs) := sound.listed
  have few : cs.length < st.heap.used + 1 := Nat.lt_succ_of_le sound.listed.length_le
  have popped := popBiggestRange_spec whole few none 0
  rw [← sound.listed.head] at popped
  unfold Colorization.round
  rw [popped, ok_bind]
  cases found : biggest cs none 0 with
  | none =>
    refine .inl ⟨rfl, ?_⟩
    intro c member
    exact (sound.marks c member).resolve_left (biggest_eq_none found c member)
  | some a =>
    obtain ⟨xs, c, ys, rfl, waits⟩ := (biggest_mem found).resolve_left (by simp)
    have spent := sound.spent
    rw [work_split, if_pos waits] at spent
    have nonempty := deterministic.nonempty
    have short := deterministic.short
    have budget : ¬ stageMax p.backup.length ≤ st.stageCur := by
      rw [stageMax_eq short]
      omega
    have next : (st.stageCur + 1) % 2 ^ 32 = st.stageCur + 1 := Nat.mod_eq_of_lt (by omega)
    obtain ⟨r, _, loaded, piece, _⟩ := load_piece (sound.listed.holds (a, c) (by simp))
    have rStart : r.start = c.start := congrArg Piece.start piece
    have rSize : r.size = c.size := congrArg Piece.size piece
    obtain ⟨buf, copied, length, bytes, back⟩ := sound.putBack deterministic waits
    refine .inr ?_
    dsimp only
    rw [if_neg budget, loaded, ok_bind, rStart, rSize, copied, ok_bind, deterministic.executes,
      deterministic.inTime]
    dsimp only
    by_cases changed : cksum buf ≠ p.execCksum
    · obtain ⟨st', cs', rejected', discarded, spent', sound'⟩ := sound.discards short waits back piece
      rw [if_pos (.inl changed), discarded, ok_bind, spent', next]
      exact ⟨_, cs', rejected', rfl, sound', rfl⟩
    · have checksum : p.getExecChecksum buf = some p.execCksum := by
        rw [deterministic.executes, not_not.mp changed]
      obtain ⟨h', wrote, sound'⟩ := sound.keeps waits length bytes checksum
      rw [if_neg (by simpa using changed), wrote]
      simp only [ok_bind, pure, Except.pure, next]
      exact ⟨_, _, rejected, rfl, sound', rfl⟩

/-- The loop goes on for some executions, and then ends because every range was kept. -/
theorem State.Sound.ends {cs : List (Nat × Piece)} (sound : st.Sound p cs rejected)
    (deterministic : p.Deterministic cksum) :
    ∃ n final cs' rejected', st.stageCur + n ≤ 2 * p.backup.length - 1 ∧
      (∀ m ≤ n, ∃ st' cs' rejected', rounds p m st = .ok (.running st') ∧ st'.Sound p cs' rejected' ∧
        st'.stageCur = st.stageCur + m) ∧
      (∀ m, n < m → rounds p m st = .ok (.ended final)) ∧
      final.Sound p cs' rejected' ∧ ∀ c ∈ cs', c.2.ok = 1 := by
  -- By what is left of the budget.
  induction left : 2 * p.backup.length - 1 - st.stageCur using Nat.strong_induction_on
    generalizing st cs rejected with | _ k ih
  have nonempty := deterministic.nonempty
  rcases sound.round deterministic with ⟨ended, kept⟩ | ⟨st', cs', rejected', went, sound', spent⟩
  · refine ⟨0, st, cs, rejected, ?_, ?_, ?_, sound, kept⟩
    · exact Nat.le_trans (Nat.le_add_right _ (work cs)) sound.spent
    · rintro m none
      obtain rfl := Nat.le_zero.mp none
      exact ⟨st, cs, rejected, rfl, sound, rfl⟩
    · rintro (_ | m) some
      · exact absurd some (Nat.lt_irrefl 0)
      · rw [rounds, ended]
        rfl
  · have := sound'.spent
    obtain ⟨n, final, cs'', rejected'', budget, before, after, facts⟩ := ih _ (by omega) sound' rfl
    refine ⟨n + 1, final, cs'', rejected'', by omega, ?_, ?_, facts⟩
    · rintro (_ | m) bound
      · exact ⟨st, cs, rejected, rfl, sound, rfl⟩
      · obtain ⟨st'', cs'', rejected'', went', sound'', spent'⟩ := before m (by omega)
        refine ⟨st'', cs'', rejected'', ?_, sound'', by omega⟩
        rw [rounds, went, ok_bind]
        exact went'
    · rintro (_ | m) bound
      · exact absurd bound (Nat.not_lt_zero _)
      · rw [rounds, went, ok_bind]
        exact after m (by omega)

end

end Swam.Afl.Colorization
