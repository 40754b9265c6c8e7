import Swam.Afl.Trimming
import Mathlib.Data.List.Basic

/-!
# What trimming leaves

The two loops end; what they leave has the checksum of the entry where the target got what was
meant for it. Whether it did, and whether the file holds what is left, depends on how `write`
divides the bytes.
-/
namespace Swam.Afl

open Lib

/-! ## The file -/

/-- The calls of `write`, each with its offset and result, if all bytes from `written` on are
written. -/
def writeCalls (writes : Writes) (len : Nat) : Nat → Nat → Nat → List (Nat × Nat)
  | 0, _, _ => []
  | fuel + 1, n, written =>
    if written < len then
      let result := writes.accepts n (len - written)
      (written, result) :: writeCalls writes len fuel (n + 1) (written + result)
    else []

/-- The calls of `write` suit the loop that makes them: the one under `no_unlink` passes the
start of the buffer every time, the one of `ck_write` takes a short write for the last one if
it makes what is written equal to what was left. -/
def WritesWhole (noUnlink : Bool) (writes : Writes) (data : List Byte) : Prop :=
  ∀ c ∈ writeCalls writes data.length data.length 0 0,
    if noUnlink then data.take c.2 = (data.drop c.1).take c.2
    else c.2 = data.length - c.1 ∨ c.1 + c.2 ≠ data.length - c.1

/-- How many of the bytes from `written` on the loop of `ck_write` gets written: it stops at the
first call that takes all that is left, or seems to. -/
def ckWriteTakes (writes : Writes) (len : Nat) : Nat → Nat → Nat → Nat
  | 0, _, _ => 0
  | fuel + 1, n, written =>
    let result := writes.accepts n (len - written)
    if result ≠ len - written ∧ written + result ≠ len - written then
      result + ckWriteTakes writes len fuel (n + 1) (written + result)
    else result

section
variable {writes : Writes} {data : List Byte}

/-- The calls go through the data from front to back. -/
theorem writeCalls_flatMap (fuel n written : Nat) (enough : data.length - written ≤ fuel) :
    (writeCalls writes data.length fuel n written).flatMap (fun c => (data.drop c.1).take c.2) =
      data.drop written := by
  induction fuel generalizing n written with
  | zero => rw [writeCalls, List.flatMap_nil, List.drop_of_length_le (by omega)]
  | succ fuel ih =>
    rw [writeCalls]
    split
    next rest =>
      have positive := writes.positive n (data.length - written) (by omega)
      dsimp only
      rw [List.flatMap_cons, ih _ _ (by omega), ← List.drop_drop, List.take_append_drop]
    next done => rw [List.flatMap_nil, List.drop_of_length_le (by omega)]

/-- Every result is within what is left. -/
theorem writeCalls_inside {fuel n written : Nat} {c : Nat × Nat}
    (member : c ∈ writeCalls writes data.length fuel n written) :
    c.1 + c.2 ≤ data.length := by
  induction fuel generalizing n written with
  | zero => simp [writeCalls] at member
  | succ fuel ih =>
    rw [writeCalls] at member
    split at member
    next rest =>
      rcases List.mem_cons.mp member with rfl | later
      · have := writes.atMost n (data.length - written)
        dsimp only
        omega
      · exact ih later
    next => simp at member

/-- Without `lseek`, the file is what the calls took, one after the other. -/
theorem writeAgain_runs (writes : Writes) (buf : List Byte) (len fuel : Nat) (w : Writing)
    (enough : len - w.written ≤ fuel) :
    ∃ w', whileLoop (fun w => w.written < len) (Writing.writeAgain writes buf len) fuel w = some w' ∧
      w'.file = w.file ++
        (writeCalls writes len fuel w.calls w.written).flatMap (fun c => buf.take c.2) := by
  induction fuel generalizing w with
  | zero =>
    refine ⟨w, ?_, by simp [writeCalls]⟩
    rw [whileLoop, if_neg (by simpa using Nat.sub_eq_zero_iff_le.mp (Nat.le_zero.mp enough))]
  | succ fuel ih =>
    rw [whileLoop, writeCalls]
    by_cases rest : w.written < len
    · have positive := writes.positive w.calls (len - w.written) (by omega)
      rw [if_pos (decide_eq_true rest), if_pos rest]
      obtain ⟨w', ran, file⟩ := ih (w.writeAgain writes buf len) (by
        show len - (w.written + writes.accepts w.calls (len - w.written)) ≤ fuel
        omega)
      refine ⟨w', ran, file.trans ?_⟩
      rw [List.flatMap_cons, ← List.append_assoc]
      rfl
    · rw [if_neg (by simpa using rest), if_neg rest]
      exact ⟨w, rfl, (List.append_nil _).symm⟩

/-- `ck_write` writes the start of the data, and all of it if and only if it does not stop too
early. -/
theorem ckWrite_runs (writes : Writes) {buf : List Byte} (same : buf.take data.length = data) (fuel : Nat)
    (w : Writing) (rest : w.written < data.length)
    (enough : data.length - w.written ≤ fuel) (len : w.len = data.length - w.written)
    (off : w.off = w.written) :
    ∃ w' : Writing, roundLoop (R := Empty) (fun _ => true)
        (fun w => some (Writing.ckWriteRound writes buf w)) (fuel + 1) w = some (.ok w') ∧
      w'.file = w.file ++ (data.drop w.written).take
        (ckWriteTakes writes data.length fuel w.calls w.written) ∧
      (w'.file = w.file ++ data.drop w.written ↔
        ∀ c ∈ writeCalls writes data.length fuel w.calls w.written,
          c.2 = data.length - c.1 ∨ c.1 + c.2 ≠ data.length - c.1) := by
  induction fuel generalizing w with
  | zero => omega
  | succ fuel ih =>
    have atMost := writes.atMost w.calls w.len
    have positive := writes.positive w.calls w.len (by omega)
    rw [roundLoop, if_pos rfl, writeCalls, if_pos rest, ckWriteTakes, ← len]
    have piece : (buf.drop w.written).take (writes.accepts w.calls w.len) =
        (data.drop w.written).take (writes.accepts w.calls w.len) := by
      conv_rhs => rw [← same]
      rw [List.drop_take, List.take_take, Nat.min_eq_left (by omega)]
    simp only [List.forall_mem_cons, Writing.ckWriteRound, Writing.write, off, piece]
    by_cases more : writes.accepts w.calls w.len ≠ w.len ∧ 0 < writes.accepts w.calls w.len ∧
        w.written + writes.accepts w.calls w.len ≠ w.len
    · rw [if_pos more, if_pos ⟨more.1, more.2.2⟩]
      -- a short write that is seen to be one: the loop goes on with what is left
      generalize writes.accepts w.calls w.len = res at atMost positive more ⊢
      have here : (w.written, res).2 = data.length - (w.written, res).1 ∨
          (w.written, res).1 + (w.written, res).2 ≠ data.length - (w.written, res).1 := by
        dsimp only
        omega
      obtain ⟨w', ran, start, whole⟩ := ih
        { w with
          file := w.file ++ (data.drop w.written).take res
          calls := w.calls + 1
          written := w.written + res
          len := w.len - res
          off := w.written + res }
        (by dsimp only; omega) (by dsimp only; omega) (by dsimp only; omega) rfl
      refine ⟨w', ran, ?_, ?_⟩
      · rw [start, List.append_assoc, ← List.drop_drop, ← List.take_add]
      · rw [List.append_assoc, ← List.drop_drop, List.take_append_drop] at whole
        exact whole.trans (and_iff_right here).symm
    · rw [if_neg more, if_neg fun both => more ⟨both.1, positive, both.2⟩]
      refine ⟨_, rfl, rfl, ?_⟩
      generalize writes.accepts w.calls w.len = res at atMost positive more ⊢
      -- the last call is for all that is left, or it only looks so
      rw [List.append_cancel_left_eq]
      by_cases all : res = w.len
      · have none_left : writeCalls writes data.length fuel (w.calls + 1) (w.written + res) = [] := by
          cases fuel with
          | zero => rfl
          | succ fuel => rw [writeCalls, if_neg (by omega)]
        rw [none_left, List.take_of_length_le (by rw [List.length_drop]; omega)]
        simp [all, len]
      · constructor
        · intro whole
          have size := congrArg List.length whole
          rw [List.length_take, List.length_drop] at size
          omega
        · intro suits
          have := suits.1
          omega

/-- Pieces of equal lengths, one after the other, agree as a whole if and only if they agree
one by one. -/
theorem flatMap_inj_iff {α β : Type} {f g : α → List β} {l : List α}
    (size : ∀ a ∈ l, (f a).length = (g a).length) :
    l.flatMap f = l.flatMap g ↔ ∀ a ∈ l, f a = g a := by
  induction l with
  | nil => simp
  | cons a l ih =>
    simp only [List.forall_mem_cons] at size ⊢
    rw [List.flatMap_cons, List.flatMap_cons, ← ih size.2]
    constructor
    · exact fun equal => List.append_inj equal size.1
    · exact fun ⟨first, rest⟩ => by rw [first, rest]

theorem writeNoUnlink_iff {buf : List Byte} (same : buf.take data.length = data) :
    ∃ file, writeNoUnlink writes buf data.length = some file ∧
      (file = data ↔ WritesWhole true writes data) := by
  obtain ⟨w, ran, file⟩ := writeAgain_runs writes buf data.length data.length
    ⟨[], 0, 0, 0, 0⟩ (Nat.sub_le _ _)
  refine ⟨w.file, by rw [writeNoUnlink, ran, Option.map_some], ?_⟩
  have starts : (writeCalls writes data.length data.length 0 0).flatMap (fun c => buf.take c.2) =
      (writeCalls writes data.length data.length 0 0).flatMap (fun c => data.take c.2) := by
    refine List.flatMap_congr fun c member => ?_
    have inside := writeCalls_inside member
    rw [← same, List.take_take, Nat.min_eq_left (by omega)]
  rw [file, List.nil_append, starts]
  calc
    _ ↔ (writeCalls writes data.length data.length 0 0).flatMap (fun c => data.take c.2) =
        (writeCalls writes data.length data.length 0 0).flatMap
          (fun c => (data.drop c.1).take c.2) := by
      rw [writeCalls_flatMap _ _ _ (Nat.sub_le _ _), List.drop_zero]
    _ ↔ _ := by
      rw [flatMap_inj_iff]
      · rfl
      · intro c member
        have inside := writeCalls_inside member
        rw [List.length_take, List.length_take, List.length_drop]
        omega

/-- The bytes that `ck_write` gets written. -/
def bytesTaken (writes : Writes) (len : Nat) : Nat := ckWriteTakes writes len len 0 0

theorem ckWrite_iff {buf : List Byte} (same : buf.take data.length = data) :
    ckWrite writes buf data.length = some (data.take (bytesTaken writes data.length)) ∧
      (data.take (bytesTaken writes data.length) = data ↔ WritesWhole false writes data) := by
  by_cases empty : data.length = 0
  · obtain rfl := List.length_eq_zero_iff.mp empty
    rw [ckWrite, if_pos empty, List.take_nil]
    simp [WritesWhole, writeCalls]
  · obtain ⟨w, ran, start, whole⟩ := ckWrite_runs writes same data.length
      ⟨[], 0, data.length, 0, 0⟩ (by dsimp only; omega) (Nat.sub_le _ _) rfl rfl
    rw [List.drop_zero, List.nil_append] at start whole
    change _ = data.take (bytesTaken writes data.length) at start
    rw [← start, ckWrite, if_neg empty, ran]
    exact ⟨rfl, whole⟩

/-- `ck_write` sees as much of the buffer as it is to write. -/
theorem ckWrite_take (writes : Writes) (buf : List Byte) (len : Nat) :
    ckWrite writes (buf.take len) len = ckWrite writes buf len := by
  have rounds (fuel : Nat) (w : Writing) (inside : w.off + w.len ≤ len) :
      roundLoop (R := Empty) (fun _ => true)
          (fun w => some (Writing.ckWriteRound writes (buf.take len) w)) fuel w =
        roundLoop (fun _ => true) (fun w => some (Writing.ckWriteRound writes buf w)) fuel w := by
    induction fuel generalizing w with
    | zero => rfl
    | succ fuel ih =>
      have atMost := writes.atMost w.calls w.len
      have piece : ((buf.take len).drop w.off).take (writes.accepts w.calls w.len) =
          (buf.drop w.off).take (writes.accepts w.calls w.len) := by
        rw [List.drop_take, List.take_take, Nat.min_eq_left (by omega)]
      have round : Writing.ckWriteRound writes (buf.take len) w =
          Writing.ckWriteRound writes buf w := by
        rw [Writing.ckWriteRound, Writing.ckWriteRound, Writing.write, Writing.write, piece]
      rw [roundLoop, roundLoop, if_pos rfl, if_pos rfl, round]
      cases ended : Writing.ckWriteRound writes buf w with
      | next w' =>
        refine ih w' ?_
        rw [Writing.ckWriteRound, Writing.write] at ended
        dsimp only at ended
        split at ended
        · cases ended
          dsimp only
          omega
        · cases ended
      | leave w' => rfl
      | stop r => rfl
  rw [ckWrite, ckWrite, rounds (len + 1) ⟨[], 0, len, 0, 0⟩ (by dsimp only; omega)]

end

/-! ## Delivery -/

/-- What is written over the start of a file that is then cut to the length of `whole` makes it
`whole`: as far as it goes, and behind it that is there already. -/
def CompletesInput (written before whole : List Byte) : Prop :=
  written <+: whole ∧
    ∀ i, written.length ≤ i → i < whole.length → whole[i]? = some (before.getD i 0)

theorem getElem?_overwritten {written before : List Byte} {len i : Nat} (inside : i < len) :
    (ftruncate (memcpy before 0 written) len)[i]? =
      if i < written.length then written[i]? else some (before.getD i 0) := by
  have file : memcpy before 0 written = written ++ before.drop written.length := by
    simp [memcpy]
  rw [ftruncate, file]
  by_cases early : i < written.length
  · rw [if_pos early, List.getElem?_append_left (by rw [List.length_take, List.length_append]; omega),
      List.getElem?_take_of_lt inside, List.getElem?_append_left early]
  · rw [if_neg early, List.getD_eq_getElem?_getD]
    by_cases old : i < before.length
    · rw [List.getElem?_append_left (by
          rw [List.length_take, List.length_append, List.length_drop]
          omega),
        List.getElem?_take_of_lt inside, List.getElem?_append_right (by omega), List.getElem?_drop,
        Nat.add_sub_cancel' (by omega), List.getElem?_eq_getElem old, Option.getD_some]
    · rw [List.getElem?_append_right (by
          rw [List.length_take, List.length_append, List.length_drop]
          omega),
        List.getElem?_replicate, if_pos (by
          rw [List.length_take, List.length_append, List.length_drop]
          omega), List.getElem?_eq_none (by omega : before.length ≤ i), Option.getD_none]

theorem overwritten_iff {written before whole : List Byte} (short : written.length ≤ whole.length) :
    ftruncate (memcpy before 0 written) whole.length = whole ↔ CompletesInput written before whole := by
  have length : (ftruncate (memcpy before 0 written) whole.length).length = whole.length := by
    simp only [ftruncate, List.length_append, List.length_take, List.length_replicate]
    omega
  constructor
  · intro equal
    have at_ {i : Nat} (inside : i < whole.length) := equal ▸ @getElem?_overwritten written before _ _ inside
    refine ⟨List.prefix_iff_getElem?.mpr fun i early => ?_, fun i late inside => ?_⟩
    · rw [at_ (by omega), if_pos early, List.getElem?_eq_getElem early]
    · rw [at_ inside, if_neg (by omega)]
  · rintro ⟨start, rest⟩
    refine List.ext_getElem? fun i => ?_
    by_cases inside : i < whole.length
    · rw [getElem?_overwritten inside]
      split
      next early =>
        rw [List.getElem?_eq_getElem early]
        exact (List.prefix_iff_getElem?.mp start i early).symm
      next late => exact (rest i (by omega) inside).symm
    · rw [List.getElem?_eq_none (by omega), List.getElem?_eq_none (by omega)]

/-- The entry without the chunk. -/
def TrimRun.kept (r : TrimRun) : List Byte := r.head ++ r.tail

/-- The target's answer makes the deletion permanent. -/
def TrimRun.Accepted (call : TrimCall) (r : TrimRun) : Prop := call.cksum r.input = call.execCksum

/-- The calls of `write` before an execution suit the two loops of `ck_write`; on standard input
it also does if the bytes that are there already complete those that the calls take. -/
def DeliversWhole (call : TrimCall) (r : TrimRun) : Prop :=
  match call.delivery with
  | .sharedMemory => True
  | .outFile => WritesWhole false (call.headWrites r.number) r.head ∧
      WritesWhole false (call.tailWrites r.number) r.tail
  | .stdin => CompletesInput
      (r.head.take (bytesTaken (call.headWrites r.number) r.head.length) ++
        r.tail.take (bytesTaken (call.tailWrites r.number) r.tail.length)) r.before r.kept

/-! ## The buffer -/

/-- `short` is what is left of `long` after disjoint chunks behind the first `n` elements are
deleted: each of the pairs is a chunk and what is kept behind it. -/
def DeletesChunks {α : Type} (n : Nat) (long short : List α) : Prop :=
  ∃ (first : List α) (pieces : List (List α × List α)), first.length = n ∧
    long = first ++ pieces.flatMap (fun p => p.1 ++ p.2) ∧ short = first ++ pieces.flatMap Prod.snd

theorem exists_pieces {α : Type} {short long : List α} (kept : short.Sublist long) :
    ∃ pieces : List (List α × List α),
      long = pieces.flatMap (fun p => p.1 ++ p.2) ∧ short = pieces.flatMap Prod.snd := by
  induction kept with
  | slnil => exact ⟨[], rfl, rfl⟩
  | cons a _ ih =>
    obtain ⟨pieces, rfl, rfl⟩ := ih
    exact ⟨([a], []) :: pieces, rfl, rfl⟩
  | cons_cons a _ ih =>
    obtain ⟨pieces, rfl, rfl⟩ := ih
    exact ⟨([], [a]) :: pieces, rfl, rfl⟩

theorem deletesChunks_of_sublist {α : Type} {n : Nat} {long short : List α}
    (size : n ≤ short.length) (first : short.take n = long.take n) (kept : short.Sublist long) :
    DeletesChunks n long short := by
  have rest : (short.drop n).Sublist (long.drop n) := by
    rw [← List.append_sublist_append_left (short.take n), List.take_append_drop, first,
      List.take_append_drop]
    exact kept
  obtain ⟨pieces, whole, left⟩ := exists_pieces rest
  refine ⟨short.take n, pieces, ?_, ?_, ?_⟩
  · rw [List.length_take, Nat.min_eq_left size]
  · rw [← whole, first, List.take_append_drop]
  · rw [← left, List.take_append_drop]

namespace Trimming

/-- The entry as the state has it. -/
def bytes (s : Trimming) : List Byte := s.inBuf.take s.len

/-- The invariant of both loops. -/
structure Trims (call : TrimCall) (q : List Byte) (s : Trimming) : Prop where
  room : s.len ≤ s.inBuf.length
  small : s.len ≤ q.length
  kept : s.bytes.Sublist q
  first : s.bytes.take trimMinBytes = q.take trimMinBytes
  size : trimMinBytes ≤ s.len
  unchanged : s.needsWrite = false → s.bytes = q
  executed : s.needsWrite = true → ∃ r ∈ s.runs, r.Accepted call ∧ r.kept = s.bytes
  delivered : ∀ r ∈ s.runs, r.input = r.kept ↔ DeliversWhole call r
  behind : ∀ r ∈ s.runs, trimMinBytes ≤ r.removeLen ∧ r.removeLen ≤ r.removePos

section
variable {call : TrimCall} {q : List Byte} {s : Trimming} {input : List Byte}

/-- The chunk at the current position. -/
def chunkLen (s : Trimming) : Nat := min s.removeLen (s.len - s.removePos)

theorem kept_nextRun (inside : s.removePos + s.chunkLen ≤ s.len) :
    (s.nextRun input).kept =
      s.bytes.take s.removePos ++ s.bytes.drop (s.removePos + s.chunkLen) := by
  rw [bytes, List.take_take, Nat.min_eq_left (by omega), List.drop_take, ← Nat.sub_sub]
  rfl

/-- Moving the tail makes the entry what was meant for the target. -/
theorem take_moved (room : s.len ≤ s.inBuf.length) (inside : s.removePos + s.chunkLen ≤ s.len) :
    (memcpy s.inBuf s.removePos ((s.inBuf.drop (s.removePos + s.chunkLen)).take
      (s.len - s.removePos - s.chunkLen))).take (s.len - s.chunkLen) = (s.nextRun input).kept := by
  rw [memcpy]
  refine List.take_left' ?_
  rw [List.length_append, List.length_take, List.length_take, List.length_drop]
  omega

/-- Delivery ends, and the target gets what is meant for it if the writes suit. -/
theorem writeWithGap_iff (call : TrimCall) (room : s.len ≤ s.inBuf.length)
    (inside : s.removePos + s.chunkLen ≤ s.len) :
    ∃ input, writeWithGap call s.runs.length s.delivered s.inBuf s.len s.removePos s.chunkLen =
        some input ∧
      (input = (s.nextRun input).kept ↔ DeliversWhole call (s.nextRun input)) := by
  -- the two parts, as `ck_write` sees them
  let head := s.inBuf.take s.removePos
  let tail := (s.inBuf.drop (s.removePos + s.chunkLen)).take (s.len - s.removePos - s.chunkLen)
  have head_length : head.length = s.removePos := by
    rw [List.length_take]
    omega
  have tail_length : tail.length = s.len - s.removePos - s.chunkLen := by
    rw [List.length_take, List.length_drop]
    omega
  obtain ⟨wrote, head_whole⟩ :=
    @ckWrite_iff (call.headWrites s.runs.length) head head List.take_length
  obtain ⟨wrote', tail_whole⟩ :=
    @ckWrite_iff (call.tailWrites s.runs.length) tail tail List.take_length
  let head' := head.take (bytesTaken (call.headWrites s.runs.length) head.length)
  let tail' := tail.take (bytesTaken (call.tailWrites s.runs.length) tail.length)
  have head_short : head'.length ≤ head.length := List.length_take_le' _ _
  have tail_short : tail'.length ≤ tail.length := List.length_take_le' _ _
  have parts : writeParts call s.runs.length s.inBuf s.len s.removePos s.chunkLen =
      some (head' ++ tail') := by
    rw [head_length, ckWrite_take] at wrote
    rw [tail_length, ckWrite_take] at wrote'
    simp only [writeParts, wrote, wrote', head', tail', head_length, tail_length]
  cases way : call.delivery with
  | sharedMemory =>
    refine ⟨head ++ tail, by rw [writeWithGap, way], ?_⟩
    simp only [DeliversWhole, way, iff_true]
    rfl
  | outFile =>
    refine ⟨head' ++ tail', by rw [writeWithGap, way]; exact parts, ?_⟩
    simp only [DeliversWhole, way]
    refine Iff.trans ?_ (and_congr head_whole tail_whole)
    -- neither part is longer than it should be, so both have their length
    constructor
    · intro equal
      have size := congrArg List.length equal
      rw [List.length_append] at size
      have whole : (head ++ tail).length = head.length + tail.length := List.length_append
      have bounds : head'.length + tail'.length = head.length + tail.length := size.trans whole
      exact List.append_inj equal (show head'.length = head.length by omega)
    · rintro ⟨first, second⟩
      exact congrArg₂ (· ++ ·) first second
  | stdin =>
    refine ⟨ftruncate (memcpy s.delivered 0 (head' ++ tail')) (s.len - s.chunkLen), ?_, ?_⟩
    · rw [writeWithGap, way, parts]
      rfl
    have size : (head ++ tail).length = s.len - s.chunkLen := by
      rw [List.length_append]
      omega
    have short : (head' ++ tail').length ≤ (head ++ tail).length := by
      rw [List.length_append, List.length_append]
      omega
    simp only [DeliversWhole, way]
    rw [← size]
    exact @overwritten_iff _ s.delivered _ short

/-- A deletion that the target does not notice. -/
theorem Trims.delete (trims : Trims call q s) (lower : trimMinBytes ≤ s.removeLen)
    (chunk : s.removeLen ≤ s.removePos) (inside : s.removePos + s.chunkLen ≤ s.len)
    (delivered : input = (s.nextRun input).kept ↔ DeliversWhole call (s.nextRun input))
    (noticed : call.cksum input = call.execCksum) (lenP2 : Nat) (fault : FsrvRun) :
    Trims call q { s with
      fault
      delivered := input
      runs := s.nextRun input :: s.runs
      len := s.len - s.chunkLen
      lenP2
      inBuf := memcpy s.inBuf s.removePos ((s.inBuf.drop (s.removePos + s.chunkLen)).take
        (s.len - s.removePos - s.chunkLen))
      needsWrite := true } := by
  have room := trims.room
  have moved := @take_moved s input room inside
  have split := @kept_nextRun s input inside
  have length : s.bytes.length = s.len := by
    rw [bytes, List.length_take, Nat.min_eq_left room]
  refine ⟨?_, ?_, ?_, ?_, ?_, nofun, fun _ => ?_, ?_, ?_⟩
  · show s.len - s.chunkLen ≤ (memcpy s.inBuf s.removePos _).length
    rw [length_memcpy (by omega)]
    omega
  · exact Nat.le_trans (Nat.sub_le _ _) trims.small
  · show ((memcpy _ _ _).take _).Sublist q
    rw [moved, split]
    refine List.Sublist.trans ?_ trims.kept
    calc
      (s.bytes.take s.removePos ++ s.bytes.drop (s.removePos + s.chunkLen)).Sublist
          (s.bytes.take s.removePos ++ s.bytes.drop s.removePos) := by
        rw [← List.drop_drop]
        exact (List.drop_sublist _ _).append_left _
      _ = s.bytes := List.take_append_drop _ _
  · show ((memcpy _ _ _).take _).take _ = _
    rw [moved, split, List.take_append_of_le_length (by rw [List.length_take]; omega),
      List.take_take, Nat.min_eq_left (Nat.le_trans lower chunk)]
    exact trims.first
  · show trimMinBytes ≤ s.len - s.chunkLen
    omega
  -- this run is the one that the entry now comes from
  · exact ⟨_, List.mem_cons_self, noticed, moved.symm⟩
  · exact List.forall_mem_cons.mpr ⟨delivered, trims.delivered⟩
  · exact List.forall_mem_cons.mpr ⟨⟨lower, chunk⟩, trims.behind⟩

/-- An execution alone. -/
theorem Trims.execute (trims : Trims call q s) (fault : FsrvRun)
    (behind : trimMinBytes ≤ s.removeLen ∧ s.removeLen ≤ s.removePos)
    (delivered : input = (s.nextRun input).kept ↔ DeliversWhole call (s.nextRun input))
    (removePos : Nat) :
    Trims call q
      { s with fault, removePos, delivered := input, runs := s.nextRun input :: s.runs } := by
  refine ⟨trims.room, trims.small, trims.kept, trims.first, trims.size,
    trims.unchanged, fun written => ?_, List.forall_mem_cons.mpr ⟨delivered, trims.delivered⟩,
    List.forall_mem_cons.mpr ⟨behind, trims.behind⟩⟩
  obtain ⟨r, member, executed⟩ := trims.executed written
  exact ⟨r, List.mem_cons_of_mem _ member, executed⟩

/-- A round of the inner loop never touches the first chunk. -/
theorem Trims.removeChunk (fits : q.length ≤ maxFile) (trims : Trims call q s)
    (lower : trimMinBytes ≤ s.removeLen) (bounded : s.removeLen < 2 ^ 31)
    (chunk : s.removeLen ≤ s.removePos) (runs : s.removePos < s.len) :
    ∃ ending, s.removeChunk call = some ending ∧ ending.Ends
      (fun s' => (Trims call q s' ∧ s'.removeLen = s.removeLen ∧ s'.removeLen ≤ s'.removePos) ∧
        s'.len - s'.removePos < s.len - s.removePos)
      (fun _ => False) (fun _ => True) := by
  have small := trims.small
  have positive : 0 < s.removeLen := Nat.lt_of_lt_of_le (by decide) lower
  have size : s.chunkLen = min s.removeLen (s.len - s.removePos) := rfl
  unfold maxFile at fits
  obtain ⟨input, wrote, delivered⟩ := writeWithGap_iff call trims.room
    (by rw [size]; omega : s.removePos + s.chunkLen ≤ s.len)
  rw [Trimming.removeChunk, ← size, wrote]
  dsimp only
  split
  · exact ⟨_, rfl, trivial⟩
  · split
    next noticed =>
      refine ⟨_, rfl, ⟨trims.delete lower chunk (by omega) delivered noticed _ _, rfl, chunk⟩, ?_⟩
      dsimp only
      omega
    next =>
      have next : u32 (s.removePos + s.removeLen) = s.removePos + s.removeLen := u32_eq (by omega)
      refine ⟨_, rfl, ⟨trims.execute _ ⟨lower, chunk⟩ delivered _, rfl, ?_⟩, ?_⟩
      · dsimp only
        omega
      · dsimp only
        omega

/-- The inner loop ends. -/
theorem Trims.removeChunks (fits : q.length ≤ maxFile) (trims : Trims call q s)
    (lower : trimMinBytes ≤ s.removeLen) (bounded : s.removeLen < 2 ^ 31) :
    ∃ ending, s.removeChunks call q.length = some ending ∧ ending.Ends
      (fun s' => (Trims call q s' ∧ s'.removeLen < 2 ^ 31) ∧ s'.removeLen < s.removeLen)
      (fun _ => False) (fun _ => True) := by
  have loop : Finishes (fun s' => Trims call q s' ∧ s'.removeLen = s.removeLen) (fun _ => True)
      (roundLoop (fun s => s.removePos < s.len) (Trimming.removeChunk call)
        (q.length + 1) { s with removePos := s.removeLen }) := by
    refine roundLoop_finishes
      (fun s' => Trims call q s' ∧ s'.removeLen = s.removeLen ∧ s'.removeLen ≤ s'.removePos)
      (fun s => s.len - s.removePos) (fun _ inv _ => ⟨inv.1, inv.2.1⟩) ?_ _ _ ?_ ?_
    · intro s' ⟨trims', same, chunk⟩ runs
      obtain ⟨ending, ran, ends⟩ :=
        trims'.removeChunk fits (same ▸ lower) (same ▸ bounded) chunk (by simpa using runs)
      refine ⟨ending, ran, ?_⟩
      revert ends
      cases ending with
      | next s'' => exact fun ends => ⟨⟨ends.1.1, ends.1.2.1.trans same, ends.1.2.2⟩, ends.2⟩
      | leave s'' => exact False.elim
      | stop r => exact fun _ => trivial
    · exact ⟨⟨trims.room, trims.small, trims.kept, trims.first, trims.size, trims.unchanged,
        trims.executed, trims.delivered, trims.behind⟩, rfl, Nat.le_refl _⟩
    · have small := trims.small
      dsimp only
      omega
  obtain ⟨result, ran, ends⟩ := loop
  rw [Trimming.removeChunks, ran]
  cases result with
  | error s' => exact ⟨_, rfl, trivial⟩
  | ok s' =>
    obtain ⟨trims', same⟩ := ends
    unfold trimMinBytes at lower
    refine ⟨_, rfl, ⟨⟨trims'.room, trims'.small, trims'.kept, trims'.first, trims'.size,
      trims'.unchanged, trims'.executed, trims'.delivered, trims'.behind⟩, ?_⟩, ?_⟩
    · show s'.removeLen / 2 < 2 ^ 31
      omega
    · show s'.removeLen / 2 < s.removeLen
      omega

/-- Both ways to replace the file end. -/
theorem writeBack_iff (call : TrimCall) (room : s.len ≤ s.inBuf.length) :
    ∃ file, s.writeBack call = some file ∧
      (file = s.bytes ↔ WritesWhole call.noUnlink call.writes s.bytes) := by
  have size : s.bytes.length = s.len := by rw [bytes, List.length_take, Nat.min_eq_left room]
  have same : s.inBuf.take s.bytes.length = s.bytes := by rw [size, bytes]
  rw [writeBack, ← size]
  cases call.noUnlink with
  | true => exact writeNoUnlink_iff same
  | false => exact ⟨_, ckWrite_iff same⟩

end

/-- What a finished call leaves: the entry is the original without some chunks, none of them the
first of its size; every deletion that was accepted was executed as it is, and unless the entry is
the original it was; it meets the checksum, and the file holds it. -/
structure Trimmed (call : TrimCall) (q : List Byte) (s : Trimming) (file : List Byte) : Prop where
  room : s.len ≤ s.inBuf.length
  chunks : DeletesChunks trimMinBytes q s.bytes
  behind : ∀ r ∈ s.runs, trimMinBytes ≤ r.removeLen ∧ r.removeLen ≤ r.removePos
  accepted : ∀ r ∈ s.runs, r.Accepted call → r.input = r.kept
  executed : s.bytes = q ∨ ∃ r ∈ s.runs, r.Accepted call ∧ r.input = s.bytes
  cksum : call.cksum s.bytes = call.execCksum
  file : file = s.bytes

/-- The outer loop ends. -/
theorem trims_finishes {call : TrimCall} (delivered : List Byte) (q : Testcase) (long : 5 ≤ q.len)
    (lenP2 removeLen : Nat) (bounded : removeLen < 2 ^ 31) :
    Finishes (Trims call q.bytes) (fun _ => True)
      (roundLoop (fun s => max (s.lenP2 / trimEndSteps) trimMinBytes ≤ s.removeLen)
        (removeChunks call q.bytes.length) (removeLen + 1)
        ⟨q.bytes, q.bytes.length, lenP2, removeLen, 0, false, .ok, delivered, []⟩) := by
  refine roundLoop_finishes (fun s => Trims call q.bytes s ∧ s.removeLen < 2 ^ 31)
    (fun s => s.removeLen) (fun _ inv _ => inv.1) ?_ _ _ ?_ (Nat.lt_succ_self _)
  · intro s ⟨trims, bounded⟩ runs
    have lower := Nat.le_trans (Nat.le_max_right _ _) (of_decide_eq_true runs)
    obtain ⟨ending, ran, ends⟩ := trims.removeChunks q.fits lower bounded
    refine ⟨ending, ran, ?_⟩
    cases ending with
    | next s' => exact ends
    | leave s' => exact ends.elim
    | stop r => trivial
  · have whole : (⟨q.bytes, q.bytes.length, lenP2, removeLen, 0, false, .ok, delivered, []⟩ :
        Trimming).bytes = q.bytes := List.take_of_length_le (Nat.le_refl _)
    refine ⟨⟨Nat.le_refl _, Nat.le_refl _, ?_, ?_, ?_, fun _ => whole, nofun, by simp, by simp⟩,
      bounded⟩
    · rw [whole]
    · rw [whole]
    · exact Nat.le_trans (by decide) long

theorem Trims.deletesChunks {call : TrimCall} {q : List Byte} {s : Trimming}
    (trims : Trims call q s) : DeletesChunks trimMinBytes q s.bytes := by
  refine deletesChunks_of_sublist ?_ trims.first trims.kept
  rw [bytes, List.length_take, Nat.min_eq_left trims.room]
  exact trims.size

/-- Where accepted deletions were delivered whole, the loops leave what was executed. -/
theorem Trims.trimmed {call : TrimCall} {q file : List Byte} {s : Trimming}
    (trims : Trims call q s) (baseline : call.cksum q = call.execCksum)
    (whole : ∀ r ∈ s.runs, r.Accepted call → DeliversWhole call r) (equal : file = s.bytes) :
    Trimmed call q s file := by
  have accepted (r : TrimRun) (member : r ∈ s.runs) (taken : r.Accepted call) : r.input = r.kept :=
    (trims.delivered r member).mpr (whole r member taken)
  cases written : s.needsWrite with
  | false =>
    have same := trims.unchanged written
    exact ⟨trims.room, trims.deletesChunks, trims.behind, accepted, .inl same, same ▸ baseline,
      equal⟩
  | true =>
    obtain ⟨r, member, taken, kept⟩ := trims.executed written
    have input : r.input = s.bytes := (accepted r member taken).trans kept
    exact ⟨trims.room, trims.deletesChunks, trims.behind, accepted, .inr ⟨r, member, taken, input⟩,
      input ▸ taken, equal⟩

/-- Trimming ends; a call that is not aborted leaves what it should if and only if the target got
each deletion that was accepted as it is and, where something was deleted, the calls of `write`
suit the loop that makes them. -/
theorem trim_case_sound_iff (call : TrimCall) (delivered : List Byte) (q : Testcase)
    (long : 5 ≤ q.len) (baseline : call.cksum q.bytes = call.execCksum) :
    ∃ result, trimCase call delivered q.bytes = some result ∧
      ∀ s file, result = .ok (s, file) →
        (Trimmed call q.bytes s file ↔
          (∀ r ∈ s.runs, r.Accepted call → DeliversWhole call r) ∧
            (s.needsWrite = true → WritesWhole call.noUnlink call.writes s.bytes)) := by
  have small : max (u32 (nextPow2 q.bytes.length) / trimStartSteps) trimMinBytes < 2 ^ 31 := by
    have wrapped : u32 (nextPow2 q.bytes.length) < 2 ^ 32 := Nat.mod_lt _ (by decide)
    unfold trimStartSteps trimMinBytes
    omega
  obtain ⟨result, ran, ends⟩ :=
    @trims_finishes call delivered q long (u32 (nextPow2 q.bytes.length)) _ small
  unfold Testcase.len at long
  rw [trimCase, if_neg (by omega), ran]
  cases result with
  | error s => exact ⟨_, rfl, fun _ _ equal => by simp at equal⟩
  | ok s =>
    have trims : Trims call q.bytes s := ends
    have whole {file : List Byte} (trimmed : Trimmed call q.bytes s file) (r : TrimRun)
        (member : r ∈ s.runs) (taken : r.Accepted call) : DeliversWhole call r :=
      (trims.delivered r member).mp (trimmed.accepted r member taken)
    dsimp only
    split
    next written =>
      obtain ⟨file, wrote, same⟩ := writeBack_iff call trims.room
      refine ⟨.ok (s, file), by rw [wrote]; rfl, ?_⟩
      rintro _ _ ⟨⟩
      rw [forall_prop_of_true written, ← same]
      exact ⟨fun trimmed => ⟨whole trimmed, trimmed.file⟩,
        fun suits => trims.trimmed baseline suits.1 suits.2⟩
    next untouched =>
      have same := trims.unchanged (by simpa using untouched)
      refine ⟨.ok (s, q.bytes), rfl, ?_⟩
      rintro _ _ ⟨⟩
      exact ⟨fun trimmed => ⟨whole trimmed, fun written => absurd written untouched⟩,
        fun suits => trims.trimmed baseline suits.1 same.symm⟩

/-- Ten different bytes. -/
def tenBytes : Testcase := ⟨[0, 1, 2, 3, 4, 5, 6, 7, 8, 9], by decide⟩

/-- A kernel whose first `write` of a file takes one byte, the second two. -/
def stepwise : Writes where
  accepts := fun n count => min count (n + 1)
  positive := fun n count some => by omega
  atMost := fun n count => Nat.min_le_left _ _

/-- A kernel that takes all bytes at once. -/
def atOnce : Writes where
  accepts := fun _ count => count
  positive := fun _ _ some => some
  atMost := fun _ _ => Nat.le_refl _

/-- A target that does not look at its input, which it gets in shared memory. -/
def shortWrites (noUnlink : Bool) : TrimCall where
  noUnlink
  delivery := .sharedMemory
  cksum := fun _ => 0
  execCksum := 0
  stopSoon := fun _ => false
  faults := fun _ => .ok
  headWrites := fun _ => stepwise
  tailWrites := fun _ => stepwise
  writes := stepwise

/-- A target that reads a file and looks for its first four bytes, unless all ten are there; the
file takes them in steps. -/
def shortDelivery : TrimCall where
  noUnlink := false
  delivery := .outFile
  cksum := fun input => if input.take 4 = [0, 1, 2, 3] ∧ input.length < 10 then 1 else 0
  execCksum := 0
  stopSoon := fun _ => false
  faults := fun _ => .ok
  headWrites := fun _ => stepwise
  tailWrites := fun _ => stepwise
  writes := atOnce

/-- The first chunk is deleted although the target got `0 1 2 8 9` without it. -/
theorem trim_case_sound_tenBytes :
    ∃ result, trimCase shortDelivery [] tenBytes.bytes = some result ∧
      ∀ s file, result = .ok (s, file) → (Trimmed shortDelivery tenBytes.bytes s file ↔
        (∀ r ∈ s.runs, r.Accepted shortDelivery → DeliversWhole shortDelivery r) ∧
          (s.needsWrite = true →
            WritesWhole shortDelivery.noUnlink shortDelivery.writes s.bytes)) :=
  trim_case_sound_iff shortDelivery [] tenBytes (by decide) (by decide)

/-- Under either way to replace the file, its four bytes are not those that are left: `0 0 1 0`
where the buffer is passed from its start every time, `0 1 2` where `1 + 2` bytes look like the
three that were left. Where the input is delivered in such steps, the target never sees the four
bytes that are left, and they have another checksum. -/
theorem trim_case_not_sound :
    (¬ ∀ s file, trimCase (shortWrites true) [] tenBytes.bytes = some (.ok (s, file)) →
      Trimmed (shortWrites true) tenBytes.bytes s file) ∧
    (¬ ∀ s file, trimCase (shortWrites false) [] tenBytes.bytes = some (.ok (s, file)) →
      Trimmed (shortWrites false) tenBytes.bytes s file) ∧
    ¬ ∀ s file, trimCase shortDelivery [] tenBytes.bytes = some (.ok (s, file)) →
      shortDelivery.cksum s.bytes = shortDelivery.execCksum := by
  have refuted {call : TrimCall} {holds : Trimming → List Byte → Bool}
      (fails : ((trimCase call [] tenBytes.bytes).all fun ended =>
        ended.toOption.all fun trimmed => holds trimmed.1 trimmed.2) = false) :
      ¬ ∀ s file, trimCase call [] tenBytes.bytes = some (.ok (s, file)) →
        holds s file = true := by
    intro all
    cases ran : trimCase call [] tenBytes.bytes with
    | none =>
      rw [ran] at fails
      contradiction
    | some ended =>
      rw [ran] at fails
      cases ended with
      | error fault => contradiction
      | ok trimmed =>
        exact absurd ((all trimmed.1 trimmed.2 ran).symm.trans fails) (by decide)
  have wrong (noUnlink : Bool) : ¬ ∀ s file,
      trimCase (shortWrites noUnlink) [] tenBytes.bytes = some (.ok (s, file)) →
        Trimmed (shortWrites noUnlink) tenBytes.bytes s file := by
    intro all
    refine @refuted (shortWrites noUnlink) (fun s file => decide (file = s.bytes)) ?_ ?_
    · cases noUnlink <;> decide +kernel
    · exact fun s file ended => decide_eq_true (all s file ended).file
  refine ⟨wrong true, wrong false, fun all => ?_⟩
  refine @refuted shortDelivery
    (fun s _ => decide (shortDelivery.cksum s.bytes = shortDelivery.execCksum)) ?_ ?_
  · decide +kernel
  · exact fun s file ended => decide_eq_true (all s file ended)

end Trimming

end Swam.Afl
