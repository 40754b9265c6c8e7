import Swam.Afl.Skipdet

/-!
# Test cases as buffers

The stages of `fuzz_one_original` work on a copy of the current queue entry. Readers of seeds
cut or reject what is longer than `MAX_FILE`, and so do the stages that lengthen a buffer;
positions and lengths are `u32`.
-/
namespace Swam.Afl

/-- `MAX_FILE` with `AFL_SWAM`. -/
def maxFile : Nat := 8 * 1024 * 1024

/-- The contents of a queue entry. -/
structure Testcase where
  bytes : List Byte
  fits : bytes.length ≤ maxFile

def Testcase.len (input : Testcase) : Nat := input.bytes.length

/-- A value stored in 32 bits. -/
def u32 (n : Nat) : Nat := n % 2 ^ 32

theorem u32_eq {n : Nat} (small : n < 2 ^ 32) : u32 n = n :=
  Nat.mod_eq_of_lt small

/-! ## Writes -/

def memcpy (buf : List Byte) (pos : Nat) (data : List Byte) : List Byte :=
  buf.take pos ++ data ++ buf.drop (pos + data.length)

def memset (buf : List Byte) (pos : Nat) (b : Byte) (n : Nat) : List Byte :=
  buf.take pos ++ List.replicate n b ++ buf.drop (pos + n)

def flipRange (input : List Byte) (pos size : Nat) : List Byte :=
  (List.range size).foldl (fun buf i => buf.modify (pos + i) (· ^^^ 0xFF)) input

section
variable {buf : List Byte} {pos : Nat}

theorem getElem?_memcpy (inside : pos ≤ buf.length) (data : List Byte) (i : Nat) :
    (memcpy buf pos data)[i]? =
      if pos ≤ i ∧ i < pos + data.length then data[i - pos]? else buf[i]? := by
  rw [memcpy, List.append_assoc, List.getElem?_append]
  simp only [List.length_take, Nat.min_eq_left inside]
  by_cases before : i < pos
  · rw [if_pos before, if_neg (by omega), List.getElem?_take_of_lt before]
  · rw [if_neg before, List.getElem?_append]
    by_cases within : i - pos < data.length
    · rw [if_pos within, if_pos (by omega)]
    · rw [if_neg within, if_neg (by omega), List.getElem?_drop]
      congr 1
      omega

theorem length_memcpy (inside : pos ≤ buf.length) (data : List Byte) :
    (memcpy buf pos data).length = max buf.length (pos + data.length) := by
  simp only [memcpy, List.length_append, List.length_take, List.length_drop]
  omega

@[simp] theorem memcpy_nil (buf : List Byte) (pos : Nat) : memcpy buf pos [] = buf := by
  simp [memcpy]

/-- A write that covers an earlier one hides it. -/
theorem memcpy_memcpy (inside : pos ≤ buf.length) {first second : List Byte}
    (covers : first.length ≤ second.length) :
    memcpy (memcpy buf pos first) pos second = memcpy buf pos second := by
  apply List.ext_getElem?
  intro i
  have inside' : pos ≤ (memcpy buf pos first).length := by
    rw [length_memcpy inside]
    omega
  rw [getElem?_memcpy inside', getElem?_memcpy inside, getElem?_memcpy inside]
  split
  · rfl
  · rw [if_neg (by omega)]

theorem memcpy_append (inside : pos ≤ buf.length) (first second : List Byte) :
    memcpy (memcpy buf pos first) (pos + first.length) second =
      memcpy buf pos (first ++ second) := by
  have size : (buf.take pos ++ first).length = pos + first.length := by
    rw [List.length_append, List.length_take, Nat.min_eq_left inside]
  rw [memcpy, memcpy, memcpy, List.take_left' size, ← size, ← List.drop_drop,
    List.drop_left, List.drop_drop, size, List.length_append, Nat.add_assoc,
    List.append_assoc (buf.take pos)]

/-- Writing back what was there. -/
theorem memcpy_restore {input written : List Byte} (fits : pos + written.length ≤ input.length) :
    memcpy (memcpy input pos written) pos ((input.drop pos).take written.length) = input := by
  have size : ((input.drop pos).take written.length).length = written.length := by
    rw [List.length_take, List.length_drop]
    omega
  rw [memcpy_memcpy (by omega) (Nat.le_of_eq size.symm), memcpy, size, List.append_assoc,
    ← List.drop_drop, List.take_append_drop, List.take_append_drop]

end

theorem length_memset {buf : List Byte} {pos n : Nat} (inside : pos + n ≤ buf.length) (b : Byte) :
    (memset buf pos b n).length = buf.length := by
  simp only [memset, List.length_append, List.length_take, List.length_replicate,
    List.length_drop]
  omega

theorem getElem?_memset {buf : List Byte} {pos n : Nat} (inside : pos + n ≤ buf.length) (b : Byte)
    (i : Nat) :
    (memset buf pos b n)[i]? = if pos ≤ i ∧ i < pos + n then some b else buf[i]? := by
  rw [memset, List.append_assoc, List.getElem?_append]
  simp only [List.length_take, Nat.min_eq_left (Nat.le_trans (Nat.le_add_right pos n) inside)]
  by_cases before : i < pos
  · rw [if_pos before, if_neg (by omega), List.getElem?_take_of_lt before]
  · rw [if_neg before, List.getElem?_append]
    simp only [List.length_replicate]
    by_cases within : i - pos < n
    · rw [if_pos within, if_pos (by omega), List.getElem?_replicate, if_pos within]
    · rw [if_neg within, if_neg (by omega), List.getElem?_drop]
      congr 1
      omega

theorem flipRange_succ (input : List Byte) (pos size : Nat) :
    flipRange input pos (size + 1) = (flipRange input pos size).modify (pos + size) (· ^^^ 0xFF) := by
  simp only [flipRange, List.range_succ, List.foldl_append, List.foldl_cons, List.foldl_nil]

theorem getElem?_flipRange (input : List Byte) (pos size i : Nat) :
    (flipRange input pos size)[i]? =
      if pos ≤ i ∧ i < pos + size then input[i]?.map (· ^^^ 0xFF) else input[i]? := by
  induction size with
  | zero =>
    rw [if_neg (by omega)]
    rfl
  | succ size ih =>
    rw [flipRange_succ, List.getElem?_modify, ih]
    by_cases last : pos + size = i
    · rw [if_neg (by omega), if_pos (by omega)]
      simp only [if_pos last, Option.map_eq_map]
    · simp only [if_neg last, Option.map_eq_map, Option.map_id']
      by_cases within : pos ≤ i ∧ i < pos + size
      · rw [if_pos within, if_pos (by omega)]
      · rw [if_neg within, if_neg (by omega)]

@[simp] theorem length_flipRange (input : List Byte) (pos size : Nat) :
    (flipRange input pos size).length = input.length := by
  induction size with
  | zero => rfl
  | succ size ih => rw [flipRange_succ, List.length_modify, ih]

/-- The second flip undoes the first. -/
@[simp] theorem flipRange_flipRange (input : List Byte) (pos size : Nat) :
    flipRange (flipRange input pos size) pos size = input := by
  apply List.ext_getElem?
  intro i
  simp only [getElem?_flipRange]
  split
  · cases input[i]? with
    | none => rfl
    | some b => simp only [Option.map_some, BitVec.xor_assoc, BitVec.xor_self, BitVec.xor_zero]
  · rfl

end Swam.Afl
