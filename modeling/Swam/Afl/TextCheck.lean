import Swam.Afl.Testcases
import Swam.Lib.Utf8

/-!
# Text detection

`check_if_text_buf` and `check_if_text` scan a buffer from left to right for UTF-8 characters and
count the ASCII bytes that they come by. The first returns the larger count, the second decides
from the percentages whether a queue entry is text.
-/
namespace Swam.Afl.TextCheck

open Lib

/-! ## The scan -/

/-- Where the scan is and what it has counted; `comp` only `check_if_text` keeps, the length of
the buffer less the bytes that belong to a character begun before. -/
structure Scan where
  offset : Nat
  ascii : Nat
  utf8 : Nat
  comp : Int
  deriving DecidableEq

def isTextByte (b : Byte) : Bool :=
  b = 0x09 || b = 0x0a || b = 0x0d || (0x20 ≤ b && b ≤ 0x7e)

def isTailByte (b : Byte) : Bool := 0x80 ≤ b && b ≤ 0xbf

/-- Non-overlong 2-byte. -/
def isTwoByte (b0 b1 : Byte) : Bool := (0xc2 ≤ b0 && b0 ≤ 0xdf) && isTailByte b1

/-- Excluding overlongs, straight 3-byte, excluding surrogates. -/
def isThreeByte (b0 b1 b2 : Byte) : Bool :=
  (b0 = 0xe0 && (0xa0 ≤ b1 && b1 ≤ 0xbf) && isTailByte b2) ||
  (((0xe1 ≤ b0 && b0 ≤ 0xec) || b0 = 0xee || b0 = 0xef) && isTailByte b1 && isTailByte b2) ||
  (b0 = 0xed && (0x80 ≤ b1 && b1 ≤ 0x9f) && isTailByte b2)

/-- Planes 1-3, planes 4-15, plane 16. -/
def isFourByte (b0 b1 b2 b3 : Byte) : Bool :=
  (b0 = 0xf0 && (0x90 ≤ b1 && b1 ≤ 0xbf) && isTailByte b2 && isTailByte b3) ||
  ((0xf1 ≤ b0 && b0 ≤ 0xf3) && isTailByte b1 && isTailByte b2 && isTailByte b3) ||
  (b0 = 0xf4 && (0x80 ≤ b1 && b1 ≤ 0x8f) && isTailByte b2 && isTailByte b3)

/-- Each of these reads as many bytes as it asks for; a read at or beyond the end is `none`. -/
def twoByteAt (buf : List Byte) (offset : Nat) : Option Bool :=
  if buf.length - offset > 1 then do
    return isTwoByte (← buf[offset]?) (← buf[offset + 1]?)
  else some false

def threeByteAt (buf : List Byte) (offset : Nat) : Option Bool :=
  if buf.length - offset > 2 then do
    return isThreeByte (← buf[offset]?) (← buf[offset + 1]?) (← buf[offset + 2]?)
  else some false

def fourByteAt (buf : List Byte) (offset : Nat) : Option Bool :=
  if buf.length - offset > 3 then do
    return isFourByte (← buf[offset]?) (← buf[offset + 1]?) (← buf[offset + 2]?)
      (← buf[offset + 3]?)
  else some false

/-- A character of `length` bytes at the offset. -/
def Scan.character (s : Scan) (length : Nat) : Scan :=
  { s with offset := s.offset + length, utf8 := s.utf8 + 1, comp := s.comp - (length - 1 : Nat) }

def scanRound (buf : List Byte) (s : Scan) : Option Scan := do
  let b ← buf[s.offset]?
  if isTextByte b then return { s.character 1 with ascii := s.ascii + 1 }
  else
    -- no byte from 128 on is printable
    let counted := if b < 0x80 then { s with ascii := s.ascii + 1 } else s
    if ← twoByteAt buf s.offset then return counted.character 2
    else if ← threeByteAt buf s.offset then return counted.character 3
    else if ← fourByteAt buf s.offset then return counted.character 4
    else return { counted with offset := s.offset + 1 }

def scanLoop (buf : List Byte) : Nat → Scan → Option Scan
  | 0, s => if s.offset < buf.length then none else some s
  | fuel + 1, s => if s.offset < buf.length then (scanRound buf s).bind (scanLoop buf fuel) else some s

/-- The result is a `u8`. -/
def checkIfTextBuf (buf : List Byte) : Option (BitVec 8) := do
  let s ← scanLoop buf buf.length ⟨0, 0, 0, 0⟩
  return BitVec.ofNat 8 (if s.utf8 > s.ascii then s.utf8 else s.ascii)

/-! ## Queue entries -/

def aflTxtMinLen : Nat := 12

def aflTxtMaxLen : Nat := 65535

def aflTxtMinPercent : Nat := 99

/-- A queue entry of this length, with the contents of its file if it can be opened. -/
def checkIfText (qLen : Nat) (file : Option (List Byte)) : Option Nat :=
  if qLen < aflTxtMinLen ∨ qLen < aflTxtMaxLen then some 0
  else
    let len := if qLen ≥ maxFile then maxFile - 1 else qLen
    match file with
    | none => some 0
    | some contents =>
      let buf := contents.take len
      if buf.length ≠ len then some 0
      else do
        let s ← scanLoop buf len ⟨0, 0, 0, len⟩
        let percentUtf8 := ((s.utf8 * 100 % 2 ^ 32 : Nat) : Int).tdiv s.comp
        let percentAscii : Nat := s.ascii * 100 % 2 ^ 32 / len
        if percentUtf8 ≥ percentAscii ∧ percentUtf8 ≥ aflTxtMinPercent then return 2
        else if percentAscii ≥ aflTxtMinPercent then return 1
        else return 0

/-! ## What is counted -/

/-- A scalar value that counts as text: of the control characters only tab, line feed and carriage
return. -/
def IsTextScalar (v : Nat) : Prop :=
  IsScalar v ∧ (v < 0x80 → v = 0x09 ∨ v = 0x0a ∨ v = 0x0d ∨ (0x20 ≤ v ∧ v ≤ 0x7e))

/-- The scan from left to right: how many characters it finds and how many steps it takes, one for
each character and one for each byte that begins none. -/
inductive Scans : List Byte → Nat → Nat → Prop
  | done : Scans [] 0 0
  | character {buf rest : List Byte} {v chars steps : Nat} (text : IsTextScalar v)
    (here : buf = scalarBytes v ++ rest) (later : Scans rest chars steps) :
    Scans buf (chars + 1) (steps + 1)
  | stray {b : Byte} {rest : List Byte} {chars steps : Nat}
    (none_here : ∀ v, IsTextScalar v → ¬ scalarBytes v <+: b :: rest)
    (later : Scans rest chars steps) : Scans (b :: rest) chars (steps + 1)

def asciiCount (buf : List Byte) : Nat := buf.countP fun b => b < 0x80

/-- 2 for UTF-8, 1 for ASCII, 0 for neither. -/
def textClass (percentUtf8 percentAscii : Nat) : Nat :=
  if percentUtf8 ≥ percentAscii ∧ percentUtf8 ≥ aflTxtMinPercent then 2
  else if percentAscii ≥ aflTxtMinPercent then 1
  else 0

/-! ## The character at an offset -/

def startsTwo (b0 : Byte) : List Byte → Bool
  | b1 :: _ => isTwoByte b0 b1
  | [] => false

def startsThree (b0 : Byte) : List Byte → Bool
  | b1 :: b2 :: _ => isThreeByte b0 b1 b2
  | _ => false

def startsFour (b0 : Byte) : List Byte → Bool
  | b1 :: b2 :: b3 :: _ => isFourByte b0 b1 b2 b3
  | _ => false

/-- The length of the character that begins with this byte, or 0. -/
def charLength (b0 : Byte) (rest : List Byte) : Nat :=
  if isTextByte b0 then 1
  else if startsTwo b0 rest then 2
  else if startsThree b0 rest then 3
  else if startsFour b0 rest then 4
  else 0

/-- What a round does with the first byte and the length of the character. -/
def Scan.advance (s : Scan) (b : Byte) (length : Nat) : Scan :=
  let counted := if b < 0x80 then { s with ascii := s.ascii + 1 } else s
  if length = 0 then { counted with offset := s.offset + 1 } else counted.character length

private theorem text_ascii (b : Byte) : isTextByte b = true → b < 0x80 := by
  revert b
  decide

section
variable {buf rest : List Byte} {offset : Nat} {b : Byte}

private theorem at_offset (here : buf.drop offset = b :: rest) (j : Nat) :
    buf[offset + j]? = (b :: rest)[j]? := by
  rw [← here, List.getElem?_drop]

private theorem left_at (here : buf.drop offset = b :: rest) :
    buf.length - offset = rest.length + 1 := by
  have := congrArg List.length here
  simpa using this

theorem twoByteAt_eq (here : buf.drop offset = b :: rest) :
    twoByteAt buf offset = some (startsTwo b rest) := by
  have first : buf[offset]? = some b := at_offset here 0
  rw [twoByteAt, left_at here, first, at_offset here 1]
  match rest with
  | [] => rfl
  | _ :: _ => rw [if_pos (by simp)]; rfl

theorem threeByteAt_eq (here : buf.drop offset = b :: rest) :
    threeByteAt buf offset = some (startsThree b rest) := by
  have first : buf[offset]? = some b := at_offset here 0
  rw [threeByteAt, left_at here, first, at_offset here 1, at_offset here 2]
  match rest with
  | [] | [_] => rfl
  | _ :: _ :: _ => rw [if_pos (by simp)]; rfl

theorem fourByteAt_eq (here : buf.drop offset = b :: rest) :
    fourByteAt buf offset = some (startsFour b rest) := by
  have first : buf[offset]? = some b := at_offset here 0
  rw [fourByteAt, left_at here, first, at_offset here 1, at_offset here 2, at_offset here 3]
  match rest with
  | [] | [_] | [_, _] => rfl
  | _ :: _ :: _ :: _ => rw [if_pos (by simp)]; rfl

end

/-- A round reads no further than the buffer goes. -/
theorem scanRound_eq {buf rest : List Byte} {s : Scan} {b : Byte}
    (here : buf.drop s.offset = b :: rest) :
    scanRound buf s = some (s.advance b (charLength b rest)) := by
  have first : buf[s.offset]? = some b := at_offset here 0
  rw [scanRound, first, twoByteAt_eq here, threeByteAt_eq here, fourByteAt_eq here, charLength,
    Scan.advance]
  by_cases text : isTextByte b
  · simp only [Option.bind_eq_bind, Option.bind_some, text, text_ascii b text]
    rfl
  · simp only [Option.bind_eq_bind, Option.bind_some, text]
    cases startsTwo b rest <;> cases startsThree b rest <;> cases startsFour b rest <;> rfl

/-! ## The scan and the grammar -/

section
variable {a b c d : Byte}

private theorem byte_eq_iff (x y : Byte) : x = y ↔ x.toNat = y.toNat := BitVec.toNat_inj.symm

theorem isTwoByte_iff : isTwoByte a b = true ↔ IsPair a b := by
  simp only [isTwoByte, isTailByte, IsPair, IsTail, Bool.and_eq_true, decide_eq_true_eq,
    BitVec.le_def, and_assoc]
  rfl

theorem isThreeByte_iff : isThreeByte a b c = true ↔ IsTriple a b c := by
  simp only [isThreeByte, isTailByte, IsTriple, IsTail, Bool.and_eq_true, Bool.or_eq_true,
    decide_eq_true_eq, BitVec.le_def, byte_eq_iff]
  simp
  omega

theorem isFourByte_iff : isFourByte a b c d = true ↔ IsQuadruple a b c d := by
  simp only [isFourByte, isTailByte, IsQuadruple, IsTail, Bool.and_eq_true, Bool.or_eq_true,
    decide_eq_true_eq, BitVec.le_def, byte_eq_iff]
  simp
  omega

theorem isTextByte_iff :
    isTextByte a = true ↔
      a.toNat = 0x09 ∨ a.toNat = 0x0a ∨ a.toNat = 0x0d ∨ (0x20 ≤ a.toNat ∧ a.toNat ≤ 0x7e) := by
  simp only [isTextByte, Bool.and_eq_true, Bool.or_eq_true, decide_eq_true_eq, BitVec.le_def,
    byte_eq_iff]
  simp
  omega

end

/-- The scan recognises the bytes of a scalar value, and their number. -/
theorem charLength_scalar {v : Nat} {b : Byte} {rest more : List Byte} (text : IsTextScalar v)
    (here : b :: rest = scalarBytes v ++ more) : charLength b rest = (scalarBytes v).length := by
  obtain ⟨scalar, control⟩ := text
  have not_text {a : Byte} (high : 0x80 ≤ a.toNat) : isTextByte a ≠ true := by
    rw [ne_eq, isTextByte_iff]
    omega
  rcases scalarBytes_cases scalar with ⟨ascii, a, bytes, rfl⟩ | ⟨_, a, b', bytes, pair⟩ |
      ⟨_, a, b', c, bytes, triple⟩ | ⟨_, a, b', c, d, bytes, quadruple⟩
  · rw [bytes] at here ⊢
    obtain ⟨rfl, rfl⟩ := List.cons.inj here
    rw [charLength, if_pos (isTextByte_iff.mpr (control ascii))]
    rfl
  · rw [bytes] at here ⊢
    have parts : b :: rest = a :: (b' :: more) := here
    obtain ⟨rfl, rfl⟩ := List.cons.inj parts
    obtain ⟨low, high, _⟩ := id pair
    have starts : startsTwo b (b' :: more) = true := isTwoByte_iff.mpr pair
    rw [charLength, if_neg (not_text (by omega)), if_pos starts]
    rfl
  · rw [bytes] at here ⊢
    have parts : b :: rest = a :: (b' :: c :: more) := here
    obtain ⟨rfl, rfl⟩ := List.cons.inj parts
    have first : 0xe0 ≤ b.toNat := by
      obtain ⟨_, first⟩ := triple
      omega
    have no_pair : ¬ startsTwo b (b' :: c :: more) = true := by
      rw [startsTwo, isTwoByte_iff]
      rintro ⟨_, high, _⟩
      omega
    have starts : startsThree b (b' :: c :: more) = true := isThreeByte_iff.mpr triple
    rw [charLength, if_neg (not_text (by omega)), if_neg no_pair, if_pos starts]
    rfl
  · rw [bytes] at here ⊢
    have parts : b :: rest = a :: (b' :: c :: d :: more) := here
    obtain ⟨rfl, rfl⟩ := List.cons.inj parts
    have first : 0xf0 ≤ b.toNat := by
      obtain ⟨_, _, first⟩ := quadruple
      omega
    have no_pair : ¬ startsTwo b (b' :: c :: d :: more) = true := by
      rw [startsTwo, isTwoByte_iff]
      rintro ⟨_, high, _⟩
      omega
    have no_triple : ¬ startsThree b (b' :: c :: d :: more) = true := by
      rw [startsThree, isThreeByte_iff]
      rintro ⟨_, high⟩
      omega
    have starts : startsFour b (b' :: c :: d :: more) = true := isFourByte_iff.mpr quadruple
    rw [charLength, if_neg (not_text (by omega)), if_neg no_pair, if_neg no_triple, if_pos starts]
    rfl

/-- What it recognises are the bytes of a scalar value. -/
theorem scalar_of_charLength {b : Byte} {rest : List Byte} (found : charLength b rest ≠ 0) :
    ∃ v more, IsTextScalar v ∧ b :: rest = scalarBytes v ++ more := by
  rw [charLength] at found
  split at found
  next text =>
    rw [isTextByte_iff] at text
    have ascii : b.toNat < 0x80 := by omega
    exact ⟨b.toNat, rest, ⟨.inl (by omega), fun _ => text⟩, by
      rw [(scalarBytes_one ascii).mpr rfl]
      rfl⟩
  split at found
  next two =>
    match rest with
    | b1 :: rest =>
      obtain ⟨v, low, high, bytes⟩ := isPair_iff.mp (isTwoByte_iff.mp two)
      exact ⟨v, rest, ⟨.inl (by omega), by omega⟩, by rw [bytes]; rfl⟩
  split at found
  next three =>
    match rest with
    | b1 :: b2 :: rest =>
      obtain ⟨v, low, high, scalar, bytes⟩ := isTriple_iff.mp (isThreeByte_iff.mp three)
      exact ⟨v, rest, ⟨scalar, by omega⟩, by rw [bytes]; rfl⟩
  split at found
  next four =>
    match rest with
    | b1 :: b2 :: b3 :: rest =>
      obtain ⟨v, low, high, bytes⟩ := isQuadruple_iff.mp (isFourByte_iff.mp four)
      exact ⟨v, rest, ⟨.inr (by omega), by omega⟩, by rw [bytes]; rfl⟩
  next => exact absurd rfl found

theorem length_scalarBytes_pos {v : Nat} (scalar : IsScalar v) : 0 < (scalarBytes v).length := by
  rcases scalarBytes_cases scalar with ⟨_, _, bytes, _⟩ | ⟨_, _, _, bytes, _⟩ |
      ⟨_, _, _, _, bytes, _⟩ | ⟨_, _, _, _, _, bytes, _⟩ <;> simp [bytes]

/-- Every buffer can be scanned. -/
theorem scans_total (buf : List Byte) : ∃ chars steps, Scans buf chars steps := by
  induction size : buf.length using Nat.strongRecOn generalizing buf with
  | ind n ih =>
    cases buf with
    | nil => exact ⟨0, 0, .done⟩
    | cons b rest =>
      by_cases found : ∃ v more, IsTextScalar v ∧ b :: rest = scalarBytes v ++ more
      · obtain ⟨v, more, text, here⟩ := found
        have := length_scalarBytes_pos text.1
        have total := congrArg List.length here
        rw [List.length_append] at total
        obtain ⟨chars, steps, scans⟩ := ih more.length (by omega) more rfl
        exact ⟨chars + 1, steps + 1, .character text here scans⟩
      · obtain ⟨chars, steps, scans⟩ := ih rest.length (by simp at size; omega) rest rfl
        refine ⟨chars, steps + 1, .stray ?_ scans⟩
        rintro v text ⟨more, here⟩
        exact found ⟨v, more, text, here.symm⟩

private theorem asciiCount_high {xs : List Byte} (high : ∀ x ∈ xs, 0x80 ≤ x.toNat) :
    asciiCount xs = 0 := by
  rw [asciiCount, List.countP_eq_zero]
  intro x member
  rw [decide_eq_true_eq, BitVec.lt_def]
  exact Nat.not_lt.mpr (high x member)

/-- Only a character of one byte is an ASCII byte. -/
theorem asciiCount_scalar {v : Nat} {b : Byte} {rest more : List Byte} (scalar : IsScalar v)
    (here : b :: rest = scalarBytes v ++ more) :
    asciiCount (b :: rest) = (if b < 0x80 then 1 else 0) + asciiCount more := by
  have several (a : Byte) (xs : List Byte) (bytes : scalarBytes v = a :: xs)
      (high : ∀ x ∈ a :: xs, 0x80 ≤ x.toNat) :
      asciiCount (scalarBytes v) = if b < 0x80 then 1 else 0 := by
    rw [bytes] at here ⊢
    obtain ⟨rfl, _⟩ := List.cons.inj here
    have no_ascii : ¬ b < 0x80 := by
      rw [BitVec.lt_def]
      exact Nat.not_lt.mpr (high b List.mem_cons_self)
    rw [asciiCount_high high, if_neg no_ascii]
  rw [here, asciiCount, List.countP_append, ← asciiCount, ← asciiCount]
  congr 1
  rcases scalarBytes_cases scalar with ⟨ascii, a, bytes, rfl⟩ | ⟨_, a, b', bytes, pair⟩ |
      ⟨_, a, b', c, bytes, triple⟩ | ⟨_, a, b', c, d, bytes, quadruple⟩
  · rw [bytes] at here ⊢
    obtain ⟨rfl, _⟩ := List.cons.inj here
    simp [asciiCount, List.countP_cons]
  · simp only [IsPair, IsTail] at pair
    refine several _ _ bytes ?_
    simp only [List.forall_mem_cons, List.not_mem_nil, false_implies, implies_true, and_true]
    omega
  · simp only [IsTriple, IsTail] at triple
    refine several _ _ bytes ?_
    simp only [List.forall_mem_cons, List.not_mem_nil, false_implies, implies_true, and_true]
    omega
  · simp only [IsQuadruple, IsTail] at quadruple
    refine several _ _ bytes ?_
    simp only [List.forall_mem_cons, List.not_mem_nil, false_implies, implies_true, and_true]
    omega

/-! ## The loop -/

namespace Scan
variable (s : Scan) (b : Byte) (length : Nat)

@[simp] theorem offset_advance : (s.advance b length).offset = s.offset + max 1 length := by
  rw [advance]
  split <;> split <;> simp only [character] <;> omega

@[simp] theorem ascii_advance :
    (s.advance b length).ascii = s.ascii + if b < 0x80 then 1 else 0 := by
  rw [advance]
  split <;> split <;> simp [character]

@[simp] theorem utf8_advance :
    (s.advance b length).utf8 = s.utf8 + if length = 0 then 0 else 1 := by
  rw [advance]
  split <;> split <;> simp [character]

@[simp] theorem comp_advance :
    (s.advance b length).comp = s.comp - ((length - 1 : Nat) : Int) := by
  rw [advance]
  split <;> split <;> simp_all [character]

end Scan

/-- The loop ends after no more rounds than there are bytes, within the buffer, and has counted
what the scan finds. -/
theorem scanLoop_scans {buf l : List Byte} {chars steps : Nat} (scans : Scans l chars steps)
    {s : Scan} (here : buf.drop s.offset = l) {fuel : Nat} (enough : l.length ≤ fuel) :
    ∃ s', scanLoop buf fuel s = some s' ∧ s'.utf8 = s.utf8 + chars ∧
      s'.ascii = s.ascii + asciiCount l ∧ s'.comp = s.comp - l.length + steps := by
  induction scans generalizing s fuel with
  | done =>
    have ended : ¬ s.offset < buf.length := by
      have := List.drop_eq_nil_iff.mp here
      omega
    refine ⟨s, ?_, rfl, rfl, by simp⟩
    cases fuel <;> simp [scanLoop, ended]
  | @character l rest v chars steps text split later ih =>
    have positive := length_scalarBytes_pos text.1
    obtain ⟨b, tail, rfl⟩ : ∃ b tail, l = b :: tail := by
      cases l with
      | nil =>
        have := congrArg List.length split
        rw [List.length_append, List.length_nil] at this
        omega
      | cons b tail => exact ⟨b, tail, rfl⟩
    have found := charLength_scalar text split
    have size := congrArg List.length split
    rw [List.length_append] at size
    have inside : s.offset < buf.length := by
      have := congrArg List.length here
      simp only [List.length_drop, List.length_cons] at this
      omega
    match fuel with
    | fuel + 1 =>
      have next : buf.drop (s.advance b (charLength b tail)).offset = rest := by
        rw [Scan.offset_advance, found, Nat.max_eq_right positive, ← List.drop_drop, here, split,
          List.drop_left]
      obtain ⟨s', run, utf8, ascii, comp⟩ := @ih _ next fuel (by omega)
      refine ⟨s', ?_, ?_, ?_, ?_⟩
      · rw [scanLoop, if_pos inside, scanRound_eq here, Option.bind_some, run]
      · rw [utf8, Scan.utf8_advance, if_neg (by omega)]
        omega
      · rw [ascii, Scan.ascii_advance, asciiCount_scalar text.1 split]
        omega
      · rw [comp, Scan.comp_advance, found]
        omega
  | @stray b rest chars steps none_here later ih =>
    have not_found : charLength b rest = 0 := by
      by_contra found
      obtain ⟨v, more, text, split⟩ := scalar_of_charLength found
      exact none_here v text ⟨more, split.symm⟩
    have inside : s.offset < buf.length := by
      have := congrArg List.length here
      simp only [List.length_drop, List.length_cons] at this
      omega
    match fuel with
    | fuel + 1 =>
      rw [List.length_cons] at enough
      have next : buf.drop (s.advance b (charLength b rest)).offset = rest := by
        rw [Scan.offset_advance, not_found, ← List.drop_drop, here]
        rfl
      obtain ⟨s', run, utf8, ascii, comp⟩ := @ih _ next fuel (by omega)
      refine ⟨s', ?_, ?_, ?_, ?_⟩
      · rw [scanLoop, if_pos inside, scanRound_eq here, Option.bind_some, run]
      · rw [utf8, Scan.utf8_advance, if_pos not_found]
        omega
      · rw [ascii, Scan.ascii_advance, asciiCount, asciiCount, List.countP_cons]
        simp only [decide_eq_true_eq]
        omega
      · rw [comp, Scan.comp_advance, not_found, List.length_cons]
        omega

/-- There are no more characters than steps and no more steps than bytes. -/
theorem Scans.bounds {buf : List Byte} {chars steps : Nat} (scans : Scans buf chars steps) :
    chars ≤ steps ∧ steps ≤ buf.length ∧ (buf ≠ [] → 0 < steps) := by
  induction scans with
  | done => exact ⟨Nat.le_refl _, Nat.le_refl _, fun some_byte => absurd rfl some_byte⟩
  | character text split _ ih =>
    have := length_scalarBytes_pos text.1
    have size := congrArg List.length split
    rw [List.length_append] at size
    exact ⟨by omega, by omega, fun _ => by omega⟩
  | stray _ _ ih =>
    rw [List.length_cons]
    exact ⟨by omega, by omega, fun _ => by omega⟩

/-! ## The results -/

/-- The larger of the two counts, cut to a byte. -/
theorem checkIfTextBuf_scans {buf : List Byte} {chars steps : Nat} (scans : Scans buf chars steps) :
    checkIfTextBuf buf = some (BitVec.ofNat 8 (max (asciiCount buf) chars)) := by
  obtain ⟨s, run, utf8, ascii, _⟩ :=
    @scanLoop_scans buf buf chars steps scans ⟨0, 0, 0, 0⟩ rfl buf.length (Nat.le_refl _)
  rw [Nat.zero_add] at utf8 ascii
  have larger : (if s.utf8 > s.ascii then s.utf8 else s.ascii) = max (asciiCount buf) chars := by
    rw [utf8, ascii]
    split <;> omega
  rw [checkIfTextBuf, run, Option.bind_eq_bind, Option.bind_some, larger]
  rfl

/-- Below the maximal length the second comparison of lengths turns every entry away. -/
theorem checkIfText_short {qLen : Nat} (short : qLen < aflTxtMaxLen) (file : Option (List Byte)) :
    checkIfText qLen file = some 0 := by
  rw [checkIfText, if_pos (.inr short)]

/-- At the maximal length the class is that of the percentages. -/
theorem checkIfText_scans {contents : List Byte} {chars steps : Nat}
    (scans : Scans contents chars steps) (size : contents.length = aflTxtMaxLen) :
    checkIfText aflTxtMaxLen (some contents) =
      some (textClass (chars * 100 / steps) (asciiCount contents * 100 / contents.length)) := by
  have whole : contents.take aflTxtMaxLen = contents := List.take_of_length_le (by omega)
  obtain ⟨s, run, utf8, ascii, comp⟩ :=
    @scanLoop_scans contents contents chars steps scans ⟨0, 0, 0, aflTxtMaxLen⟩ rfl aflTxtMaxLen
      (by omega)
  rw [Nat.zero_add] at utf8 ascii
  obtain ⟨few, fits, _⟩ := scans.bounds
  have ascii_le : asciiCount contents ≤ contents.length := List.countP_le_length
  have bound : aflTxtMaxLen = 65535 := rfl
  have utf8_product : s.utf8 * 100 % 2 ^ 32 = chars * 100 := by omega
  have ascii_product : s.ascii * 100 % 2 ^ 32 = asciiCount contents * 100 := by omega
  have comp_eq : s.comp = (steps : Int) := by
    rw [comp, size]
    simp
  have quotient : ((chars * 100 : Nat) : Int).tdiv (steps : Int) = ((chars * 100 / steps : Nat) : Int) := by
    rw [Int.ofNat_tdiv]
  have no_cut : ¬ aflTxtMaxLen ≥ maxFile := by decide
  have long : ¬ (aflTxtMaxLen < aflTxtMinLen ∨ aflTxtMaxLen < aflTxtMaxLen) := by decide
  rw [checkIfText, if_neg long]
  simp only [if_neg no_cut, whole, size, ne_eq, not_true, if_false, run, Option.bind_eq_bind,
    Option.bind_some, utf8_product, ascii_product, comp_eq, quotient]
  simp only [textClass, ge_iff_le, Int.ofNat_le]
  split
  · rfl
  · split <;> rfl

/-- The buffer check returns the larger count unless it needs more than a byte, and the check of a
queue entry with a length between the limits answers for the longest entries only, apart from those
that are no text. -/
theorem checkIfText_iff (buf : List Byte) :
    (∃ chars steps, Scans buf chars steps) ∧
    (∀ chars steps, Scans buf chars steps → ∃ result, checkIfTextBuf buf = some result ∧
      (result.toNat = max (asciiCount buf) chars ↔ max (asciiCount buf) chars < 256)) ∧
    ∀ chars steps, Scans buf chars steps →
      aflTxtMinLen ≤ buf.length → buf.length ≤ aflTxtMaxLen →
      (checkIfText buf.length (some buf) =
          some (textClass (chars * 100 / steps) (asciiCount buf * 100 / buf.length)) ↔
        buf.length = aflTxtMaxLen ∨
          textClass (chars * 100 / steps) (asciiCount buf * 100 / buf.length) = 0) := by
  refine ⟨scans_total buf, ?_, ?_⟩
  · intro chars steps scans
    refine ⟨_, checkIfTextBuf_scans scans, ?_⟩
    rw [BitVec.toNat_ofNat]
    omega
  · intro chars steps scans _ high
    rcases Nat.lt_or_ge buf.length aflTxtMaxLen with short | long
    · rw [checkIfText_short short, Option.some.injEq]
      constructor
      · exact fun same => .inr same.symm
      · rintro (impossible | none_of_both)
        · omega
        · exact none_of_both.symm
    · have size : buf.length = aflTxtMaxLen := Nat.le_antisymm high long
      have answer := checkIfText_scans scans size
      rw [← size] at answer
      exact ⟨fun _ => .inl size, fun _ => answer⟩

/-- The letter a. -/
private theorem scans_letters (n : Nat) : Scans (List.replicate n 0x61) n n := by
  induction n with
  | zero => exact .done
  | succ n ih =>
    refine @Scans.character _ _ 0x61 _ _ ⟨.inl (by decide), fun _ => by decide⟩ ?_ ih
    rw [List.replicate_succ]
    rfl

theorem checkIfText_iff_letters :
    checkIfTextBuf [0x61, 0x61, 0x61] = some 3 ∧
      checkIfText 12 (some (List.replicate 12 0x61)) ≠ some (textClass (12 * 100 / 12)
        (asciiCount (List.replicate 12 0x61) * 100 / 12)) := by
  constructor
  · obtain ⟨result, run, right⟩ := (checkIfText_iff _).2.1 3 3 (scans_letters 3)
    have value := right.mpr (by decide)
    refine run.trans (congrArg some ?_)
    apply BitVec.eq_of_toNat_eq
    rw [value]
    decide
  · have right := (checkIfText_iff _).2.2 12 12 (scans_letters 12) (by decide) (by decide)
    exact fun same => absurd (right.mp same) (by decide)

/-- 256 letters are counted as none, and twelve letters are no text. -/
theorem checkIfText_not_exact :
    (¬ ∀ buf chars steps, Scans buf chars steps → ∃ result, checkIfTextBuf buf = some result ∧
      result.toNat = max (asciiCount buf) chars) ∧
    ¬ ∀ contents chars steps, Scans contents chars steps →
      aflTxtMinLen ≤ contents.length → contents.length ≤ aflTxtMaxLen →
      checkIfText contents.length (some contents) =
        some (textClass (chars * 100 / steps) (asciiCount contents * 100 / contents.length)) := by
  constructor
  · intro exact_count
    have scans := scans_letters 256
    obtain ⟨result, run, value⟩ := exact_count _ 256 256 scans
    have small := result.isLt
    omega
  · intro exact_class
    have answer := exact_class _ 12 12 (scans_letters 12) (by decide) (by decide)
    rw [List.length_replicate, checkIfText_short (by decide)] at answer
    exact absurd answer (by decide)

end Swam.Afl.TextCheck
