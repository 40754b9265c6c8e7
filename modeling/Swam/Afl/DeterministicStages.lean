import Swam.Afl.Testcases
import Swam.Lib.Bytes

/-!
# Bit flips, arithmetics and interesting values

The first deterministic stages of `fuzz_one_original` change one bit, byte or word of the seed at
a time. The later ones leave out what an earlier stage should have executed: `could_be_bitflip`,
`could_be_arith` and `could_be_interest` decide that from the old and the new value.
-/
namespace Swam.Afl

open Lib

/-! ## Words -/

/-- The conversion to `u8`, `u16` or `u32`: the low `blen` bytes. -/
def castU (blen : Nat) (x : BitVec 32) : BitVec 32 := (x.setWidth (8 * blen)).setWidth 32

def swap16 (x : BitVec 32) : BitVec 32 :=
  let ret := castU 2 x
  castU 2 (ret <<< 8 ||| ret >>> 8)

def swap32 (x : BitVec 32) : BitVec 32 :=
  x <<< 24 ||| x >>> 24 ||| (x <<< 8 &&& (0x00FF0000 : BitVec 32)) |||
    (x >>> 8 &&& (0x0000FF00 : BitVec 32))

/-- `*(u16 *)(buf + i)` and the like. -/
def loadWord (blen : Nat) (buf : List Byte) (i : Nat) : BitVec 32 :=
  (List.range blen).foldl (fun x j => x ||| (cell buf (i + j)).setWidth 32 <<< (8 * j)) 0

def storeWord (blen : Nat) (buf : List Byte) (i : Nat) (x : BitVec 32) : List Byte :=
  memcpy buf i ((List.range blen).map (nthByte x))

def arithMax : Nat := 35

def interesting8 : List (BitVec 32) :=
  [-128, -1, 0, 1, 16, 32, 64, 100, 127].map (BitVec.ofInt 32)

def interesting16 : List (BitVec 32) :=
  interesting8 ++
    [-32768, -129, 128, 255, 256, 512, 1000, 1024, 4096, 32767].map (BitVec.ofInt 32)

/-- With `AFL_SWAM`. -/
def interesting32 : List (BitVec 32) :=
  interesting16 ++
    [-2147483648, -100663046, -32769, 32768, 65535, 65536, 100663045, 2147483647].map
      (BitVec.ofInt 32)

/-! ## The filters -/

/-- Shifts right until the first bit is set. -/
def shiftToFirst : Nat → Nat → BitVec 32 → Nat × BitVec 32
  | 0, sh, x => (sh, x)
  | fuel + 1, sh, x => if x &&& 1 = 0 then shiftToFirst fuel (sh + 1) (x >>> 1) else (sh, x)

def couldBeBitflip (xorVal : BitVec 32) : Bool :=
  if xorVal = 0 then true
  else
    let (sh, xorVal) := shiftToFirst 32 0 xorVal
    -- 1-, 2-, and 4-bit patterns are OK anywhere
    if xorVal = 1 ∨ xorVal = 3 ∨ xorVal = 15 then true
    -- 8-, 16-, and 32-bit patterns are OK only if the shift is divisible by 8
    else if sh &&& 7 ≠ 0 then false
    else xorVal = 0xff ∨ xorVal = 0xffff ∨ xorVal = 0xffffffff

/-- How many of the parts of `size` bytes differ, and the old and the new value of the last one
that does. -/
def differing (oldVal newVal : BitVec 32) (size count : Nat) : Nat × BitVec 32 × BitVec 32 :=
  (List.range count).foldl
    (fun (diffs, ov, nv) i =>
      let a := castU size (oldVal >>> (8 * size * i))
      let b := castU size (newVal >>> (8 * size * i))
      if a ≠ b then (diffs + 1, a, b) else (diffs, ov, nv))
    (0, 0, 0)

def withinArithMax (size : Nat) (ov nv : BitVec 32) : Bool :=
  (castU size (ov - nv)).toNat ≤ arithMax ∨ (castU size (nv - ov)).toNat ≤ arithMax

def couldBeArith (oldVal newVal : BitVec 32) (blen : Nat) : Bool :=
  if oldVal = newVal then true
  else
    -- one-byte adjustments to any byte
    let (diffs, ov, nv) := differing oldVal newVal 1 blen
    if diffs = 1 ∧ withinArithMax 1 ov nv then true
    else if blen = 1 then false
    else
      -- two-byte adjustments
      let (diffs, ov, nv) := differing oldVal newVal 2 (blen / 2)
      if diffs = 1 ∧ (withinArithMax 2 ov nv ∨ withinArithMax 2 (swap16 ov) (swap16 nv)) then true
      else if blen = 4 then
        withinArithMax 4 oldVal newVal ∨ withinArithMax 4 (swap32 oldVal) (swap32 newVal)
      else false

/-- An insertion of `v` at byte `i`. -/
def tval (oldVal mask v : BitVec 32) (i : Nat) : BitVec 32 :=
  (oldVal &&& ~~~ (mask <<< (8 * i))) ||| v <<< (8 * i)

def couldBeInterest (oldVal newVal : BitVec 32) (blen : Nat) (checkLe : Bool) : Bool :=
  if oldVal = newVal then true
  -- one-byte insertions
  else if (List.range blen).any fun i => interesting8.any fun v =>
      newVal = tval oldVal 0xff (castU 1 v) i then true
  else if blen = 2 ∧ ¬ checkLe then false
  -- two-byte insertions; big-endian ones only within four bytes
  else if (List.range (blen - 1)).any fun i => interesting16.any fun v =>
      newVal = tval oldVal 0xffff (castU 2 v) i ∨
        blen > 2 ∧ newVal = tval oldVal 0xffff (swap16 v) i then true
  else if blen = 4 ∧ checkLe then interesting32.any fun v => newVal = castU 4 v
  else false

/-! ## The stages -/

/-- `out_buf` and the executed buffers, the most recent first. -/
structure DetRun where
  outBuf : List Byte
  executed : List (List Byte)

namespace DetRun

def fuzz (s : DetRun) : DetRun := { s with executed := s.outBuf :: s.executed }

def flipBit (buf : List Byte) (b : Nat) : List Byte :=
  buf.modify (b / 8) (· ^^^ (128 >>> (b % 8)))

def flipBits (n : Nat) (buf : List Byte) (b : Nat) : List Byte :=
  (List.range n).foldl (fun buf t => flipBit buf (b + t)) buf

def walkingBits (n : Nat) (s : DetRun) (cur : Nat) : DetRun :=
  let s := { s with outBuf := flipBits n s.outBuf cur }.fuzz
  { s with outBuf := flipBits n s.outBuf cur }

/-- `^= 0xFF`, `^= 0xFFFF` or `^= 0xFFFFFFFF`. -/
def flipWord (blen : Nat) (buf : List Byte) (i : Nat) : List Byte :=
  storeWord blen buf i (loadWord blen buf i ^^^ castU blen 0xFFFFFFFF)

def walkingBytes (blen : Nat) (s : DetRun) (i : Nat) : DetRun :=
  let s := { s with outBuf := flipWord blen s.outBuf i }.fuzz
  { s with outBuf := flipWord blen s.outBuf i }

/-- Writes a value and executes the buffer, or skips the value. -/
def tryValue (blen i : Nat) (s : DetRun) (trial : Bool × BitVec 32) : DetRun :=
  if trial.1 then { s with outBuf := storeWord blen s.outBuf i trial.2 }.fuzz else s

/-- The values that are tried in turn for one `j`, each with the conditions on it. -/
def arith8Trials (filters : Bool) (orig : BitVec 32) (j : Nat) : List (Bool × BitVec 32) :=
  let plus := castU 1 (orig + BitVec.ofNat 32 j)
  let minus := castU 1 (orig - BitVec.ofNat 32 j)
  [(!(filters && couldBeBitflip (orig ^^^ plus)), plus),
    (!(filters && couldBeBitflip (orig ^^^ minus)), minus)]

/-- The same for words, little endian first; `low` and `lowBE` are the halves that must overflow
for a value to be tried. -/
def arithTrials (blen : Nat) (swap low lowBE : BitVec 32 → BitVec 32) (most : Nat)
    (filters : Bool) (orig : BitVec 32) (j : Nat) : List (Bool × BitVec 32) :=
  let plus := castU blen (orig + BitVec.ofNat 32 j)
  let minus := castU blen (orig - BitVec.ofNat 32 j)
  let plusBE := swap (swap orig + BitVec.ofNat 32 j)
  let minusBE := swap (swap orig - BitVec.ofNat 32 j)
  [(decide ((low orig).toNat + j > most) && !(filters && couldBeBitflip (orig ^^^ plus)), plus),
    (decide ((low orig).toNat < j) && !(filters && couldBeBitflip (orig ^^^ minus)), minus),
    (decide ((lowBE orig).toNat + j > most) && !(filters && couldBeBitflip (orig ^^^ plusBE)),
      plusBE),
    (decide ((lowBE orig).toNat < j) && !(filters && couldBeBitflip (orig ^^^ minusBE)), minusBE)]

def arith16Trials : Bool → BitVec 32 → Nat → List (Bool × BitVec 32) :=
  arithTrials 2 swap16 (· &&& 0xff) (· >>> 8) 0xff

def arith32Trials : Bool → BitVec 32 → Nat → List (Bool × BitVec 32) :=
  arithTrials 4 swap32 (· &&& 0xffff) (swap32 · &&& 0xffff) 0xffff

/-- One offset of an arithmetic stage. -/
def arithRound (blen : Nat) (trials : BitVec 32 → Nat → List (Bool × BitVec 32)) (s : DetRun)
    (i : Nat) : DetRun :=
  let orig := loadWord blen s.outBuf i
  (List.range arithMax).foldl
    (fun s j =>
      let s := (trials orig (j + 1)).foldl (tryValue blen i) s
      { s with outBuf := storeWord blen s.outBuf i orig })
    s

def interest8Trial (filters : Bool) (orig v : BitVec 32) : Bool × BitVec 32 :=
  (!(filters && (couldBeBitflip (orig ^^^ castU 1 v) || couldBeArith orig (castU 1 v) 1)),
    castU 1 v)

/-- One offset of the stage of interesting bytes; after a skipped value the restoring changes
nothing. -/
def interest8Round (filters : Bool) (s : DetRun) (i : Nat) : DetRun :=
  let orig := loadWord 1 s.outBuf i
  interesting8.foldl
    (fun s v =>
      let s := tryValue 1 i s (interest8Trial filters orig v)
      { s with outBuf := storeWord 1 s.outBuf i orig })
    s

/-- An interesting word and its big-endian form. -/
def interestTrials (blen : Nat) (swap : BitVec 32 → BitVec 32) (filters : Bool)
    (orig v : BitVec 32) : List (Bool × BitVec 32) :=
  let le := castU blen v
  let be := swap v
  [(!(filters && (couldBeBitflip (orig ^^^ le) || couldBeArith orig le blen ||
      couldBeInterest orig le blen false)), le),
    (decide (le ≠ be) && !(filters && (couldBeBitflip (orig ^^^ be) ||
      couldBeArith orig be blen || couldBeInterest orig be blen true)), be)]

/-- One offset of the stages of interesting words. -/
def interestRound (blen : Nat) (values : List (BitVec 32))
    (trials : BitVec 32 → BitVec 32 → List (Bool × BitVec 32)) (s : DetRun) (i : Nat) : DetRun :=
  let orig := loadWord blen s.outBuf i
  let s := values.foldl (fun s v => (trials orig v).foldl (tryValue blen i) s) s
  { s with outBuf := storeWord blen s.outBuf i orig }

/-- A stage: the rounds whose byte is marked. -/
def stage (skipEffMap : List Byte) (rounds : Nat) (byte : Nat → Nat)
    (round : DetRun → Nat → DetRun) (s : DetRun) : DetRun :=
  (List.range rounds).foldl
    (fun s cur => if bitmapRead skipEffMap (byte cur) then round s cur else s) s

section
variable (filters : Bool) (skipEffMap : List Byte) (len : Nat)

def flip1 : DetRun → DetRun := stage skipEffMap (len * 8) (· / 8) (walkingBits 1)

def flip2 : DetRun → DetRun := stage skipEffMap (len * 8 - 1) (· / 8) (walkingBits 2)

def flip4 : DetRun → DetRun := stage skipEffMap (len * 8 - 3) (· / 8) (walkingBits 4)

def flip8 : DetRun → DetRun := stage skipEffMap len id (walkingBytes 1)

def flip16 : DetRun → DetRun := stage skipEffMap (len - 1) id (walkingBytes 2)

def flip32 : DetRun → DetRun := stage skipEffMap (len - 3) id (walkingBytes 4)

def arith8 : DetRun → DetRun := stage skipEffMap len id (arithRound 1 (arith8Trials filters))

def arith16 : DetRun → DetRun :=
  stage skipEffMap (len - 1) id (arithRound 2 (arith16Trials filters))

def arith32 : DetRun → DetRun :=
  stage skipEffMap (len - 3) id (arithRound 4 (arith32Trials filters))

def interest8 : DetRun → DetRun := stage skipEffMap len id (interest8Round filters)

def interest16 : DetRun → DetRun :=
  stage skipEffMap (len - 1) id
    (interestRound 2 interesting16 (interestTrials 2 swap16 filters))

def interest32 : DetRun → DetRun :=
  stage skipEffMap (len - 3) id
    (interestRound 4 interesting32 (interestTrials 4 swap32 filters))

end

end DetRun

/-- The stages in their order, with or without the filters; a seed too short for a word has no
rounds that change one. The first execution is that of the seed itself. -/
def detStages (filters noArith : Bool) (skipEffMap buf : List Byte) : DetRun :=
  let len := buf.length
  let s : DetRun := ⟨buf, [buf]⟩
  let s := s.flip1 skipEffMap len
  let s := s.flip2 skipEffMap len
  let s := s.flip4 skipEffMap len
  let s := s.flip8 skipEffMap len
  let s := s.flip16 skipEffMap len
  let s := s.flip32 skipEffMap len
  let s := if noArith then s else
    let s := s.arith8 filters skipEffMap len
    let s := s.arith16 filters skipEffMap len
    s.arith32 filters skipEffMap len
  let s := s.interest8 filters skipEffMap len
  if noArith then s else
    let s := s.interest16 filters skipEffMap len
    s.interest32 filters skipEffMap len

end Swam.Afl
