import Swam.Lib.Bytes

/-!
# The handshake with the fork server

The target says hello with the version of the protocol, and the fuzzer answers with its complement.
Then the target sends its options, the size of its map and the dictionary that was made when it was
compiled, and says hello again. The two pipes hold a limited number of bytes, and the dictionary
goes through in pieces of any sizes.
-/
namespace Swam.Afl.Handshake

open Lib

abbrev Byte := BitVec 8

abbrev Word := BitVec 32

/-- The bytes of a word in memory. -/
def Word.bytes (x : Word) : List Byte := [nthByte x 0, nthByte x 1, nthByte x 2, nthByte x 3]

def wordOf (a b c d : Byte) : Word := d ++ c ++ b ++ a

/-! ## Constants -/

def fsNewVersionMin : Word := 1

def fsNewVersionMax : Word := 1

def fsNewError : Word := 0xeffe0000

def fsNewOptMapsize : Word := 0x00000001

def fsNewOptShdmemFuzz : Word := 0x00000002

def fsNewOptAutodict : Word := 0x00000800

def fsOptIjon : Word := 0x04000000

/-- "AFL" and a zero. -/
def hello : Word := 0x41464c00

def version : Word := hello + fsNewVersionMax

/-- `MAP_SIZE`. -/
def mapSizeDefault : Word := 1 <<< 16

/-! ## The dictionary of the compiler pass -/

/-- `MAX_AUTO_EXTRAS` -/
def maxAutoExtras : Nat := 4096 * 8

/-- The tokens that find room, in their order. -/
def fitting : List (List Byte) → Nat → Nat → List (List Byte)
  | [], _, _ => []
  | token :: tokens, offset, count =>
    if offset + token.length < 0xfffff0 ∧ count < maxAutoExtras then
      token :: fitting tokens (offset + 1 + token.length) (count + 1)
    else fitting tokens offset count

/-- Each token after its length in a byte. -/
def packed (tokens : List (List Byte)) : List Byte :=
  tokens.flatMap fun token => BitVec.ofNat 8 token.length :: token

/-- What the pass stores in the target. -/
def dictionaryOf (tokens : List (List Byte)) : List Byte := packed (fitting tokens 0 0)

/-- The loop of the fuzzer over the bytes it got. -/
def tokensOf : Nat → List Byte → List (List Byte)
  | 0, _ => []
  | _ + 1, [] => []
  | fuel + 1, len :: rest =>
    if len.toNat < rest.length + 1 then rest.take len.toNat :: tokensOf fuel (rest.drop len.toNat)
    else []

/-! ## The parties -/

structure Target where
  mapSize : Word
  sharedmemFuzzing : Bool
  ijonEnabled : Bool
  dictionary : List Byte

/-- The options that the target sends. -/
def Target.options (t : Target) : Word :=
  fsNewOptMapsize ||| (if t.sharedmemFuzzing then fsNewOptShdmemFuzz else 0) |||
    (if t.dictionary.isEmpty then 0 else fsNewOptAutodict) ||| (if t.ijonEnabled then fsOptIjon else 0)

/-- What the fuzzer has agreed on so far. -/
structure Fsrv where
  mapSize : Word
  realMapSize : Word
  supportShmemFuzz : Bool
  useShmemFuzz : Bool
  useIjon : Bool
  ignoreAutodict : Bool
  hasAddExtra : Bool
  extras : List (List Byte)

inductive TargetAt where
  | sendVersion
  | readReply
  | sendOptions
  | sendMapSize
  | sendDictLen
  | sendDict (rest : List Byte)
  | sendWelcome
  | connected
  | exited
deriving DecidableEq

/-- The version that the target said is kept. -/
inductive FuzzerAt where
  | readHello
  | sendReply (keep : Word)
  | readOptions (keep : Word)
  | readMapSize (keep status : Word)
  | readDictSize (keep : Word)
  | readDict (keep : Word) (size : Nat) (dict : List Byte)
  | readWelcome (keep : Word)
  | up
  | oldModel
  | fatal
deriving DecidableEq

/-- The bytes in the two pipes and the parties. -/
structure State where
  ctl : List Byte
  st : List Byte
  target : TargetAt
  fuzzer : FuzzerAt
  fsrv : Fsrv

def initial (fsrv : Fsrv) : State := ⟨[], [], .sendVersion, .readHello, fsrv⟩

/-! ## The target -/

/-- `write` to the status pipe, which waits for room. -/
def State.tell (s : State) (capacity : Nat) (bytes : List Byte) (next : TargetAt) : Option State :=
  if s.st.length + bytes.length ≤ capacity then some { s with st := s.st ++ bytes, target := next }
  else none

def Target.afterMapSize (t : Target) : TargetAt :=
  if t.dictionary.isEmpty then .sendWelcome else .sendDictLen

/-- The next step of the target; of the dictionary it writes as many bytes as the pipe takes. -/
def targetStep (capacity : Nat) (t : Target) (s : State) (ret : Nat) : Option State :=
  match s.target with
  | .sendVersion => s.tell capacity version.bytes .readReply
  | .readReply =>
    match s.ctl with
    | [] => none
    | a :: b :: c :: d :: ctl =>
      if wordOf a b c d = version ^^^ 0xffffffff then some { s with ctl, target := .sendOptions }
      else some { s with ctl, target := .exited }
    | _ => some { s with ctl := [], target := .exited }
  | .sendOptions => s.tell capacity t.options.bytes .sendMapSize
  | .sendMapSize => s.tell capacity t.mapSize.bytes t.afterMapSize
  | .sendDictLen =>
    s.tell capacity (Word.bytes (BitVec.ofNat 32 t.dictionary.length)) (.sendDict t.dictionary)
  | .sendDict rest =>
    if 1 ≤ ret ∧ ret ≤ rest.length then
      s.tell capacity (rest.take ret)
        (if (rest.drop ret).isEmpty then .sendWelcome else .sendDict (rest.drop ret))
    else none
  | .sendWelcome => s.tell capacity version.bytes .connected
  | .connected | .exited => none

/-! ## The fuzzer -/

/-- `read` of four bytes, which waits for some. A shorter answer is given up on. -/
def State.hear (s : State) (next : Word → FuzzerAt × Fsrv) : Option State :=
  match s.st with
  | [] => none
  | a :: b :: c :: d :: st =>
    some { s with st, fuzzer := (next (wordOf a b c d)).1, fsrv := (next (wordOf a b c d)).2 }
  | _ => some { s with st := [], fuzzer := .fatal }

def fuzzerHello (fsrv : Fsrv) (status : Word) : FuzzerAt × Fsrv :=
  if status &&& fsNewError = fsNewError then (.fatal, fsrv)
  else if hello ≤ status ∧ status ≤ 0x41464cff then
    let version := status - hello
    if version = 0 ∨ version < fsNewVersionMin ∨ fsNewVersionMax < version then (.fatal, fsrv)
    else (.sendReply status, fsrv)
  else (.oldModel, fsrv)

/-- The options that need no parameter, and where the fuzzer goes on. -/
def afterMapSize (keep status : Word) (fsrv : Fsrv) : FuzzerAt × Fsrv :=
  if status &&& fsNewOptShdmemFuzz ≠ 0 ∧ fsrv.supportShmemFuzz = false then (.fatal, fsrv)
  else
    let fsrv := { fsrv with
      useShmemFuzz := fsrv.useShmemFuzz || decide (status &&& fsNewOptShdmemFuzz ≠ 0)
      useIjon := fsrv.useIjon || decide (status &&& fsOptIjon ≠ 0) }
    (if status &&& fsNewOptAutodict ≠ 0 then .readDictSize keep else .readWelcome keep, fsrv)

def fuzzerOptions (keep : Word) (fsrv : Fsrv) (status : Word) : FuzzerAt × Fsrv :=
  if status &&& fsNewOptMapsize ≠ 0 then (.readMapSize keep status, fsrv)
  else afterMapSize keep status { fsrv with mapSize := mapSizeDefault, realMapSize := mapSizeDefault }

/-- A size as a multiple of 64. -/
def roundedUp (size : Word) : Word :=
  if size % 64 ≠ 0 then (size + 63) >>> 6 <<< 6 else size

def fuzzerMapSize (keep status : Word) (fsrv : Fsrv) (tmpMapSize : Word) : FuzzerAt × Fsrv :=
  let mapSize := if fsrv.mapSize = 0 then mapSizeDefault else fsrv.mapSize
  let fsrv := { fsrv with mapSize, realMapSize := tmpMapSize }
  if mapSize < roundedUp tmpMapSize then (.fatal, fsrv)
  else afterMapSize keep status { fsrv with mapSize := roundedUp tmpMapSize }

def fuzzerDictSize (keep : Word) (fsrv : Fsrv) (dictSize : Word) : FuzzerAt × Fsrv :=
  if dictSize < 2 ∨ 0xffffff < dictSize then (.fatal, fsrv) else (.readDict keep dictSize.toNat [], fsrv)

/-- The calls of `add_extra_func`. -/
def Fsrv.addExtras (fsrv : Fsrv) (dict : List Byte) : Fsrv :=
  if !fsrv.ignoreAutodict && fsrv.hasAddExtra then
    { fsrv with extras := fsrv.extras ++ tokensOf dict.length dict }
  else fsrv

def fuzzerWelcome (keep : Word) (fsrv : Fsrv) (status2 : Word) : FuzzerAt × Fsrv :=
  let expectedFlags := if fsrv.useIjon then fsOptIjon else 0
  if status2 &&& ~~~ expectedFlags ≠ keep then (.fatal, fsrv) else (.up, fsrv)

/-- The next step of the fuzzer; of the dictionary it reads as many bytes as the pipe gives. -/
def fuzzerStep (capacity : Nat) (s : State) (rlen : Nat) : Option State :=
  match s.fuzzer with
  | .readHello => s.hear (fuzzerHello s.fsrv)
  | .sendReply keep =>
    if s.ctl.length + 4 ≤ capacity then
      some { s with ctl := s.ctl ++ Word.bytes (keep ^^^ 0xffffffff), fuzzer := .readOptions keep }
    else none
  | .readOptions keep => s.hear (fuzzerOptions keep s.fsrv)
  | .readMapSize keep status => s.hear (fuzzerMapSize keep status s.fsrv)
  | .readDictSize keep => s.hear (fuzzerDictSize keep s.fsrv)
  | .readDict keep size dict =>
    if 1 ≤ rlen ∧ rlen ≤ s.st.length ∧ rlen ≤ size - dict.length then
      let dict := dict ++ s.st.take rlen
      let s := { s with st := s.st.drop rlen }
      if dict.length < size then some { s with fuzzer := .readDict keep size dict }
      else some { s with fuzzer := .readWelcome keep, fsrv := s.fsrv.addExtras dict }
    else none
  | .readWelcome keep => s.hear (fuzzerWelcome keep s.fsrv)
  | .up | .oldModel | .fatal => none

/-! ## The system -/

/-- Whose turn it is, and how many bytes of the dictionary go through the pipe. -/
inductive Act where
  | target (ret : Nat)
  | fuzzer (rlen : Nat)
deriving DecidableEq

def step (capacity : Nat) (t : Target) (s : State) : Act → Option State
  | .target ret => targetStep capacity t s ret
  | .fuzzer rlen => fuzzerStep capacity s rlen

end Swam.Afl.Handshake
