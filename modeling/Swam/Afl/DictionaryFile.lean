import Swam.Afl.AutoTokens

/-!
# Dictionary files

`load_extras_file` reads a file line by line, in pieces that fit its buffer. Of a line of the form
`name@level[index]="literal"` it takes what stands between the quotes and replaces the escapes.
-/
namespace Swam.Afl.DictionaryFile

open AutoTokens (tolower)

/-! ## Characters -/

def maxLine : Nat := 8192

def newline : Byte := 0x0a

def quote : Byte := 0x22

def backslash : Byte := 0x5c

def isspace (c : Byte) : Bool := c = 0x20 || (0x09 ≤ c && c ≤ 0x0d)

def isdigit (c : Byte) : Bool := 0x30 ≤ c && c ≤ 0x39

def isalnum (c : Byte) : Bool := isdigit c || (0x41 ≤ c && c ≤ 0x5a) || (0x61 ≤ c && c ≤ 0x7a)

def isxdigit (c : Byte) : Bool := isdigit c || (0x41 ≤ c && c ≤ 0x46) || (0x61 ≤ c && c ≤ 0x66)

def hexdigits : List Byte := (List.range 10).map (BitVec.ofNat 8 <| 0x30 + ·) ++
  (List.range 6).map (BitVec.ofNat 8 <| 0x61 + ·)

/-- The character of a label. -/
def isLabel (c : Byte) : Bool := isalnum c || c = 0x5f

/-- Whitespace and = signs. -/
def isSeparator (c : Byte) : Bool := isspace c || c = 0x3d

/-- What the literal may not contain: `case 1 ... 31` and `case 128 ... 255`. -/
def isSkipped (c : Byte) : Bool := (1 ≤ c && c ≤ 31) || 128 ≤ c

/-! ## The C library -/

/-- `fgets` until the end of the file, with what it has read of the current piece and the room
that is left in the buffer. -/
def pieces (room : Nat) (piece : List Byte) : List Byte → List (List Byte)
  | [] => if piece = [] then [] else [piece]
  | c :: rest =>
    if c = newline ∨ room = 1 then (piece ++ [c]) :: pieces (maxLine - 1) [] rest
    else pieces (room - 1) (piece ++ [c]) rest

def digitsValue (digits : List Byte) : Nat :=
  digits.foldl (fun n c => 10 * n + (c - 0x30).toNat) 0

/-- `atoi`: a `long` that stays at its bounds, as an `int`. -/
def atoi (s : List Byte) : Int :=
  let s := s.dropWhile isspace
  let negative := s.head? = some 0x2d
  let s := if negative ∨ s.head? = some 0x2b then s.tail else s
  let n : Int := digitsValue (s.takeWhile isdigit)
  let long := max (-2 ^ 63) (min (2 ^ 63 - 1) (if negative then -n else n))
  (BitVec.ofInt 32 long).toInt

/-! ## The function -/

/-- Trim on left and right; the string ends at a zero. -/
def trim (line : List Byte) : List Byte :=
  let s := (line.takeWhile (· ≠ 0)).dropWhile isspace
  (s.reverse.dropWhile isspace).reverse

/-- If @number follows, parse that. -/
def skipLevel (dictLevel : BitVec 32) (s : List Byte) : Option (List Byte) :=
  if s.head? = some 0x40 then
    if atoi s.tail > dictLevel.toInt then none else some (s.tail.dropWhile isdigit)
  else some s

/-- Skip [number]. -/
def skipIndex (s : List Byte) : List Byte :=
  if s.head? = some 0x5b then
    let s := s.tail.dropWhile isdigit
    if s.head? = some 0x5d then s.tail else s
  else s

/-- What follows the opening quote of a line without its closing quote. -/
def afterQuote (dictLevel : BitVec 32) (s : List Byte) : Option (List Byte) := do
  let s ← skipLevel dictLevel (s.dropWhile isLabel)
  let s := (skipIndex s).dropWhile isSeparator
  -- malformed, or an empty keyword
  if s.head? ≠ some quote ∨ s.tail = [] then none else some s.tail

/-- What stands between the quotes of a line that is taken. -/
def quoted (dictLevel : BitVec 32) (line : List Byte) : Option (List Byte) :=
  let s := trim line
  if s = [] ∨ s.head? = some 0x23 then none
  else if s.getLast? ≠ some quote then none
  else afterQuote dictLevel s.dropLast

def hexByte (high low : Byte) : Byte :=
  BitVec.ofNat 8 (hexdigits.idxOf (tolower high) * 16 ||| hexdigits.idxOf (tolower low))

/-- The loop over the text between the quotes. A backslash without a valid escape is dropped and
what follows it is looked at again. -/
def unescape : List Byte → Token
  | [] => []
  | c :: rest =>
    if isSkipped c then unescape rest
    else if c ≠ backslash then c :: unescape rest
    else
      match rest with
      | [] => []
      | d :: follow =>
        if d = backslash ∨ d = quote then d :: unescape follow
        else
          match follow with
          | high :: low :: after =>
            if d = 0x78 ∧ isxdigit high ∧ isxdigit low then hexByte high low :: unescape after
            else unescape (d :: high :: low :: after)
          | [e] => unescape [d, e]
          | [] => unescape [d]

structure ExtrasFile where
  extras : List Token
  minLen : Nat
  maxLen : Nat
  deriving DecidableEq

def loadLine (dictLevel : BitVec 32) (s : ExtrasFile) (line : List Byte) : ExtrasFile :=
  match quoted dictLevel line with
  | none => s
  | some text =>
    let data := unescape text
    -- keyword too big
    if data.length > maxDictFile then s
    else
      { extras := s.extras ++ [data]
        minLen := min s.minLen data.length
        maxLen := max s.maxLen data.length }

def loadExtrasFile (dictLevel : BitVec 32) (file : List Byte) (s : ExtrasFile) : ExtrasFile :=
  (pieces (maxLine - 1) [] file).foldl (loadLine dictLevel) s

end Swam.Afl.DictionaryFile
