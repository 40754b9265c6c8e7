import Swam.Afl.AdjustedWords
import Swam.Afl.UserTokens

/-!
# The automatic tokens

`maybe_add_auto` collects tokens that the target seems to react to. It leaves out runs of one
byte, built-in interesting values and what the user has given, counts a token it knows already
and puts a new one behind the others or, when there is no room, over one of the lower half.
-/
namespace Swam.Afl.AutoTokens

open Lib

/-! ## The function -/

def maxAutoExtra : Nat := 32

def maxAutoExtras : Nat := useAutoExtras * 8

/-- `struct auto_extra_data`, of which `data` and `len` are the token. -/
structure AutoExtra where
  data : Token
  hitCnt : BitVec 32
  deriving DecidableEq

structure AutoDictionary where
  aExtras : List AutoExtra
  autoChanged : Bool

/-- In the C locale. -/
def tolower (c : Byte) : Byte := if 0x41 ≤ c ∧ c ≤ 0x5a then c + 0x20 else c

/-- Whether the two memories differ within `len` bytes. -/
def memcmpNocase : Nat → Token → Token → Bool
  | 0, _, _ => false
  | len + 1, m1, m2 =>
    if tolower (cell m1 0) ^^^ tolower (cell m2 0) ≠ 0 then true
    else memcmpNocase len m1.tail m2.tail

/-- The loop over a run of identical bytes, from the byte behind the first one. -/
def runEnd (first : Byte) : List Byte → Nat → Nat
  | [], i => i
  | c :: rest, i => if first ^^^ c ≠ 0 then i else runEnd first rest (i + 1)

def skipsRun (mem : Token) : Bool :=
  runEnd (cell mem 0) mem.tail 1 = mem.length || mem.length > maxAutoExtra

/-- A `u16` compared with a `s16` is compared as an `int`; `SWAP16` and the cast of the longer
values make the table unsigned. -/
def isBuiltin (mem : Token) : Bool :=
  (mem.length = 2 && interesting16.any fun v =>
    loadWord 2 mem 0 = v || loadWord 2 mem 0 = swap16 v) ||
  (mem.length = 4 && interesting32.any fun v =>
    loadWord 4 mem 0 = castU 4 v || loadWord 4 mem 0 = swap32 v)

/-- The two loops over `extras`, to the first token that is not shorter and along those of the
same length. -/
def matchesExtra (extras : List Token) (mem : Token) : Bool :=
  ((extras.dropWhile fun extra => extra.length < mem.length).takeWhile
    fun extra => extra.length = mem.length).any fun extra => !memcmpNocase mem.length extra mem

/-- Whether the token gets as far as `a_extras`. -/
def passes (extras : List Token) (mem : Token) : Bool :=
  !skipsRun mem && !isBuiltin mem && !matchesExtra extras mem

def matchesAuto (mem : Token) (entry : AutoExtra) : Bool :=
  entry.data.length = mem.length && !memcmpNocase mem.length entry.data mem

/-- `compare_auto_extras_use_d`: the difference of two `u32` taken as an `int`. -/
abbrev UseSort := Qsort fun a b : AutoExtra => (b.hitCnt - a.hitCnt).toInt ≤ 0

/-- `compare_auto_extras_len`. -/
abbrev AutoLengthSort := Qsort fun a b : AutoExtra => a.data.length ≤ b.data.length

/-- A call, with the random number for an eviction and what the two `qsort` make of entries that
compare equal. -/
structure AutoCall where
  mem : Token
  rand : Fin ((maxAutoExtras + 1) / 2)
  useSort : UseSort
  lengthSort : AutoLengthSort

/-- Counts a known token, appends a new one to entries that have never been used, or evicts. -/
def record (call : AutoCall) (aExtras : List AutoExtra) : List AutoExtra :=
  match aExtras.findIdx? (matchesAuto call.mem) with
  | some i => aExtras.modify i fun entry => { entry with hitCnt := entry.hitCnt + 1 }
  | none =>
    if aExtras.length < maxAutoExtras then aExtras ++ [⟨call.mem, 0⟩]
    else aExtras.set (maxAutoExtras / 2 + call.rand) ⟨call.mem, 0⟩

def sortAutoExtras (call : AutoCall) (aExtras : List AutoExtra) : List AutoExtra :=
  let byUse := call.useSort.sort aExtras
  let top := min useAutoExtras aExtras.length
  call.lengthSort.sort (byUse.take top) ++ byUse.drop top

def maybeAddAuto (extras : List Token) (s : AutoDictionary) (call : AutoCall) : AutoDictionary :=
  if passes extras call.mem then
    { aExtras := sortAutoExtras call (record call s.aExtras), autoChanged := true }
  else s

def maybeAddAutos (extras : List Token) (calls : List AutoCall) (s : AutoDictionary) :
    AutoDictionary :=
  calls.foldl (maybeAddAuto extras) s

/-! ## What the entries are to be -/

/-- Of the same length, and the same bytes but for the case of letters. -/
def AgreesNocase (a b : Token) : Prop := a.map tolower = b.map tolower

instance (a b : Token) : Decidable (AgreesNocase a b) :=
  inferInstanceAs (Decidable (a.map tolower = b.map tolower))

/-- A run of one byte. -/
def IsRun (mem : Token) : Prop := ∃ c n, mem = List.replicate (n + 1) c

/-- A word equal to an interesting value of its width in either byte order. -/
def IsInteresting (mem : Token) : Prop :=
  (mem.length = 2 ∧ ∃ v ∈ interesting16, ∃ be, loadWord 2 mem 0 = ordered be 2 v) ∨
  (mem.length = 4 ∧ ∃ v ∈ interesting32, ∃ be, loadWord 4 mem 0 = ordered be 4 v)

/-- Each entry by itself. -/
structure EntryKept (extras : List Token) (entry : AutoExtra) : Prop where
  foreign : ∀ extra ∈ extras, ¬ AgreesNocase entry.data extra
  no_run : ¬ IsRun entry.data
  no_interesting : ¬ IsInteresting entry.data

def Distinct (aExtras : List AutoExtra) : Prop :=
  aExtras.Pairwise fun a b => ¬ AgreesNocase a.data b.data

/-- The entries that are used: the most used ones, sorted by length. -/
structure TopSorted (aExtras : List AutoExtra) : Prop where
  by_length : (aExtras.take (min useAutoExtras aExtras.length)).Pairwise
    fun a b => a.data.length ≤ b.data.length
  most_used : ∀ a ∈ aExtras.take (min useAutoExtras aExtras.length),
    ∀ b ∈ aExtras.drop (min useAutoExtras aExtras.length), b.hitCnt ≤ a.hitCnt

structure AutoKept (extras : List Token) (aExtras : List AutoExtra) : Prop where
  count : aExtras.length ≤ maxAutoExtras
  distinct : Distinct aExtras
  entries : ∀ entry ∈ aExtras, EntryKept extras entry
  top : TopSorted aExtras

/-- -128 in two bytes as they stand in memory, the one interesting value that the comparison of
unsigned and signed words misses. -/
def minus128 : Token := [0x80, 0xff]

/-- A call that is rejected, or else neither passes -128 nor counts a token more often than the
comparison of use counts can tell. -/
def Safe (extras : List Token) (s : AutoDictionary) (call : AutoCall) : Prop :=
  passes extras call.mem = true →
    call.mem ≠ minus128 ∧
      ∀ entry ∈ s.aExtras, AgreesNocase entry.data call.mem → entry.hitCnt.toNat + 1 < 2 ^ 31

/-- Every call of a run is one of these. -/
def AllSafe (extras : List Token) : List AutoCall → AutoDictionary → Prop
  | [], _ => True
  | call :: calls, s => Safe extras s call ∧ AllSafe extras calls (maybeAddAuto extras s call)

/-! ## The filters -/

theorem memcmpNocase_iff {len : Nat} {a b : Token} (first : a.length = len)
    (second : b.length = len) : memcmpNocase len a b = false ↔ AgreesNocase a b := by
  induction len generalizing a b with
  | zero =>
    rw [List.eq_nil_of_length_eq_zero first, List.eq_nil_of_length_eq_zero second]
    simp [memcmpNocase, AgreesNocase]
  | succ len ih =>
    match a, b with
    | c :: a, d :: b =>
      have rest := ih (Nat.succ.inj first) (Nat.succ.inj second)
      simp only [AgreesNocase] at rest ⊢
      rw [memcmpNocase, List.map_cons, List.map_cons, List.cons.injEq, ← rest]
      simp [cell]

theorem AgreesNocase.length_eq {a b : Token} (agree : AgreesNocase a b) : a.length = b.length := by
  have := congrArg List.length agree
  simpa using this

theorem AgreesNocase.symm {a b : Token} (agree : AgreesNocase a b) : AgreesNocase b a :=
  Eq.symm agree

theorem runEnd_iff {first : Byte} {rest : List Byte} {i : Nat} :
    runEnd first rest i = i + rest.length ↔ ∀ c ∈ rest, c = first := by
  have le : ∀ (rest : List Byte) (i : Nat), runEnd first rest i ≤ i + rest.length := by
    intro rest
    induction rest with
    | nil => exact fun i => Nat.le_refl _
    | cons c rest ih =>
      intro i
      rw [runEnd, List.length_cons]
      split
      · omega
      · have := ih (i + 1)
        omega
  induction rest generalizing i with
  | nil => simp [runEnd]
  | cons c rest ih =>
    rw [runEnd, List.length_cons, List.forall_mem_cons]
    split
    next differ =>
      refine ⟨fun impossible => by omega, fun ⟨same, _⟩ => absurd ?_ differ⟩
      simp [same]
    next equal =>
      have same : c = first := by
        exact (BitVec.xor_eq_zero_iff.mp (not_not.mp equal)).symm
      have later := @ih (i + 1)
      rw [Nat.add_assoc, Nat.add_comm 1] at later
      exact later.trans (by simp [same])

theorem skipsRun_of_isRun {mem : Token} (run : IsRun mem) : skipsRun mem = true := by
  obtain ⟨c, n, rfl⟩ := run
  rw [skipsRun, Bool.or_eq_true, decide_eq_true_eq]
  refine .inl ?_
  have same : ∀ d ∈ List.replicate n c, d = c := fun d member => List.eq_of_mem_replicate member
  have ends := (@runEnd_iff c _ 1).mpr same
  simpa [cell, List.replicate_succ, Nat.add_comm] using ends

theorem matchesAuto_iff {mem : Token} {entry : AutoExtra} :
    matchesAuto mem entry = true ↔ AgreesNocase entry.data mem := by
  rw [matchesAuto, Bool.and_eq_true, decide_eq_true_eq, Bool.not_eq_true']
  constructor
  · rintro ⟨size, same⟩
    exact (memcmpNocase_iff size rfl).mp same
  · intro agree
    exact ⟨agree.length_eq, (memcmpNocase_iff agree.length_eq rfl).mpr agree⟩

private theorem mem_dropWhile_of {p : Token → Bool} {extras : List Token} {extra : Token}
    (member : extra ∈ extras) (stays : p extra = false) : extra ∈ extras.dropWhile p := by
  induction extras with
  | nil => exact absurd member List.not_mem_nil
  | cons first extras ih =>
    rw [List.dropWhile_cons]
    split
    next dropped =>
      rcases List.mem_cons.mp member with rfl | member
      · exact absurd (stays.symm.trans dropped) (by decide)
      · exact ih member
    next => exact member

/-- The first loop drops what is shorter. -/
private theorem length_le_of_mem_dropWhile {n : Nat} {extras : List Token}
    (sorted : SortedByLength extras) :
    ∀ extra ∈ extras.dropWhile fun extra => extra.length < n, n ≤ extra.length := by
  induction extras with
  | nil => exact fun _ member => absurd member List.not_mem_nil
  | cons first extras ih =>
    obtain ⟨least, later⟩ := List.pairwise_cons.mp sorted
    intro extra member
    rw [List.dropWhile_cons] at member
    split at member
    next => exact ih later extra member
    next reached =>
      simp only [decide_eq_true_eq, Nat.not_lt] at reached
      rcases List.mem_cons.mp member with rfl | member
      · exact reached
      · exact Nat.le_trans reached (least extra member)

/-- The second loop comes by all that are no longer. -/
private theorem mem_takeWhile_of {n : Nat} {extras : List Token} {extra : Token}
    (sorted : SortedByLength extras) (least : ∀ extra ∈ extras, n ≤ extra.length)
    (member : extra ∈ extras) (size : extra.length = n) :
    extra ∈ extras.takeWhile fun extra => extra.length = n := by
  induction extras with
  | nil => exact absurd member List.not_mem_nil
  | cons first extras ih =>
    obtain ⟨first_least, later⟩ := List.pairwise_cons.mp sorted
    have first_size : first.length = n := by
      have low := least first List.mem_cons_self
      rcases List.mem_cons.mp member with rfl | member
      · exact size
      · have := first_least extra member
        omega
    rw [List.takeWhile_cons_of_pos (by simpa using first_size)]
    rcases List.mem_cons.mp member with rfl | member
    · exact List.mem_cons_self
    · exact List.mem_cons_of_mem _
        (ih later (fun other there => least other (List.mem_cons_of_mem _ there)) member)

/-- The loops over sorted tokens miss no token of the length of `mem`. -/
theorem matchesExtra_of_agrees {extras : List Token} {mem extra : Token}
    (sorted : SortedByLength extras) (member : extra ∈ extras) (agree : AgreesNocase mem extra) :
    matchesExtra extras mem = true := by
  have size : extra.length = mem.length := agree.length_eq.symm
  have same : (!memcmpNocase mem.length extra mem) = true := by
    rw [Bool.not_eq_true', memcmpNocase_iff size rfl]
    exact agree.symm
  have reached : extra ∈ extras.dropWhile fun extra => extra.length < mem.length :=
    mem_dropWhile_of member (by simp [size])
  rw [matchesExtra, List.any_eq_true]
  exact ⟨extra, mem_takeWhile_of (sorted.sublist (List.dropWhile_sublist _))
    (length_le_of_mem_dropWhile sorted) reached size, same⟩

end Swam.Afl.AutoTokens
