import Swam.Afl.DictionaryFile
import Mathlib.Data.List.TakeWhile

/-!
# The lines of a dictionary file

The form of a line as a structure of its parts, and the grammar of the literals. The scanner takes
a line if it has this form and its level is not too high, and finds the literal.
-/
namespace Swam.Afl.DictionaryFile

open AutoTokens (tolower)

/-! ## The form of a line -/

def levelText : Option (List Byte) → List Byte
  | none => []
  | some digits => 0x40 :: digits

/-- The closing bracket may be missing. -/
def indexText : Option (List Byte × Bool) → List Byte
  | none => []
  | some (digits, closed) => 0x5b :: (digits ++ if closed then [0x5d] else [])

/-- `name@level[index]="literal"` with space around it. Every part in front of the opening quote
may be missing. -/
structure Entry where
  indent : List Byte
  name : List Byte
  level : Option (List Byte)
  index : Option (List Byte × Bool)
  separator : List Byte
  literal : List Byte
  trail : List Byte
  indent_space : ∀ c ∈ indent, isspace c = true
  name_label : ∀ c ∈ name, isLabel c = true
  level_digits : ∀ digits ∈ level, ∀ c ∈ digits, isdigit c = true
  index_digits : ∀ index' ∈ index, ∀ c ∈ index'.1, isdigit c = true
  separator_only : ∀ c ∈ separator, isSeparator c = true
  trail_space : ∀ c ∈ trail, isspace c = true

namespace Entry

/-- From the name to the literal. -/
def body (e : Entry) : List Byte :=
  e.name ++ (levelText e.level ++ (indexText e.index ++ (e.separator ++ quote :: e.literal)))

def line (e : Entry) : List Byte := e.indent ++ (e.body ++ quote :: e.trail)

/-- The level, if there is one, is no higher than that of the dictionary. -/
def Admitted (e : Entry) (dictLevel : BitVec 32) : Prop :=
  ∀ digits ∈ e.level, (digitsValue digits : Int) ≤ dictLevel.toInt

/-- The level is a number of type `int` and higher. -/
def TooHigh (e : Entry) (dictLevel : BitVec 32) : Prop :=
  ∃ digits, e.level = some digits ∧ digitsValue digits < 2 ^ 31 ∧
    dictLevel.toInt < digitsValue digits

end Entry

/-- The value of a hexadecimal digit. -/
def hexValue (c : Byte) : Nat :=
  if isdigit c then c.toNat - 0x30 else if c.toNat < 0x61 then c.toNat - 0x37 else c.toNat - 0x57

/-- A literal of printable characters and the escapes, and its bytes. -/
inductive Spells : List Byte → Token → Prop
  | nil : Spells [] []
  | plain {c : Byte} {rest : List Byte} {token : Token} (printable : 0x20 ≤ c ∧ c ≤ 0x7e)
    (other : c ≠ backslash) (spells : Spells rest token) : Spells (c :: rest) (c :: token)
  | escaped {c : Byte} {rest : List Byte} {token : Token} (special : c = backslash ∨ c = quote)
    (spells : Spells rest token) : Spells (backslash :: c :: rest) (c :: token)
  | hex {high low : Byte} {rest : List Byte} {token : Token} (first : isxdigit high = true)
    (second : isxdigit low = true) (spells : Spells rest token) :
    Spells (backslash :: 0x78 :: high :: low :: rest)
      (BitVec.ofNat 8 (16 * hexValue high + hexValue low) :: token)

/-! ## Literals -/

private theorem hexdigit_value (c : Byte) : isxdigit c = true →
    hexdigits.idxOf (tolower c) = hexValue c ∧ hexValue c < 16 := by
  revert c
  decide

private theorem shifted_or (i j : Nat) : i < 16 → j < 16 → i * 16 ||| j = 16 * i + j := by
  have rows : ∀ i < 16, ∀ j < 16, i * 16 ||| j = 16 * i + j := by decide
  exact fun first => rows i first j

theorem hexByte_eq {high low : Byte} (first : isxdigit high = true) (second : isxdigit low = true) :
    hexByte high low = BitVec.ofNat 8 (16 * hexValue high + hexValue low) := by
  obtain ⟨high_eq, high_small⟩ := hexdigit_value high first
  obtain ⟨low_eq, low_small⟩ := hexdigit_value low second
  rw [hexByte, high_eq, low_eq, shifted_or _ _ high_small low_small]

private theorem not_skipped_of_printable {c : Byte} (printable : 0x20 ≤ c ∧ c ≤ 0x7e) :
    isSkipped c = false := by
  obtain ⟨low, high⟩ := printable
  simp only [isSkipped, BitVec.le_def, Bool.or_eq_false_iff, Bool.and_eq_false_iff,
    decide_eq_false_iff_not] at low high ⊢
  simp at low high ⊢
  omega

theorem unescape_of_spells {literal : List Byte} {token : Token} (spells : Spells literal token) :
    unescape literal = token := by
  induction spells with
  | nil => rfl
  | plain printable other _ ih =>
    rw [unescape.eq_def]
    simp only [not_skipped_of_printable printable, ih]
    simp [other]
  | escaped special _ ih =>
    rw [unescape.eq_def]
    simp only [show isSkipped backslash = false from by decide, special, ih]
    simp
  | hex first second _ ih =>
    rw [unescape.eq_def]
    simp only [show isSkipped backslash = false from by decide, first, second, ih,
      hexByte_eq first second]
    simp [show ¬ (0x78#8 = backslash ∨ 0x78#8 = quote) from by decide]

/-- A printable character other than the backslash ends up in the token. -/
theorem unescape_ne_nil {text : List Byte} {c : Byte} (member : c ∈ text)
    (printable : 0x20 ≤ c ∧ c ≤ 0x7e) (other : c ≠ backslash) : unescape text ≠ [] := by
  -- a dropped backslash is not the character
  have behind {first : Byte} {rest : List Byte} (dropped : ¬ first ≠ backslash)
      (member : c ∈ first :: rest) : c ∈ rest := by
    rcases List.mem_cons.mp member with rfl | member
    · exact absurd other dropped
    · exact member
  fun_induction unescape text with
  | case1 => exact absurd member List.not_mem_nil
  | case2 first rest skipped ih =>
    rcases List.mem_cons.mp member with rfl | member
    · exact absurd skipped (by simp [not_skipped_of_printable printable])
    · exact ih member
  | case3 => simp
  | case4 first _ dropped => exact absurd (behind dropped member) List.not_mem_nil
  | case5 => simp
  | case6 => simp
  | case7 first _ dropped d _ high low after _ ih => exact ih (behind dropped member)
  | case8 first _ dropped d _ e ih => exact ih (behind dropped member)
  | case9 first _ dropped d _ ih => exact ih (behind dropped member)

/-! ## Scanning a line of the form -/

private theorem dropWhile_stop {p : Byte → Bool} {xs ys : List Byte} (all : ∀ c ∈ xs, p c = true)
    (stop : ∀ c ∈ ys.head?, p c = false) : (xs ++ ys).dropWhile p = ys := by
  rw [List.dropWhile_append_of_pos all]
  cases ys with
  | nil => rfl
  | cons c ys => rw [List.dropWhile_cons_of_neg (by simp [stop c rfl])]

/-- Where the separator begins, every part in front of it has ended. -/
theorem separator_ends (c : Byte) : isSeparator c = true ∨ c = quote →
    isLabel c = false ∧ isdigit c = false ∧ c ≠ 0x40 ∧ c ≠ 0x5b ∧ c ≠ 0x5d ∧ c ≠ 0x23 ∧
      c ≠ 0x2d ∧ c ≠ 0x2b := by
  revert c
  decide

theorem label_kind (c : Byte) : isLabel c = true → isspace c = false ∧ c ≠ 0x23 := by
  revert c
  decide

private theorem digit_kind (c : Byte) : isdigit c = true →
    isspace c = false ∧ c ≠ 0x2d ∧ c ≠ 0x2b := by
  revert c
  decide

namespace Entry
variable (e : Entry) {dictLevel : BitVec 32}

def afterIndex : List Byte := e.separator ++ quote :: e.literal

def afterLevel : List Byte := indexText e.index ++ e.afterIndex

theorem head_afterIndex : ∀ c ∈ e.afterIndex.head?, isSeparator c = true ∨ c = quote := by
  intro c head
  rw [afterIndex] at head
  cases separator : e.separator with
  | nil =>
    rw [separator] at head
    exact .inr (by simpa using Eq.symm head)
  | cons d rest =>
    rw [separator] at head
    have only := e.separator_only d (separator ▸ List.mem_cons_self)
    obtain rfl : d = c := by simpa using head
    exact .inl only

theorem skipIndex_afterLevel : skipIndex e.afterLevel = e.afterIndex := by
  rw [afterLevel, skipIndex]
  cases index : e.index with
  | none =>
    rw [indexText, List.nil_append, if_neg]
    intro open_bracket
    exact (separator_ends _ (e.head_afterIndex _ open_bracket)).2.2.2.1 rfl
  | some index' =>
    obtain ⟨digits, closed⟩ := index'
    have numbers := e.index_digits (digits, closed) (index ▸ rfl)
    rw [indexText, if_pos (by simp), List.cons_append, List.tail_cons, List.append_assoc]
    cases closed with
    | true =>
      rw [if_pos rfl, List.singleton_append, dropWhile_stop numbers (by simp [isdigit])]
      simp
    | false =>
      simp only [Bool.false_eq_true, if_false, List.nil_append]
      rw [dropWhile_stop numbers fun c head =>
        (separator_ends c (e.head_afterIndex c head)).2.1, if_neg]
      intro closing_bracket
      exact (separator_ends _ (e.head_afterIndex _ closing_bracket)).2.2.2.2.1 rfl

theorem head_afterLevel : ∀ c ∈ e.afterLevel.head?, c = 0x5b ∨ isSeparator c = true ∨ c = quote := by
  intro c head
  rw [afterLevel] at head
  cases index : e.index with
  | none =>
    rw [index, indexText, List.nil_append] at head
    exact .inr (e.head_afterIndex c head)
  | some index' =>
    rw [index, indexText] at head
    exact .inl (by simpa using Eq.symm head)

/-- The entry without the space that its separator begins with. -/
def respaced : Entry :=
  { e with
    separator := e.separator.dropWhile isspace
    separator_only := fun c member =>
      e.separator_only c ((List.dropWhile_sublist isspace).subset member) }

theorem dropSpace_afterIndex : e.afterIndex.dropWhile isspace = e.respaced.afterIndex := by
  show (e.separator ++ quote :: e.literal).dropWhile isspace =
    e.separator.dropWhile isspace ++ quote :: e.literal
  induction e.separator with
  | nil => rfl
  | cons c rest ih =>
    rw [List.cons_append, List.dropWhile_cons, List.dropWhile_cons]
    split
    · exact ih
    · rfl

theorem head_dropSpace_afterLevel : ∀ c ∈ (e.afterLevel.dropWhile isspace).head?,
    c = 0x5b ∨ isSeparator c = true ∨ c = quote := by
  intro c head
  rw [afterLevel] at head
  cases index : e.index with
  | none =>
    rw [index, indexText, List.nil_append, dropSpace_afterIndex] at head
    exact .inr (e.respaced.head_afterIndex c head)
  | some index' =>
    rw [index, indexText, List.cons_append, List.dropWhile_cons_of_neg (by decide)] at head
    exact .inl (by simpa using Eq.symm head)

end Entry

theorem atoi_eq {s digits : List Byte}
    (unsigned : ∀ c ∈ (s.dropWhile isspace).head?, c ≠ 0x2d ∧ c ≠ 0x2b)
    (taken : (s.dropWhile isspace).takeWhile isdigit = digits)
    (fits : digitsValue digits < 2 ^ 31) : atoi s = digitsValue digits := by
  have minus : (s.dropWhile isspace).head? ≠ some 0x2d := fun head =>
    (unsigned _ head).1 rfl
  have plus : (s.dropWhile isspace).head? ≠ some 0x2b := fun head =>
    (unsigned _ head).2 rfl
  simp only [atoi, minus, plus, or_self, if_false, taken]
  rw [Int.min_eq_right (by omega), Int.max_eq_right (by omega),
    BitVec.toInt_ofInt_eq_self (by decide) (by omega) (by omega)]

namespace Entry
variable (e : Entry) {dictLevel : BitVec 32}

/-- The level is read as a number, up to the bounds of an `int`. -/
theorem atoi_level {digits : List Byte} (numbers : ∀ c ∈ digits, isdigit c = true)
    (fits : digitsValue digits < 2 ^ 31) : atoi (digits ++ e.afterLevel) = digitsValue digits := by
  have not_number (c : Byte) (kind : c = 0x5b ∨ isSeparator c = true ∨ c = quote) :
      isdigit c = false ∧ c ≠ 0x2d ∧ c ≠ 0x2b := by
    rcases kind with rfl | separator
    · decide
    · obtain ⟨_, stop, _, _, _, _, unsigned⟩ := separator_ends c separator
      exact ⟨stop, unsigned⟩
  have none_taken {s : List Byte}
      (heads : ∀ c ∈ s.head?, c = 0x5b ∨ isSeparator c = true ∨ c = quote) :
      s.takeWhile isdigit = [] := by
    cases s with
    | nil => rfl
    | cons c rest => simp [(not_number c (heads c rfl)).1]
  cases digits with
  | nil =>
    refine atoi_eq (fun c head => (not_number c (e.head_dropSpace_afterLevel c head)).2) ?_ fits
    exact none_taken e.head_dropSpace_afterLevel
  | cons d digits =>
    obtain ⟨no_space, unsigned⟩ := digit_kind d (numbers d List.mem_cons_self)
    have stays : (d :: digits ++ e.afterLevel).dropWhile isspace = d :: digits ++ e.afterLevel := by
      rw [List.cons_append, List.dropWhile_cons_of_neg (by simp [no_space])]
    refine atoi_eq ?_ ?_ fits
    · rw [stays]
      intro c head
      obtain rfl : d = c := by simpa using head
      exact unsigned
    · rw [stays, List.takeWhile_append_of_pos numbers, none_taken e.head_afterLevel,
        List.append_nil]

theorem skipLevel_level : skipLevel dictLevel (levelText e.level ++ e.afterLevel) =
    if ∃ digits ∈ e.level, atoi (digits ++ e.afterLevel) > dictLevel.toInt then none
    else some e.afterLevel := by
  cases level : e.level with
  | none =>
    have no_level : e.afterLevel.head? ≠ some 0x40 := by
      intro head
      rcases e.head_afterLevel _ head with impossible | separator
      · exact absurd impossible (by decide)
      · exact (separator_ends _ separator).2.2.1 rfl
    rw [levelText, List.nil_append, skipLevel, if_neg no_level, if_neg (by simp)]
  | some digits =>
    have numbers := e.level_digits digits level
    have stop : ∀ c ∈ e.afterLevel.head?, isdigit c = false := by
      intro c head
      rcases e.head_afterLevel c head with rfl | separator
      · decide
      · exact (separator_ends c separator).2.1
    rw [levelText, skipLevel, if_pos (by simp), List.cons_append, List.tail_cons,
      dropWhile_stop numbers stop]
    simp

/-- The scanner on what is left of a line between its indent and its closing quote. -/
theorem afterQuote_body : afterQuote dictLevel e.body =
    if ∃ digits ∈ e.level, atoi (digits ++ e.afterLevel) > dictLevel.toInt then none
    else if e.literal = [] then none else some e.literal := by
  have no_label : ∀ c ∈ (levelText e.level ++ e.afterLevel).head?, isLabel c = false := by
    intro c head
    cases level : e.level with
    | none =>
      rw [level, levelText, List.nil_append] at head
      rcases e.head_afterLevel c head with rfl | separator
      · decide
      · exact (separator_ends c separator).1
    | some digits =>
      rw [level, levelText] at head
      obtain rfl : 0x40 = c := by simpa using head
      decide
  have separated : e.afterIndex.dropWhile isSeparator = quote :: e.literal :=
    dropWhile_stop e.separator_only (by simp [show isSeparator quote = false from by decide])
  have name_done : e.body.dropWhile isLabel = levelText e.level ++ e.afterLevel :=
    dropWhile_stop e.name_label no_label
  rw [afterQuote, name_done, skipLevel_level]
  split
  · rfl
  · simp [skipIndex_afterLevel, separated]

end Entry

/-! ## What the scanner takes -/

private theorem skipLevel_some {dictLevel : BitVec 32} {s rest : List Byte}
    (scanned : skipLevel dictLevel s = some rest) :
    ∃ level, (∀ digits ∈ level, ∀ c ∈ digits, isdigit c = true) ∧ s = levelText level ++ rest := by
  rw [skipLevel] at scanned
  split at scanned
  next head =>
    obtain ⟨tail, rfl⟩ := List.head?_eq_some_iff.mp head
    split at scanned
    · exact nomatch scanned
    · obtain rfl := Option.some.inj scanned
      refine ⟨some (tail.takeWhile isdigit), ?_, by simp [levelText]⟩
      intro digits here c member
      obtain rfl := Option.some.inj here
      exact List.mem_takeWhile_imp member
  next =>
    obtain rfl := Option.some.inj scanned
    exact ⟨none, nofun, rfl⟩

private theorem skipIndex_split (s : List Byte) :
    ∃ index : Option (List Byte × Bool), (∀ index' ∈ index, ∀ c ∈ index'.1, isdigit c = true) ∧
      s = indexText index ++ skipIndex s := by
  rw [skipIndex]
  split
  next head =>
    obtain ⟨tail, rfl⟩ := List.head?_eq_some_iff.mp head
    have numbers : ∀ c ∈ tail.takeWhile isdigit, isdigit c = true := fun c member =>
      List.mem_takeWhile_imp member
    rw [List.tail_cons]
    by_cases closing : (tail.dropWhile isdigit).head? = some 0x5d
    · obtain ⟨after, stopped⟩ := List.head?_eq_some_iff.mp closing
      have split := @List.takeWhile_append_dropWhile _ isdigit tail
      refine ⟨some (tail.takeWhile isdigit, true), by simpa using numbers, ?_⟩
      rw [stopped] at split
      rw [if_pos closing, stopped, List.tail_cons, indexText, if_pos rfl, List.cons_append,
        List.append_assoc, List.singleton_append, split]
    · refine ⟨some (tail.takeWhile isdigit, false), by simpa using numbers, ?_⟩
      rw [if_neg closing]
      simp [indexText]
  next => exact ⟨none, nofun, rfl⟩

/-- Whatever the scanner takes is the body of an entry. -/
theorem afterQuote_sound {dictLevel : BitVec 32} {s text : List Byte}
    (scanned : afterQuote dictLevel s = some text) {indent trail : List Byte}
    (indent_space : ∀ c ∈ indent, isspace c = true) (trail_space : ∀ c ∈ trail, isspace c = true) :
    ∃ e : Entry, e.indent = indent ∧ e.trail = trail ∧ e.body = s ∧ e.literal = text ∧
      text ≠ [] := by
  rw [afterQuote] at scanned
  obtain ⟨rest, leveled, scanned⟩ := Option.bind_eq_some_iff.mp scanned
  obtain ⟨level, level_digits, level_split⟩ := skipLevel_some leveled
  obtain ⟨index, index_digits, index_split⟩ := skipIndex_split rest
  simp only at scanned
  split at scanned
  next => exact nomatch scanned
  next taken =>
    rw [not_or, ne_eq, not_not] at taken
    obtain ⟨text', opened⟩ := List.head?_eq_some_iff.mp taken.1
    rw [opened] at scanned taken
    obtain rfl : text' = text := by simpa using scanned
    refine ⟨⟨indent, s.takeWhile isLabel, level, index, (skipIndex rest).takeWhile isSeparator,
      text', trail, indent_space, fun c member => List.mem_takeWhile_imp member, level_digits,
      index_digits, fun c member => List.mem_takeWhile_imp member, trail_space⟩, rfl, rfl, ?_, rfl,
      by simpa using taken.2⟩
    rw [Entry.body, ← opened, List.takeWhile_append_dropWhile, ← index_split, ← level_split,
      List.takeWhile_append_dropWhile]

end Swam.Afl.DictionaryFile
