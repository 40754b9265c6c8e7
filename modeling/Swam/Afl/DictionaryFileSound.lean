import Swam.Afl.DictionaryLines

/-!
# What a dictionary file adds

`load_extras_file` adds at most one token for each line, in the order of the lines: the literal of
a line of the right form whose level is not too high. Its buffer is large enough for a line, and a
line break that did not fit is read as an empty line.
-/
namespace Swam.Afl.DictionaryFile

/-! ## One line -/

private theorem mem_of_takeWhile_text {line : List Byte} (text : 0 ∉ line) :
    line.takeWhile (· ≠ 0) = line := by
  rw [List.takeWhile_eq_self_iff]
  intro c member
  have : c ≠ 0 := fun zero => text (zero ▸ member)
  simpa using this

/-- Trimming a line that ends with its closing quote. -/
private theorem trim_quote {line indent body trail : List Byte} (text : 0 ∉ line)
    (parts : line = indent ++ (body ++ quote :: trail)) (indent_space : ∀ c ∈ indent, isspace c = true)
    (trail_space : ∀ c ∈ trail, isspace c = true) (some_body : body.dropWhile isspace ≠ []) :
    trim line = body.dropWhile isspace ++ [quote] := by
  have left : line.dropWhile isspace = body.dropWhile isspace ++ quote :: trail := by
    rw [parts, List.dropWhile_append_of_pos indent_space, List.dropWhile_append,
      if_neg (by simpa using some_body)]
  have right : (trail.reverse ++ quote :: (body.dropWhile isspace).reverse).dropWhile isspace =
      quote :: (body.dropWhile isspace).reverse := by
    rw [List.dropWhile_append_of_pos fun c member => trail_space c (List.mem_reverse.mp member),
      List.dropWhile_cons_of_neg (by decide)]
  rw [trim, mem_of_takeWhile_text text, left]
  simp only [List.reverse_append, List.reverse_cons, List.append_assoc, List.singleton_append,
    right]
  simp

namespace Entry
variable (e : Entry) {dictLevel : BitVec 32}

theorem body_ne_nil : e.body ≠ [] := by
  simp [body]

theorem head_body : ∀ c ∈ e.body.head?, c ≠ 0x23 := by
  intro c head
  rw [body, ← afterIndex, ← afterLevel] at head
  cases name : e.name with
  | cons d rest =>
    rw [name] at head
    obtain rfl : d = c := by simpa using head
    exact (label_kind d (e.name_label d (name ▸ List.mem_cons_self))).2
  | nil =>
    cases level : e.level with
    | none =>
      rw [name, level, levelText, List.nil_append, List.nil_append] at head
      rcases e.head_afterLevel c head with rfl | separator
      · decide
      · exact (separator_ends c separator).2.2.2.2.2.1
    | some digits =>
      rw [name, level, levelText] at head
      obtain rfl : 0x40 = c := by simpa using head
      decide

/-- Trimming on the left may reach into the separator of an entry that has nothing else. -/
theorem dropSpace_body : ∃ e' : Entry, e'.level = e.level ∧ e'.literal = e.literal ∧
    e.body.dropWhile isspace = e'.body := by
  have kept (c : Byte) (rest : List Byte) (start : e.body = c :: rest) (no_space : isspace c = false) :
      e.body.dropWhile isspace = e.body := by
    rw [start, List.dropWhile_cons_of_neg (by simp [no_space])]
  cases name : e.name with
  | cons c rest =>
    have label := (label_kind c (e.name_label c (name ▸ List.mem_cons_self))).1
    exact ⟨e, rfl, rfl, kept c _ (by rw [body, name]; rfl) label⟩
  | nil =>
    cases level : e.level with
    | some digits => exact ⟨e, level, rfl, kept 0x40 _ (by rw [body, name, level]; rfl) rfl⟩
    | none =>
      cases index : e.index with
      | some index' =>
        exact ⟨e, level, rfl, kept 0x5b _ (by rw [body, name, level, index]; rfl) rfl⟩
      | none =>
        refine ⟨e.respaced, level, rfl, ?_⟩
        have only : e.body = e.afterIndex := by
          rw [body, name, level, index]
          rfl
        have only' : e.respaced.body = e.respaced.afterIndex := by
          show e.name ++ (levelText e.level ++ (indexText e.index ++ _)) = _
          rw [name, level, index]
          rfl
        rw [only, only', dropSpace_afterIndex]

/-- The scanner gets to the literal of an entry, or stops at its level. -/
theorem quoted_line (text : 0 ∉ e.line) : ∃ e' : Entry, e'.level = e.level ∧
    e'.literal = e.literal ∧ quoted dictLevel e.line = afterQuote dictLevel e'.body := by
  obtain ⟨e', level, literal, dropped⟩ := e.dropSpace_body
  have trimmed := trim_quote text rfl e.indent_space e.trail_space (dropped ▸ e'.body_ne_nil)
  rw [dropped] at trimmed
  refine ⟨e', level, literal, ?_⟩
  have head : (e'.body ++ [quote]).head? = e'.body.head? := by
    rw [List.head?_append_of_ne_nil _ e'.body_ne_nil]
  have no_comment : ¬ (e'.body ++ [quote] = [] ∨ (e'.body ++ [quote]).head? = some 0x23) := by
    rw [head]
    rintro (empty | comment)
    · exact absurd empty (by simp)
    · exact e'.head_body _ comment rfl
  rw [quoted, trimmed]
  simp only [no_comment, if_false, List.getLast?_append, List.dropLast_concat]
  simp

theorem quoted_admitted (text : 0 ∉ e.line) (admitted : e.Admitted dictLevel)
    (some_literal : e.literal ≠ []) : quoted dictLevel e.line = some e.literal := by
  obtain ⟨e', level, literal, found⟩ := @quoted_line e dictLevel text
  have low : ¬ ∃ digits ∈ e'.level, atoi (digits ++ e'.afterLevel) > dictLevel.toInt := by
    rintro ⟨digits, here, high⟩
    have numbers := e'.level_digits digits here
    have fits := admitted digits (level ▸ here)
    have := @BitVec.toInt_lt _ dictLevel
    rw [e'.atoi_level numbers (by omega)] at high
    omega
  rw [found, e'.afterQuote_body, if_neg low, if_neg (literal ▸ some_literal), literal]

theorem quoted_refused (text : 0 ∉ e.line) (tooHigh : e.TooHigh dictLevel) :
    quoted dictLevel e.line = none := by
  obtain ⟨digits, level, fits, high⟩ := tooHigh
  obtain ⟨e', level', _, found⟩ := @quoted_line e dictLevel text
  have here : digits ∈ e'.level := level'.trans level
  rw [found, e'.afterQuote_body, if_pos]
  exact ⟨digits, here, by rw [e'.atoi_level (e'.level_digits digits here) fits]; exact high⟩

theorem literal_of_quoted {taken : List Byte} (text : 0 ∉ e.line)
    (quotes : quoted dictLevel e.line = some taken) : taken = e.literal := by
  obtain ⟨e', _, literal, found⟩ := @quoted_line e dictLevel text
  rw [found, e'.afterQuote_body] at quotes
  split at quotes
  · exact nomatch quotes
  · split at quotes
    · exact nomatch quotes
    · exact (Option.some.inj quotes).symm.trans literal

end Entry

/-- A line that is taken is an entry. -/
theorem quoted_sound {dictLevel : BitVec 32} {line taken : List Byte} (text : 0 ∉ line)
    (quotes : quoted dictLevel line = some taken) :
    ∃ e : Entry, e.line = line ∧ e.literal = taken ∧ taken ≠ [] := by
  rw [quoted] at quotes
  split at quotes
  next => exact nomatch quotes
  split at quotes
  next => exact nomatch quotes
  next last =>
    rw [not_not] at last
    have trail_space : ∀ c ∈ ((line.dropWhile isspace).reverse.takeWhile isspace).reverse,
        isspace c = true := fun c member => List.mem_takeWhile_imp (List.mem_reverse.mp member)
    obtain ⟨e, indent, trail, body, literal, some_text⟩ :=
      @afterQuote_sound dictLevel _ taken quotes (line.takeWhile isspace) _
        (fun c member => List.mem_takeWhile_imp member) trail_space
    refine ⟨e, ?_, literal, some_text⟩
    obtain ⟨front, trimmed⟩ := List.getLast?_eq_some_iff.mp last
    have middle : trim line ++ ((line.dropWhile isspace).reverse.takeWhile isspace).reverse =
        line.dropWhile isspace := by
      rw [trim, mem_of_takeWhile_text text, ← List.reverse_append, List.takeWhile_append_dropWhile, List.reverse_reverse]
    have closed : (trim line).dropLast ++ [quote] = trim line := by
      rw [trimmed, List.dropLast_concat]
    rw [Entry.line, indent, trail, body, List.append_cons, closed, middle,
      List.takeWhile_append_dropWhile]

/-- The token of a line. -/
def lineToken (dictLevel : BitVec 32) (line : List Byte) : Option Token :=
  (quoted dictLevel line).bind fun text =>
    if (unescape text).length > maxDictFile then none else some (unescape text)

theorem lineToken_some {dictLevel : BitVec 32} {line : List Byte} {token : Token} :
    lineToken dictLevel line = some token ↔
      ∃ text, quoted dictLevel line = some text ∧ unescape text = token ∧
        token.length ≤ maxDictFile := by
  rw [lineToken, Option.bind_eq_some_iff]
  refine exists_congr fun text => and_congr_right fun _ => ?_
  split
  next long =>
    refine ⟨fun impossible => (nomatch impossible), ?_⟩
    rintro ⟨rfl, short⟩
    omega
  next short =>
    constructor
    · rintro found
      obtain rfl := Option.some.inj found
      exact ⟨rfl, by omega⟩
    · rintro ⟨rfl, _⟩
      rfl

/-- A comment: the first character is a number sign. -/
def IsComment (line : List Byte) : Prop :=
  ∃ indent rest, line = indent ++ 0x23 :: rest ∧ ∀ c ∈ indent, isspace c = true

def IsBlank (line : List Byte) : Prop := ∀ c ∈ line, isspace c = true

theorem quoted_blank {dictLevel : BitVec 32} {line : List Byte} (blank : IsBlank line) :
    quoted dictLevel line = none := by
  have nothing : trim line = [] := by
    have dropped : (line.takeWhile (· ≠ 0)).dropWhile isspace = [] := by
      rw [List.dropWhile_eq_nil_iff]
      exact fun c member => blank c ((List.takeWhile_sublist _).subset member)
    rw [trim, dropped]
    rfl
  rw [quoted, nothing, if_pos (.inl rfl)]

theorem quoted_comment {dictLevel : BitVec 32} {line : List Byte} (text : 0 ∉ line)
    (comment : IsComment line) : quoted dictLevel line = none := by
  obtain ⟨indent, rest, rfl, indent_space⟩ := comment
  have left : ((indent ++ 0x23 :: rest).takeWhile (· ≠ 0)).dropWhile isspace = 0x23 :: rest := by
    rw [mem_of_takeWhile_text text, List.dropWhile_append_of_pos indent_space,
      List.dropWhile_cons_of_neg (by decide)]
  have head : (trim (indent ++ 0x23 :: rest)).head? = some 0x23 := by
    rw [trim, left, List.reverse_cons, List.dropWhile_append]
    split
    · rfl
    · simp
  rw [quoted, if_pos (.inr head)]

/-! ## The pieces of a file -/

/-- Lines with line breaks between them. -/
def fileOf : List (List Byte) → List Byte
  | [] => []
  | [line] => line
  | line :: next :: lines => line ++ newline :: fileOf (next :: lines)

/-- A line of a text file that fits the buffer. -/
structure TextLine (line : List Byte) : Prop where
  no_break : newline ∉ line
  text : 0 ∉ line
  fits : line.length < maxLine

theorem pieces_last {room : Nat} {piece line : List Byte} (no_break : newline ∉ line)
    (fits : line.length ≤ room) :
    pieces room piece line = if piece ++ line = [] then [] else [piece ++ line] := by
  induction line generalizing room piece with
  | nil => simp [pieces]
  | cons c line ih =>
    rw [List.mem_cons, not_or] at no_break
    rw [List.length_cons] at fits
    rw [pieces, @if_neg (piece ++ c :: line = []) _ (by simp)]
    by_cases full : room = 1
    · obtain rfl : line = [] := List.eq_nil_of_length_eq_zero (by omega)
      rw [if_pos (.inr full)]
      simp [pieces]
    · rw [if_neg (not_or.mpr ⟨Ne.symm no_break.1, full⟩), ih no_break.2 (by omega)]
      simp

/-- A line break that does not fit any more is a piece of its own. -/
theorem pieces_line {room : Nat} {piece line rest : List Byte} (no_break : newline ∉ line)
    (fits : line.length ≤ room) (positive : 0 < room) :
    pieces room piece (line ++ newline :: rest) =
      if line.length < room then (piece ++ line ++ [newline]) :: pieces (maxLine - 1) [] rest
      else (piece ++ line) :: [newline] :: pieces (maxLine - 1) [] rest := by
  induction line generalizing room piece with
  | nil => simp [pieces, positive]
  | cons c line ih =>
    rw [List.mem_cons, not_or] at no_break
    rw [List.length_cons] at fits ⊢
    rw [List.cons_append, pieces]
    by_cases full : room = 1
    · obtain rfl : line = [] := List.eq_nil_of_length_eq_zero (by omega)
      rw [if_pos (.inr full), if_neg (by rw [List.length_nil]; omega), List.nil_append, pieces,
        if_pos (.inl rfl), List.nil_append]
    · rw [if_neg (not_or.mpr ⟨Ne.symm no_break.1, full⟩), ih no_break.2 (by omega) (by omega)]
      by_cases room_left : line.length < room - 1
      · rw [if_pos room_left, if_pos (by omega)]
        simp
      · rw [if_neg room_left, if_neg (by omega)]
        simp

theorem trim_newline {line : List Byte} (text : 0 ∉ line) :
    trim (line ++ [newline]) = trim line := by
  have text' : 0 ∉ line ++ [newline] := by
    rw [List.mem_append, not_or]
    exact ⟨text, by decide⟩
  rw [trim, trim, mem_of_takeWhile_text text, mem_of_takeWhile_text text', List.dropWhile_append]
  split
  next blank =>
    rw [List.isEmpty_iff] at blank
    rw [blank]
    rfl
  next =>
    rw [List.reverse_append, List.reverse_singleton, List.singleton_append,
      List.dropWhile_cons_of_pos (by decide)]

theorem lineToken_newline (dictLevel : BitVec 32) {line : List Byte} (text : 0 ∉ line) :
    lineToken dictLevel (line ++ [newline]) = lineToken dictLevel line := by
  rw [lineToken, lineToken, quoted, quoted, trim_newline text]

theorem lineToken_blank (dictLevel : BitVec 32) {line : List Byte} (blank : IsBlank line) :
    lineToken dictLevel line = none := by
  rw [lineToken, quoted_blank blank]
  rfl

/-- The pieces have the tokens of the lines. -/
theorem pieces_tokens (dictLevel : BitVec 32) {lines : List (List Byte)}
    (each : ∀ line ∈ lines, TextLine line) :
    (pieces (maxLine - 1) [] (fileOf lines)).filterMap (lineToken dictLevel) =
      lines.filterMap (lineToken dictLevel) := by
  induction lines with
  | nil => rfl
  | cons line lines ih =>
    obtain ⟨no_break, text, fits⟩ := each line List.mem_cons_self
    have short : line.length ≤ maxLine - 1 := by omega
    cases lines with
    | nil =>
      rw [fileOf, pieces_last no_break short, List.nil_append]
      split
      next empty =>
        rw [empty, List.filterMap_cons_none (lineToken_blank dictLevel (fun _ member =>
          absurd member List.not_mem_nil))]
      next => rfl
    | cons next lines =>
      have later := ih fun line member => each line (List.mem_cons_of_mem _ member)
      rw [fileOf, pieces_line no_break short (by decide), List.nil_append]
      split
      next => rw [List.filterMap_cons, List.filterMap_cons, lineToken_newline dictLevel text, later]
      next =>
        have no_token : lineToken dictLevel [newline] = none :=
          lineToken_blank dictLevel (by simp [IsBlank, show isspace newline = true from by decide])
        rw [List.filterMap_cons, List.filterMap_cons_none no_token, later, ← List.filterMap_cons]

theorem extras_loadLines (dictLevel : BitVec 32) (pieces : List (List Byte)) (s : ExtrasFile) :
    (pieces.foldl (loadLine dictLevel) s).extras =
      s.extras ++ pieces.filterMap (lineToken dictLevel) := by
  induction pieces generalizing s with
  | nil => simp
  | cons piece pieces ih =>
    have here : (loadLine dictLevel s piece).extras =
        s.extras ++ (lineToken dictLevel piece).toList := by
      rw [loadLine, lineToken]
      cases quoted dictLevel piece with
      | none => simp
      | some text =>
        simp only [Option.bind_some]
        split <;> simp
    rw [List.foldl_cons, ih, here, List.filterMap_cons]
    cases lineToken dictLevel piece <;> simp

/-! ## The file -/

/-- One line of the form adds its literal when that has a length a token may have, comments, blank
lines, lines of another form and those of a higher level add nothing, and no token is too long or
lacks a printable character that stands between the quotes. -/
theorem lineToken_spec (dictLevel : BitVec 32) {line : List Byte} (text : 0 ∉ line) :
    (∀ (e : Entry) (token : Token), e.line = line → e.Admitted dictLevel →
      Spells e.literal token → 1 ≤ token.length → token.length ≤ maxDictFile →
        lineToken dictLevel line = some token) ∧
    (IsComment line ∨ IsBlank line ∨ (∀ e : Entry, e.line = line → e.literal = []) ∨
        (∃ e : Entry, e.line = line ∧ e.TooHigh dictLevel) →
      lineToken dictLevel line = none) ∧
    (∀ token, lineToken dictLevel line = some token →
      token.length ≤ maxDictFile ∧
        ∀ e : Entry, e.line = line →
          (∃ c ∈ e.literal, (0x20 ≤ c ∧ c ≤ 0x7e) ∧ c ≠ backslash) → 1 ≤ token.length) := by
  refine ⟨?_, ?_, ?_⟩
  · rintro e token rfl admitted spells some_bytes short
    have some_literal : e.literal ≠ [] := by
      intro empty
      rw [empty] at spells
      cases spells
      exact absurd some_bytes (by decide)
    exact lineToken_some.mpr ⟨e.literal, e.quoted_admitted text admitted some_literal,
      unescape_of_spells spells, short⟩
  · rintro (comment | blank | malformed | ⟨e, rfl, high⟩)
    · rw [lineToken, quoted_comment text comment]
      rfl
    · exact lineToken_blank dictLevel blank
    · cases taken : quoted dictLevel line with
      | none =>
        rw [lineToken, taken]
        rfl
      | some literal =>
        obtain ⟨e, shape, rfl, some_literal⟩ := quoted_sound text taken
        exact absurd (malformed e shape) some_literal
    · rw [lineToken, e.quoted_refused text high]
      rfl
  · intro token found
    obtain ⟨literal, taken, rfl, short⟩ := lineToken_some.mp found
    refine ⟨short, ?_⟩
    rintro e rfl ⟨c, member, printable, other⟩
    obtain rfl := e.literal_of_quoted text taken
    exact List.length_pos_iff.mpr (unescape_ne_nil member printable other)

/-- Every line adds its token, in the order of the lines. -/
theorem loadExtrasFile_tokens (dictLevel : BitVec 32) {lines : List (List Byte)}
    (each : ∀ line ∈ lines, TextLine line) (s : ExtrasFile) :
    (loadExtrasFile dictLevel (fileOf lines) s).extras =
        s.extras ++ lines.filterMap (lineToken dictLevel) ∧
      ∀ line ∈ lines,
        (∀ (e : Entry) (token : Token), e.line = line → e.Admitted dictLevel →
          Spells e.literal token → 1 ≤ token.length → token.length ≤ maxDictFile →
            lineToken dictLevel line = some token) ∧
        (IsComment line ∨ IsBlank line ∨ (∀ e : Entry, e.line = line → e.literal = []) ∨
            (∃ e : Entry, e.line = line ∧ e.TooHigh dictLevel) →
          lineToken dictLevel line = none) ∧
        (∀ token, lineToken dictLevel line = some token →
          token.length ≤ maxDictFile ∧
            ∀ e : Entry, e.line = line →
              (∃ c ∈ e.literal, (0x20 ≤ c ∧ c ≤ 0x7e) ∧ c ≠ backslash) → 1 ≤ token.length) := by
  constructor
  · rw [loadExtrasFile, extras_loadLines, pieces_tokens dictLevel each]
  · exact fun line member => lineToken_spec dictLevel (each line member).text

/-- The lines `# b` and `a="bc"`. -/
theorem loadExtrasFile_tokens_two :
    (loadExtrasFile 0 (fileOf [[0x23, 0x20, 0x62], [0x61, 0x3d, 0x22, 0x62, 0x63, 0x22]])
      ⟨[], maxDictFile, 0⟩).extras = [[0x62, 0x63]] := by
  have added := (@loadExtrasFile_tokens 0
    [[0x23, 0x20, 0x62], [0x61, 0x3d, 0x22, 0x62, 0x63, 0x22]] (by
      intro line member
      rcases List.mem_cons.mp member with rfl | member
      · exact ⟨by decide, by decide, by decide⟩
      · obtain rfl := List.mem_singleton.mp member
        exact ⟨by decide, by decide, by decide⟩) ⟨[], maxDictFile, 0⟩).1
  rw [added]
  decide

/-- The line `a="b\q"` has no valid literal and adds a token; the line `a=""` has one and adds
none. -/
theorem loadExtrasFile_not_strict :
    (¬ ∀ line, TextLine line → (∀ (e : Entry) (token : Token), e.line = line →
        ¬ Spells e.literal token) →
      (loadExtrasFile 0 line ⟨[], maxDictFile, 0⟩).extras = []) ∧
    ¬ ∀ (e : Entry) (token : Token), TextLine e.line → e.Admitted 0 → Spells e.literal token →
      (loadExtrasFile 0 e.line ⟨[], maxDictFile, 0⟩).extras = [token] := by
  constructor
  · intro strict
    have added : (loadExtrasFile 0 [0x61, 0x3d, 0x22, 0x62, 0x5c, 0x71, 0x22]
        ⟨[], maxDictFile, 0⟩).extras = [[0x62, 0x71]] := by decide
    have quotes : quoted 0 [0x61, 0x3d, 0x22, 0x62, 0x5c, 0x71, 0x22] = some [0x62, 0x5c, 0x71] := by
      decide
    have none_added := strict [0x61, 0x3d, 0x22, 0x62, 0x5c, 0x71, 0x22]
      ⟨by decide, by decide, by decide⟩ fun e token shape spells => by
        rw [← shape] at quotes
        rw [← e.literal_of_quoted (shape ▸ by decide) quotes] at spells
        cases spells with
        | plain _ _ spells =>
          cases spells with
          | plain _ other _ => exact other rfl
          | escaped special _ => exact absurd special (by decide)
    exact absurd (added.symm.trans none_added) (by decide)
  · intro strict
    have added := strict ⟨[], [0x61], none, none, [0x3d], [], [], nofun, by decide, nofun, nofun,
      by decide, nofun⟩ [] ⟨by decide, by decide, by decide⟩ nofun .nil
    exact absurd added (by decide)

end Swam.Afl.DictionaryFile
