import Swam.Afl.Extras

/-!
# What the dictionary stages execute

Overwriting is right for every seed, map and dictionary, because longer tokens follow shorter
ones. Inserting relies on the head that earlier rounds have copied to the buffer byte by byte,
and rounds whose offset is not marked copy nothing.
-/
namespace Swam.Afl

open Lib

/-- The execution the stage means: one token of the dictionary, written over the seed or put
into it. -/
def TokenRun.Right (d : Dictionary) (input : List Byte) (r : TokenRun) : Prop :=
  r.token ∈ d.extras ++ d.aExtras ∧
  match r.use with
  | .overwrite => r.pos + r.token.length ≤ input.length ∧ r.input = memcpy input r.pos r.token
  | .insert => r.input = input.take r.pos ++ r.token ++ input.drop r.pos

/-- The stages are right as far as they come, and each leaves the seed in the buffer. -/
structure StagesRight (d : Dictionary) (input : List Byte) (s : Extras) : Prop where
  runs : ∀ r ∈ s.runs, r.Right d input
  restored : ∀ buf ∈ s.finished, buf = input

/-- Where the stages come to. -/
def Extras.reached : Except (StageExit × Extras) Extras → Extras
  | .ok s => s
  | .error (_, s) => s

/-- Nothing interrupts the stages. -/
def Surroundings.Calm (env : Surroundings) : Prop :=
  ∀ n, env.timedOut n = false ∧ env.failed n = false

/-! ## What every step keeps -/

/-- The executions so far are as expected, those of earlier stages among them. -/
structure Stages (Good : TokenRun → Prop) (past : List TokenRun) (input : List Byte) (s : Extras) :
    Prop where
  good : ∀ r ∈ s.runs, Good r
  kept : ∀ r ∈ past, r ∈ s.runs
  finished : ∀ buf ∈ s.finished, buf = input

/-- A stage is left early only where something interrupts it. -/
def Interrupted (env : Surroundings) (Good : TokenRun → Prop) (past : List TokenRun)
    (input : List Byte) (r : StageExit × Extras) : Prop :=
  ¬ env.Calm ∧ Stages Good past input r.2

section
variable {env : Surroundings} {Good : TokenRun → Prop} {past : List TokenRun} {input : List Byte}
  {s : Extras}

theorem Stages.commonFuzzStuff (stages : Stages Good past input s) {run : TokenRun}
    (good : Good run) :
    Leaves (fun s' => Stages Good past input s' ∧ s' = { s with runs := run :: s.runs })
      (Interrupted env Good past input) (s.commonFuzzStuff env run) := by
  have next : Stages Good past input { s with runs := run :: s.runs } := by
    refine ⟨fun r member => ?_, fun r member => List.mem_cons_of_mem _ (stages.kept r member),
      stages.finished⟩
    rcases List.mem_cons.mp member with rfl | earlier
    · exact good
    · exact stages.good r earlier
  rw [Extras.commonFuzzStuff]
  dsimp only
  split
  next failed => exact ⟨fun calm => by simp [(calm _).2] at failed, next⟩
  next => exact ⟨next, rfl⟩

theorem Stages.isDetTimeout (stages : Stages Good past input s) :
    Leaves (fun s' => Stages Good past input s' ∧ s' = { s with checks := s.checks + 1 })
      (Interrupted env Good past input) (s.isDetTimeout env) := by
  rw [Extras.isDetTimeout]
  split
  next late => exact ⟨fun calm => by simp [(calm _).1] at late, stages⟩
  next => exact ⟨⟨stages.good, stages.kept, stages.finished⟩, rfl⟩

/-! ## Overwriting -/

/-- The invariant at offset `i`: the buffer is the seed with the last token written over it. -/
structure Overwriting (Good : TokenRun → Prop) (past : List TokenRun) (input ex : List Byte)
    (i : Nat) (done : List Token) (s : Extras) : Prop where
  stages : Stages Good past input s
  ex : s.exTmp = ex
  written : ∃ token, s.outBuf = memcpy input i token ∧ token.length = s.lastLen ∧
    i + token.length ≤ input.length ∧ (token = [] ∨ token ∈ done)

/-- Drawing a random number changes nothing else. -/
theorem Overwriting.skipsAtRandom {ex : List Byte} {i : Nat} {done : List Token}
    (overwriting : Overwriting Good past input ex i done s) (cnt : Nat)
    (maxDetExtras : Option Nat) :
    Overwriting Good past input ex i done (s.skipsAtRandom env cnt maxDetExtras).2 := by
  unfold Extras.skipsAtRandom
  split
  · exact overwriting
  · split
    · exact ⟨⟨overwriting.stages.good, overwriting.stages.kept, overwriting.stages.finished⟩,
        overwriting.ex, overwriting.written⟩
    · exact overwriting

theorem Overwriting.token {ex : List Byte} {i : Nat} {done rest : List Token} {token : Token}
    (bound : i < input.length) (sorted : SortedByLength (done ++ token :: rest))
    (new : i + token.length ≤ input.length →
      Good ⟨.overwrite, i, token, memcpy input i token⟩)
    (overwriting : Overwriting Good past input ex i done s) (cnt : Nat)
    (maxDetExtras : Option Nat) :
    Leaves (Overwriting Good past input ex i (done ++ [token])) (Interrupted env Good past input)
      (s.overwriteToken env cnt maxDetExtras input.length i token) := by
  have drawn : Overwriting Good past input ex i done (s.skipsAtRandom env cnt maxDetExtras).2 :=
    overwriting.skipsAtRandom cnt maxDetExtras
  rw [Extras.overwriteToken]
  generalize s.skipsAtRandom env cnt maxDetExtras = draw at drawn ⊢
  obtain ⟨skipped, s'⟩ := draw
  obtain ⟨last, buffer, size, inside, origin⟩ := drawn.written
  dsimp only at *
  split
  · exact ⟨drawn.stages, drawn.ex, last, buffer, size, inside,
      origin.imp_right (List.mem_append_left _)⟩
  next room =>
    have fits : i + token.length ≤ input.length := by
      simp only [not_or] at room
      omega
    -- tokens come by length, so this one covers what the last one has written
    have covers : last.length ≤ token.length := by
      rcases origin with rfl | earlier
      · exact Nat.zero_le _
      · exact (List.pairwise_append.mp sorted).2.2 last earlier token List.mem_cons_self
    have hidden : memcpy s'.outBuf i token = memcpy input i token := by
      rw [buffer, memcpy_memcpy (by omega) covers]
    have stages : Stages Good past input
        { s' with lastLen := token.length, outBuf := memcpy s'.outBuf i token } :=
      ⟨drawn.stages.good, drawn.stages.kept, drawn.stages.finished⟩
    have good : Good ⟨.overwrite, i, token, memcpy s'.outBuf i token⟩ := hidden ▸ new fits
    refine (stages.commonFuzzStuff good).mono fun s'' ⟨after, equal⟩ => ?_
    subst equal
    exact ⟨after, drawn.ex, token, hidden, rfl, fits, .inr (by simp)⟩

theorem Stages.overwriteAt {tokens : List Token} (sorted : SortedByLength tokens)
    (new : ∀ i, ∀ token ∈ tokens, i + token.length ≤ input.length →
      Good ⟨.overwrite, i, token, memcpy input i token⟩)
    (maxDetExtras : Option Nat) (skipEffMap : List Byte) {i : Nat} (bound : i < input.length)
    (stages : Stages Good past input s) (buffer : s.outBuf = input) :
    Leaves (fun s' => Stages Good past input s' ∧ s'.outBuf = input ∧ s'.exTmp = s.exTmp)
      (Interrupted env Good past input)
      (s.overwriteAt env tokens maxDetExtras skipEffMap input i) := by
  have clean : Stages Good past input { s with lastLen := 0 } :=
    ⟨stages.good, stages.kept, stages.finished⟩
  rw [Extras.overwriteAt]
  split
  · refine clean.isDetTimeout.bind fun s' ⟨checked, equal⟩ => ?_
    subst equal
    have loop : Leaves (Overwriting Good past input s.exTmp i tokens)
        (Interrupted env Good past input)
        (tokens.foldlM (Extras.overwriteToken env tokens.length maxDetExtras input.length i)
          { s with lastLen := 0, checks := s.checks + 1 }) := by
      refine foldlM_leaves (Overwriting Good past input s.exTmp i) tokens ?_ ?_
      · intro done token rest whole s' overwriting
        refine overwriting.token bound (whole ▸ sorted) (new i token ?_) _ _
        rw [← whole]
        simp
      · exact ⟨checked, rfl, [], by simp [buffer], rfl, by simpa using Nat.le_of_lt bound,
          .inl rfl⟩
    refine loop.bind fun s' overwriting => ?_
    obtain ⟨token, written, size, inside, -⟩ := overwriting.written
    refine ⟨⟨overwriting.stages.good, overwriting.stages.kept, overwriting.stages.finished⟩, ?_,
      overwriting.ex⟩
    show memcpy s'.outBuf i ((input.drop i).take s'.lastLen) = input
    rw [written, ← size, memcpy_restore inside]
  · exact ⟨clean, buffer, rfl⟩

theorem Stages.overwriteStage {tokens : List Token} (sorted : SortedByLength tokens)
    (new : ∀ i, ∀ token ∈ tokens, i + token.length ≤ input.length →
      Good ⟨.overwrite, i, token, memcpy input i token⟩)
    (maxDetExtras : Option Nat) (skipEffMap : List Byte)
    (stages : Stages Good past input s) (buffer : s.outBuf = input) :
    Leaves (fun s' => Stages Good past input s' ∧ s'.outBuf = input ∧ s'.exTmp = s.exTmp)
      (Interrupted env Good past input)
      (s.overwriteStage env tokens maxDetExtras skipEffMap input) := by
  have loop : Leaves (fun s' => Stages Good past input s' ∧ s'.outBuf = input ∧ s'.exTmp = s.exTmp)
      (Interrupted env Good past input)
      ((List.range input.length).foldlM
        (Extras.overwriteAt env tokens maxDetExtras skipEffMap input) s) := by
    refine range_foldlM_leaves
      (fun _ s' => Stages Good past input s' ∧ s'.outBuf = input ∧ s'.exTmp = s.exTmp) _ ?_
      ⟨stages, buffer, rfl⟩
    intro i bound s' ⟨stages', buffer', ex'⟩
    refine (stages'.overwriteAt sorted new maxDetExtras skipEffMap bound buffer').mono ?_
    exact fun s'' ⟨stages'', buffer'', ex''⟩ => ⟨stages'', buffer'', ex''.trans ex'⟩
  rw [Extras.overwriteStage]
  refine loop.bind fun s' ⟨stages', buffer', ex'⟩ => ⟨⟨stages'.good, stages'.kept, ?_⟩, buffer', ex'⟩
  intro buf member
  rcases List.mem_cons.mp member with rfl | earlier
  · exact buffer'
  · exact stages'.finished buf earlier

end

/-! ## Inserting -/

/-- The last marked offset below `n`. -/
def lastEffective (skipEffMap : List Byte) (n : Nat) : Option Nat :=
  ((List.range n).filter (bitmapRead skipEffMap)).getLast?

/-- The last token that leaves the test case below `MAX_FILE`. -/
def lastToken (tokens : List Token) (len : Nat) : Option Token :=
  (tokens.filter fun token => len + token.length ≤ maxFile).getLast?

/-- What the buffer for insertions holds at `p` after the rounds below `n ≤ p`: the last marked
round has left the last token and the tail behind it, an unmarked one nothing. -/
def staleByte (skipEffMap input : List Byte) (tokens : List Token) (ex : List Byte) (n p : Nat) :
    Option Byte :=
  match lastToken tokens input.length, lastEffective skipEffMap n with
  | some token, some i => (token ++ input.drop i)[p - i]?
  | _, _ => ex[p]?

/-- A marked round has copied the byte of the seed. -/
def headByte (skipEffMap input : List Byte) (tokens : List Token) (ex : List Byte) (p : Nat) :
    Option Byte :=
  if bitmapRead skipEffMap p then input[p]? else staleByte skipEffMap input tokens ex p p

/-- Every unmarked offset before a round that executes something happens to hold the byte of the
seed. -/
def StaleFits (skipEffMap input : List Byte) (tokens : List Token) (ex : List Byte) : Prop :=
  (lastToken tokens input.length).isSome → ∀ p < input.length, bitmapRead skipEffMap p = false →
    (∃ i, p < i ∧ i ≤ input.length ∧ bitmapRead skipEffMap (i % input.length)) →
    staleByte skipEffMap input tokens ex p p = input[p]?

theorem lastEffective_succ (skipEffMap : List Byte) (n : Nat) :
    lastEffective skipEffMap (n + 1) =
      if bitmapRead skipEffMap n then some n else lastEffective skipEffMap n := by
  rw [lastEffective, List.range_succ, List.filter_append, List.filter_cons, List.filter_nil]
  split
  · rw [List.getLast?_append]
    rfl
  · rw [List.append_nil]
    rfl

theorem lastToken_concat (tokens : List Token) (token : Token) (len : Nat) :
    lastToken (tokens ++ [token]) len =
      if len + token.length ≤ maxFile then some token else lastToken tokens len := by
  rw [lastToken, List.filter_append, List.filter_cons, List.filter_nil]
  by_cases fits : len + token.length ≤ maxFile
  · rw [if_pos fits, if_pos (decide_eq_true fits), List.getLast?_append]
    rfl
  · rw [if_neg fits, if_neg (by simpa using fits), List.append_nil]
    rfl

/-- An execution of the insertion stage, with the head the buffer really holds. -/
structure Inserts (skipEffMap input : List Byte) (tokens : List Token) (ex : List Byte)
    (r : TokenRun) : Prop where
  use : r.use = .insert
  bound : r.pos ≤ input.length
  marked : bitmapRead skipEffMap (r.pos % input.length)
  token : r.token ∈ tokens
  fits : input.length + r.token.length ≤ maxFile
  input : ∃ head, head.length = r.pos ∧ r.input = head ++ r.token ++ input.drop r.pos ∧
    ∀ p < r.pos, head[p]? = headByte skipEffMap input tokens ex p

section
variable {env : Surroundings} {Good : TokenRun → Prop} {past : List TokenRun} {input : List Byte}
  {skipEffMap : List Byte} {tokens : List Token} {ex : List Byte} {s : Extras}

/-- The buffer for insertions at the start of round `k`. -/
def heldByte (skipEffMap input : List Byte) (tokens : List Token) (ex : List Byte) (k p : Nat) :
    Option Byte :=
  if p < k ∧ bitmapRead skipEffMap p then input[p]?
  else staleByte skipEffMap input tokens ex (min k p) p

theorem heldByte_head {k p : Nat} (before : p < k) :
    heldByte skipEffMap input tokens ex k p = headByte skipEffMap input tokens ex p := by
  simp only [heldByte, headByte, before, true_and, Nat.min_eq_right (Nat.le_of_lt before)]

/-- An unmarked round leaves the buffer alone. -/
theorem heldByte_unmarked {k : Nat} (unmarked : bitmapRead skipEffMap k = false) (p : Nat) :
    heldByte skipEffMap input tokens ex (k + 1) p = heldByte skipEffMap input tokens ex k p := by
  rcases Nat.lt_trichotomy p k with before | rfl | after
  · rw [heldByte_head before, heldByte_head (Nat.lt_succ_of_lt before)]
  · rw [heldByte_head (Nat.lt_succ_self p), headByte, unmarked, heldByte,
      if_neg (by simp), if_neg (by simp), Nat.min_self]
  · rw [heldByte, heldByte, if_neg (by omega), if_neg (by omega), Nat.min_eq_left (by omega),
      Nat.min_eq_left (by omega), staleByte, staleByte, lastEffective_succ, unmarked]
    rfl

/-- The invariant at the start of round `k`. -/
structure Inserting (Good : TokenRun → Prop) (past : List TokenRun)
    (skipEffMap input : List Byte) (tokens : List Token) (ex : List Byte) (k : Nat)
    (s : Extras) : Prop where
  stages : Stages Good past input s
  buffer : s.outBuf = input
  room : input.length ≤ s.exTmp.length
  held : ∀ p < input.length, s.exTmp[p]? = heldByte skipEffMap input tokens ex k p
  complete : ∀ i < k, bitmapRead skipEffMap (i % input.length) → ∀ token ∈ tokens,
    input.length + token.length ≤ maxFile →
      ∃ r ∈ s.runs, Inserts skipEffMap input tokens ex r ∧ r.pos = i ∧ r.token = token

/-- The invariant in round `k` after some of the tokens. -/
structure InsertingAt (Good : TokenRun → Prop) (past : List TokenRun)
    (skipEffMap input : List Byte) (tokens : List Token) (ex : List Byte) (k : Nat)
    (done : List Token) (s : Extras) : Prop where
  stages : Stages Good past input s
  buffer : s.outBuf = input
  room : input.length ≤ s.exTmp.length
  held : ∀ p < input.length, s.exTmp[p]? =
    match lastToken done input.length with
    | some token => if p < k then headByte skipEffMap input tokens ex p
        else (token ++ input.drop k)[p - k]?
    | none => heldByte skipEffMap input tokens ex k p
  complete : ∀ i < k, bitmapRead skipEffMap (i % input.length) → ∀ token ∈ tokens,
    input.length + token.length ≤ maxFile →
      ∃ r ∈ s.runs, Inserts skipEffMap input tokens ex r ∧ r.pos = i ∧ r.token = token
  current : ∀ token ∈ done, input.length + token.length ≤ maxFile →
    ∃ r ∈ s.runs, Inserts skipEffMap input tokens ex r ∧ r.pos = k ∧ r.token = token

theorem InsertingAt.head {k : Nat} {done : List Token}
    (inserting : InsertingAt Good past skipEffMap input tokens ex k done s) {p : Nat}
    (before : p < k) (bound : p < input.length) :
    s.exTmp[p]? = headByte skipEffMap input tokens ex p := by
  rw [inserting.held p bound]
  split
  · rw [if_pos before]
  · exact heldByte_head before

theorem InsertingAt.token {k : Nat} (bound : k ≤ input.length)
    (marked : bitmapRead skipEffMap (k % input.length)) {done : List Token} {token : Token}
    (known : token ∈ tokens)
    (new : ∀ r, Inserts skipEffMap input tokens ex r → Good r)
    (inserting : InsertingAt Good past skipEffMap input tokens ex k done s) :
    Leaves (InsertingAt Good past skipEffMap input tokens ex k (done ++ [token]))
      (Interrupted env Good past input) (s.insertToken env input.length k token) := by
  rw [Extras.insertToken]
  split
  next large =>
    have same : lastToken (done ++ [token]) input.length = lastToken done input.length := by
      rw [lastToken_concat, if_neg (by omega)]
    refine ⟨inserting.stages, inserting.buffer, inserting.room, ?_, inserting.complete, ?_⟩
    · rw [same]
      exact inserting.held
    · intro other member fits
      rcases List.mem_append.mp member with earlier | this
      · exact inserting.current other earlier fits
      · rw [List.mem_singleton.mp this] at fits
        omega
  next small =>
    have fits : input.length + token.length ≤ maxFile := by omega
    have start : k ≤ s.exTmp.length := Nat.le_trans bound inserting.room
    have tail : (s.outBuf.drop k).take (input.length - k) = input.drop k := by
      rw [inserting.buffer, List.take_of_length_le (Nat.le_of_eq List.length_drop)]
    have filled : memcpy (memcpy s.exTmp k token) (k + token.length) (input.drop k) =
        memcpy s.exTmp k (token ++ input.drop k) := memcpy_append start token (input.drop k)
    dsimp only
    rw [tail, filled]
    generalize exTmp : memcpy s.exTmp k (token ++ input.drop k) = written
    have size : (token ++ input.drop k).length = token.length + (input.length - k) := by
      rw [List.length_append, List.length_drop]
    -- the target gets the head of the buffer, the token and the tail
    have executed : written.take (input.length + token.length) =
        s.exTmp.take k ++ token ++ input.drop k := by
      rw [← exTmp, memcpy, List.append_assoc (s.exTmp.take k) token]
      refine List.take_left' ?_
      rw [List.length_append, size, List.length_take]
      omega
    have run : Inserts skipEffMap input tokens ex
        ⟨.insert, k, token, written.take (input.length + token.length)⟩ := by
      refine ⟨rfl, bound, marked, known, fits, s.exTmp.take k, ?_, executed, ?_⟩
      · rw [List.length_take, Nat.min_eq_left start]
      · intro p before
        rw [List.getElem?_take_of_lt before]
        exact inserting.head before (Nat.lt_of_lt_of_le before bound)
    have stages : Stages Good past input { s with exTmp := written } :=
      ⟨inserting.stages.good, inserting.stages.kept, inserting.stages.finished⟩
    apply (stages.commonFuzzStuff (new _ run)).mono
    rintro s' ⟨after, equal⟩
    subst equal
    refine ⟨after, inserting.buffer, ?_, ?_, ?_, ?_⟩
    · show input.length ≤ written.length
      rw [← exTmp, length_memcpy start]
      exact Nat.le_trans inserting.room (Nat.le_max_left _ _)
    · intro p inside
      show written[p]? = _
      rw [lastToken_concat, if_pos fits, ← exTmp, getElem?_memcpy start, size]
      dsimp only
      by_cases before : p < k
      · rw [if_neg (by omega), inserting.head before inside, if_pos before]
      · rw [if_pos (by omega), if_neg before]
    · intro i earlier markedThere other member room
      obtain ⟨r, member, found⟩ := inserting.complete i earlier markedThere other member room
      exact ⟨r, List.mem_cons_of_mem _ member, found⟩
    · intro other member room
      rcases List.mem_append.mp member with earlier | this
      · obtain ⟨r, member, found⟩ := inserting.current other earlier room
        exact ⟨r, List.mem_cons_of_mem _ member, found⟩
      · exact ⟨_, List.mem_cons_self, run, rfl, (List.mem_singleton.mp this).symm⟩

theorem Inserting.unmarked {k : Nat} (bound : k ≤ input.length)
    (unmarked : bitmapRead skipEffMap (k % input.length) = false)
    (inserting : Inserting Good past skipEffMap input tokens ex k s) :
    Inserting Good past skipEffMap input tokens ex (k + 1) s := by
  refine ⟨inserting.stages, inserting.buffer, inserting.room, fun p inside => ?_,
    fun i earlier marked => ?_⟩
  · rw [inserting.held p inside]
    rcases Nat.lt_or_eq_of_le bound with here | rfl
    · rw [Nat.mod_eq_of_lt here] at unmarked
      exact (heldByte_unmarked unmarked p).symm
    · rw [heldByte_head inside, heldByte_head (Nat.lt_succ_of_lt inside)]
  · have before : i < k := by
      rcases Nat.lt_or_eq_of_le (Nat.le_of_lt_succ earlier) with before | rfl
      · exact before
      · exact absurd marked (by simp [unmarked])
    exact inserting.complete i before marked

/-- After the tokens of a marked round its head byte is copied. -/
theorem InsertingAt.copyHead {k : Nat} (bound : k ≤ input.length)
    (marked : bitmapRead skipEffMap (k % input.length)) (behind : Byte)
    (inserting : InsertingAt Good past skipEffMap input tokens ex k tokens s) :
    Inserting Good past skipEffMap input tokens ex (k + 1)
      { s with exTmp := memcpy s.exTmp k [s.outBuf[k]?.getD behind] } := by
  have start : k ≤ s.exTmp.length := Nat.le_trans bound inserting.room
  refine ⟨⟨inserting.stages.good, inserting.stages.kept, inserting.stages.finished⟩,
    inserting.buffer, ?_, fun p inside => ?_, fun i earlier markedThere token member fits => ?_⟩
  · show input.length ≤ (memcpy s.exTmp k _).length
    rw [length_memcpy start]
    exact Nat.le_trans inserting.room (Nat.le_max_left _ _)
  · show (memcpy s.exTmp k _)[p]? = _
    rw [getElem?_memcpy start, List.length_singleton]
    rcases Nat.lt_trichotomy p k with before | rfl | after
    · rw [if_neg (by omega), inserting.head before inside,
        heldByte_head (Nat.lt_succ_of_lt before)]
    · rw [Nat.mod_eq_of_lt inside] at marked
      rw [if_pos (by omega), Nat.sub_self, inserting.buffer, List.getElem?_eq_getElem inside,
        heldByte_head (Nat.lt_succ_self p), headByte, if_pos marked,
        List.getElem?_eq_getElem inside]
      rfl
    · have here : k < input.length := by omega
      rw [Nat.mod_eq_of_lt here] at marked
      have now : heldByte skipEffMap input tokens ex k p =
          staleByte skipEffMap input tokens ex k p := by
        rw [heldByte, if_neg (by omega), Nat.min_eq_left (by omega)]
      have later : heldByte skipEffMap input tokens ex (k + 1) p =
          staleByte skipEffMap input tokens ex (k + 1) p := by
        rw [heldByte, if_neg (by omega), Nat.min_eq_left (by omega)]
      rw [if_neg (by omega), inserting.held p inside, now, later, staleByte, staleByte,
        lastEffective_succ, if_pos marked]
      cases lastToken tokens input.length with
      | some token => exact if_neg (by omega)
      | none => rfl
  · rcases Nat.lt_or_eq_of_le (Nat.le_of_lt_succ earlier) with before | rfl
    · exact inserting.complete i before markedThere token member fits
    · exact inserting.current token member fits

theorem Inserting.insertAt {k : Nat} (bound : k ≤ input.length)
    (new : ∀ r, Inserts skipEffMap input tokens ex r → Good r)
    (inserting : Inserting Good past skipEffMap input tokens ex k s) :
    Leaves (Inserting Good past skipEffMap input tokens ex (k + 1))
      (Interrupted env Good past input) (s.insertAt env tokens skipEffMap input.length k) := by
  rw [Extras.insertAt]
  split
  next marked =>
    refine inserting.stages.isDetTimeout.bind fun s' ⟨checked, equal⟩ => ?_
    subst equal
    have loop : Leaves (InsertingAt Good past skipEffMap input tokens ex k tokens)
        (Interrupted env Good past input)
        (tokens.foldlM (Extras.insertToken env input.length k)
          { s with checks := s.checks + 1 }) := by
      refine foldlM_leaves (InsertingAt Good past skipEffMap input tokens ex k) tokens ?_ ?_
      · intro done token rest whole s' inserting'
        refine inserting'.token bound marked ?_ new
        rw [← whole]
        simp
      · exact ⟨checked, inserting.buffer, inserting.room, inserting.held, inserting.complete,
          fun _ member => nomatch member⟩
    exact loop.bind fun s' inserting' => inserting'.copyHead bound marked env.behind
  next unmarked => exact inserting.unmarked bound (by simpa using unmarked)

/-- The stage keeps what other stages rely on, and it executes each fitting token at each marked
offset. -/
theorem Stages.insertStage (stages : Stages Good past input s) (buffer : s.outBuf = input)
    (new : ∀ r, Inserts skipEffMap input tokens (aflRealloc s.exTmp (input.length + maxDictFile)) r →
      Good r) :
    Leaves (Inserting Good past skipEffMap input tokens
        (aflRealloc s.exTmp (input.length + maxDictFile)) (input.length + 1))
      (Interrupted env Good past input)
      (s.insertStage env tokens skipEffMap input.length) := by
  have room : input.length ≤ (aflRealloc s.exTmp (input.length + maxDictFile)).length := by
    rw [aflRealloc, List.length_append, List.length_replicate]
    omega
  generalize start : aflRealloc s.exTmp (input.length + maxDictFile) = ex at room new ⊢
  have loop : Leaves (Inserting Good past skipEffMap input tokens ex (input.length + 1))
      (Interrupted env Good past input)
      ((List.range (input.length + 1)).foldlM
        (Extras.insertAt env tokens skipEffMap input.length) { s with exTmp := ex }) := by
    refine range_foldlM_leaves (Inserting Good past skipEffMap input tokens ex) _ ?_ ?_
    · intro k bound s' inserting
      exact inserting.insertAt (Nat.le_of_lt_succ bound) new
    · refine ⟨⟨stages.good, stages.kept, stages.finished⟩, buffer, room, fun p inside => ?_,
        fun i below => absurd below (Nat.not_lt_zero i)⟩
      rw [heldByte, if_neg (by omega), Nat.min_eq_left (Nat.zero_le p), staleByte]
      split
      next found => simp [lastEffective] at found
      next => rfl
  rw [Extras.insertStage, start]
  refine loop.bind fun s' inserting => ?_
  refine ⟨⟨inserting.stages.good, inserting.stages.kept, fun buf member => ?_⟩, inserting.buffer,
    inserting.room, inserting.held, inserting.complete⟩
  rcases List.mem_cons.mp member with rfl | earlier
  · exact inserting.buffer
  · exact inserting.stages.finished buf earlier

/-! ## All four stages -/

/-- The memory an insertion stage starts with. -/
abbrev inserted (input ex : List Byte) : List Byte := aflRealloc ex (input.length + maxDictFile)

/-- Where no marked offset comes first, the buffer still holds what it held. -/
def Untouched (skipEffMap input ex ex' : List Byte) : Prop :=
  ∀ p < input.length, lastEffective skipEffMap (p + 1) = none →
    (inserted input ex')[p]? = (inserted input ex)[p]?

theorem Inserting.untouched
    (inserting : Inserting Good past skipEffMap input tokens (inserted input ex)
      (input.length + 1) s) : Untouched skipEffMap input ex s.exTmp := by
  intro p inside first
  have unmarked : bitmapRead skipEffMap p = false ∧ lastEffective skipEffMap p = none := by
    rw [lastEffective_succ] at first
    split at first
    · contradiction
    next unmarked => exact ⟨by simpa using unmarked, first⟩
  rw [inserted, aflRealloc, List.getElem?_append_left (Nat.lt_of_lt_of_le inside inserting.room),
    inserting.held p inside, heldByte_head (Nat.lt_succ_of_lt inside), headByte, unmarked.1,
    staleByte, unmarked.2]
  simp

theorem staleFits_congr {ex' : List Byte} (untouched : Untouched skipEffMap input ex ex') :
    StaleFits skipEffMap input tokens (inserted input ex') ↔
      StaleFits skipEffMap input tokens (inserted input ex) := by
  have same (some : (lastToken tokens input.length).isSome) (p : Nat) (inside : p < input.length)
      (unmarked : bitmapRead skipEffMap p = false) :
      staleByte skipEffMap input tokens (inserted input ex') p p =
        staleByte skipEffMap input tokens (inserted input ex) p p := by
    obtain ⟨token, last⟩ := Option.isSome_iff_exists.mp some
    rw [staleByte, staleByte, last]
    cases first : lastEffective skipEffMap p with
    | some i => rfl
    | none =>
      refine untouched p inside ?_
      rw [lastEffective_succ, unmarked, if_neg Bool.false_ne_true, first]
  constructor
  · intro fits some p inside unmarked later
    rw [← same some p inside unmarked]
    exact fits some p inside unmarked later
  · intro fits some p inside unmarked later
    rw [same some p inside unmarked]
    exact fits some p inside unmarked later

/-- What the stages of one list of tokens leave. -/
structure Staged (Good : TokenRun → Prop) (past : List TokenRun) (skipEffMap input : List Byte)
    (tokens : List Token) (ex : List Byte) (s : Extras) : Prop where
  stages : Stages Good past input s
  buffer : s.outBuf = input
  untouched : Untouched skipEffMap input ex s.exTmp
  complete : ∀ i ≤ input.length, bitmapRead skipEffMap (i % input.length) → ∀ token ∈ tokens,
    input.length + token.length ≤ maxFile →
      ∃ r ∈ s.runs, Inserts skipEffMap input tokens (inserted input ex) r ∧ r.pos = i ∧
        r.token = token

theorem Stages.tokenStages {short : List Token} (sorted : SortedByLength short)
    (overwrites : ∀ i, ∀ token ∈ short, i + token.length ≤ input.length →
      Good ⟨.overwrite, i, token, memcpy input i token⟩)
    (inserts : ∀ r, Inserts skipEffMap input tokens (inserted input s.exTmp) r → Good r)
    (maxDetExtras : Option Nat) (stages : Stages Good past input s) (buffer : s.outBuf = input) :
    Leaves (Staged Good past skipEffMap input tokens s.exTmp) (Interrupted env Good past input)
      (s.tokenStages env tokens short maxDetExtras skipEffMap input) := by
  rw [Extras.tokenStages]
  split
  next none => exact ⟨stages, buffer, fun _ _ _ => rfl, fun _ _ _ _ member => by simp [none] at member⟩
  next =>
    refine (stages.overwriteStage sorted overwrites maxDetExtras skipEffMap buffer).bind ?_
    intro s' ⟨stages', buffer', ex'⟩
    rw [← ex'] at inserts ⊢
    refine (stages'.insertStage buffer' inserts).mono fun s'' inserting => ?_
    exact ⟨inserting.stages, inserting.buffer, inserting.untouched,
      fun i bound => inserting.complete i (Nat.lt_succ_of_le bound)⟩

/-! ## Where the heads are right -/

variable {d : Dictionary}

/-- The bytes of the head decide. -/
theorem Inserts.right_iff {r : TokenRun} (inserts : Inserts skipEffMap input tokens ex r)
    (known : r.token ∈ d.extras ++ d.aExtras) :
    r.Right d input ↔ ∀ p < r.pos, headByte skipEffMap input tokens ex p = input[p]? := by
  obtain ⟨head, size, executed, bytes⟩ := inserts.input
  have whole : r.Right d input ↔ head = input.take r.pos := by
    rw [TokenRun.Right, inserts.use, executed]
    simp only [known, true_and, List.append_assoc]
    exact List.append_left_inj _
  rw [whole]
  constructor
  · rintro rfl p before
    rw [← bytes p before, List.getElem?_take_of_lt before]
  · intro same
    apply List.ext_getElem?
    intro p
    by_cases before : p < r.pos
    · rw [bytes p before, same p before, List.getElem?_take_of_lt before]
    · rw [List.getElem?_eq_none (by omega),
        List.getElem?_eq_none (by rw [List.length_take]; omega)]

theorem StaleFits.right (fits : StaleFits skipEffMap input tokens ex) {r : TokenRun}
    (inserts : Inserts skipEffMap input tokens ex r) (known : r.token ∈ d.extras ++ d.aExtras) :
    r.Right d input := by
  refine (inserts.right_iff known).mpr fun p before => ?_
  have some : (lastToken tokens input.length).isSome := by
    rw [lastToken, List.getLast?_isSome]
    refine List.ne_nil_of_mem (List.mem_filter.mpr ⟨inserts.token, ?_⟩)
    exact decide_eq_true inserts.fits
  rw [headByte]
  split
  · rfl
  next unmarked =>
    exact fits some p (Nat.lt_of_lt_of_le before inserts.bound) (by simpa using unmarked)
      ⟨r.pos, before, inserts.bound, inserts.marked⟩

theorem Staged.fits (staged : Staged Good past skipEffMap input tokens ex s)
    (known : ∀ token ∈ tokens, token ∈ d.extras ++ d.aExtras)
    (right : ∀ r ∈ s.runs, r.Right d input) :
    StaleFits skipEffMap input tokens (inserted input ex) := by
  intro some p inside unmarked ⟨i, after, bound, marked⟩
  obtain ⟨token, last⟩ := Option.isSome_iff_exists.mp some
  have member := List.mem_filter.mp (List.mem_of_getLast? last)
  obtain ⟨r, executed, inserts, pos, -⟩ := staged.complete i bound marked token member.1
    (of_decide_eq_true member.2)
  have bytes := (inserts.right_iff (known _ inserts.token)).mp (right r executed) p (by omega)
  rwa [headByte, unmarked, if_neg Bool.false_ne_true] at bytes

end

/-- The four stages in a row: what they execute is good if each kind of execution is, and
nothing is left out unless something interrupts them. -/
theorem extrasStages_leaves (env : Surroundings) (Good : TokenRun → Prop) (d : Dictionary)
    (maxDetExtras : Nat) (skipEffMap input ex : List Byte)
    (overwrites : ∀ i, ∀ token ∈ d.extras ++ d.aExtras, i + token.length ≤ input.length →
      Good ⟨.overwrite, i, token, memcpy input i token⟩)
    (userInserts : ∀ r, Inserts skipEffMap input d.extras (inserted input ex) r → Good r)
    (autoInserts : ∀ ex', Untouched skipEffMap input ex ex' →
      ∀ r, Inserts skipEffMap input d.aExtras (inserted input ex') r → Good r) :
    Leaves (fun s => ∃ s' ex', Staged Good [] skipEffMap input d.extras ex s' ∧
        Untouched skipEffMap input ex ex' ∧
        Staged Good s'.runs skipEffMap input d.aExtras ex' s)
      (Interrupted env Good [] input)
      (extrasStages env d maxDetExtras skipEffMap input ex) := by
  have start : Stages Good [] input ⟨input, ex, 0, 0, 0, [], []⟩ :=
    ⟨by simp, by simp, by simp⟩
  rw [extrasStages]
  refine (start.tokenStages d.sorted (fun i token member => overwrites i token ?_) userInserts
    (some maxDetExtras) rfl).bind fun s' staged => ?_
  · exact List.mem_append_left _ member
  have again : Stages Good s'.runs input s' :=
    ⟨staged.stages.good, fun _ member => member, staged.stages.finished⟩
  have rest : Leaves (Staged Good s'.runs skipEffMap input d.aExtras s'.exTmp)
      (Interrupted env Good s'.runs input) (s'.autoExtras env d skipEffMap input) := by
    refine again.tokenStages d.aSorted (fun i token member => overwrites i token ?_)
      (autoInserts s'.exTmp staged.untouched) none staged.buffer
    exact List.mem_append_right _ (List.mem_of_mem_take member)
  refine (rest.mono fun s'' staged' => ?_).mono_stopped fun r ⟨rough, stages⟩ => ?_
  · exact ⟨s', s'.exTmp, staged, staged.untouched, staged'⟩
  · exact ⟨rough, stages.good, by simp, stages.finished⟩

/-- Overwriting is always right; all executed buffers are right in whatever surroundings if and
only if each unmarked offset ahead of a marked one happens to hold the byte of the seed. -/
theorem extras_stages_right_iff (d : Dictionary) (maxDetExtras : Nat)
    (skipEffMap input ex : List Byte) :
    (∀ env, StagesRight d input
        (Extras.reached (extrasStages env d maxDetExtras skipEffMap input ex))) ↔
      StaleFits skipEffMap input d.extras (inserted input ex) ∧
        StaleFits skipEffMap input d.aExtras (inserted input ex) := by
  constructor
  · intro right
    -- without interruptions every fitting token is put in at every marked offset
    let calm : Surroundings := ⟨fun _ => false, fun _ => false, fun _ => 0, 0⟩
    have leaves := extrasStages_leaves calm (fun _ => True) d maxDetExtras skipEffMap input ex
      (fun _ _ _ _ => trivial) (fun _ _ => trivial) (fun _ _ _ _ => trivial)
    have runs := (right calm).runs
    cases result : extrasStages calm d maxDetExtras skipEffMap input ex with
    | error r =>
      rw [result] at leaves
      exact absurd (fun _ => ⟨rfl, rfl⟩) leaves.1
    | ok s =>
      rw [result] at leaves runs
      obtain ⟨s', ex', user, untouched, auto⟩ := leaves
      refine ⟨user.fits (fun _ => List.mem_append_left _) fun r member => ?_, ?_⟩
      · exact runs r (auto.stages.kept r member)
      · rw [← staleFits_congr untouched]
        exact auto.fits (fun _ => List.mem_append_right _) runs
  · intro ⟨userFits, autoFits⟩ env
    have leaves := extrasStages_leaves env (TokenRun.Right d input) d maxDetExtras skipEffMap
      input ex
      (fun i token known fits => ⟨known, fits, rfl⟩)
      (fun r inserts => userFits.right inserts (List.mem_append_left _ inserts.token))
      (fun ex' untouched r inserts => ((staleFits_congr untouched).mpr autoFits).right inserts
        (List.mem_append_right _ inserts.token))
    cases result : extrasStages env d maxDetExtras skipEffMap input ex with
    | error r =>
      rw [result] at leaves
      exact ⟨leaves.2.good, leaves.2.finished⟩
    | ok s =>
      rw [result] at leaves
      obtain ⟨s', ex', -, -, auto⟩ := leaves
      exact ⟨auto.stages.good, auto.stages.finished⟩

/-- A dictionary of the one token `X`. -/
def xDictionary : Dictionary := ⟨[[0x58]], [], List.pairwise_singleton _ _, List.Pairwise.nil⟩

/-- With only the second byte of `AB` marked, the head of the insertion before `B` is a byte of
fresh memory, not `A`. -/
theorem extras_stages_not_right :
    ¬ ∀ env, StagesRight xDictionary [0x41, 0x42]
      (Extras.reached (extrasStages env xDictionary 256 [0b10] [0x41, 0x42] [])) := by
  intro right
  have executed : ⟨.insert, 1, [0x58], [0x00, 0x58, 0x42]⟩ ∈
      (Extras.reached (extrasStages ⟨fun _ => false, fun _ => false, fun _ => 0, 0⟩ xDictionary 256
        [0b10] [0x41, 0x42] [])).runs := by decide +kernel
  exact absurd ((right _).runs _ executed).2 (by decide)

end Swam.Afl
