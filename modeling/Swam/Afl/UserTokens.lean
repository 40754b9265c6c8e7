import Swam.Afl.Extras
import Swam.Lib.Sorting

/-!
# The user's tokens

`dedup_extras` and `add_extra` work on the array `extras`, which is sorted by length: the first
deletes later duplicates in place, the second looks for its token among those of its length and
sorts again after adding it. A list stands for the array: `extras_cnt` is a `u32`, and there are
fewer than 2^32 tokens.
-/
namespace Swam.Afl.UserTokens

open Lib

/-! ## The functions -/

/-- `qsort` with `compare_extras_len`. -/
abbrev LengthSort := Qsort fun a b : Token => a.length ≤ b.length

theorem ranked_length (extras : List Token) :
    Ranked (fun a b : Token => a.length ≤ b.length) extras :=
  ⟨fun a => a.length, fun _ _ _ _ => Int.ofNat_le.symm⟩

def lengthMergeSort : LengthSort where
  sort tokens := tokens.mergeSort compareExtrasLen
  perm tokens := List.mergeSort_perm tokens _
  sorted tokens _ := sortedByLength_mergeSort tokens

/-- The inner loop of `dedup_extras` at `j`; after a deletion the `goto` looks at `j` again. -/
def dedupAt (extras : List Token) (i j : Nat) : List Token :=
  match extras[i]?, here : extras[j]? with
  | some a, some b =>
    if a.length ≠ b.length then extras
    else if a = b then dedupAt (extras.eraseIdx j) i j
    else dedupAt extras i (j + 1)
  | _, _ => extras
termination_by extras.length - j
decreasing_by
  all_goals
    have inside := (List.getElem?_eq_some_iff.mp here).1
    try rw [List.length_eraseIdx_of_lt inside]
    omega

/-- The inner loop deletes from the back only. -/
theorem length_dedupAt_le (extras : List Token) (i j : Nat) :
    (dedupAt extras i j).length ≤ extras.length := by
  fun_induction dedupAt extras i j with
  | case1 => exact Nat.le_refl _
  | case2 extras j a _ _ _ ih =>
    have := List.length_eraseIdx_le extras j
    omega
  | case3 extras j a b _ _ _ _ ih => exact ih
  | case4 => exact Nat.le_refl _

/-- The outer loop of `dedup_extras`. -/
def dedupFrom (extras : List Token) (i : Nat) : List Token :=
  if i < extras.length - 1 then dedupFrom (dedupAt extras i (i + 1)) (i + 1) else extras
termination_by extras.length - i
decreasing_by
  have := length_dedupAt_le extras i (i + 1)
  omega

def dedupExtras (extras : List Token) : List Token :=
  if extras.length < 2 then extras else dedupFrom extras 0

/-- The search of `add_extra`, which ends behind the tokens of the length of `mem`. -/
def isKnown (mem : Token) : Bool → List Token → Bool
  | _, [] => false
  | found, extra :: extras =>
    if extra.length = mem.length then
      if extra = mem then true else isKnown mem true extras
    else if found then false
    else isKnown mem found extras

def addExtra (qsort : LengthSort) (extras : List Token) (mem : Token) : List Token :=
  if isKnown mem false extras then extras
  else if mem.length > maxDictFile then extras
  else qsort.sort (extras ++ [mem])

/-- A sequence of calls, each with what its `qsort` makes of tokens of equal length. -/
def addExtras (calls : List (LengthSort × Token)) (extras : List Token) : List Token :=
  calls.foldl (fun extras call => addExtra call.1 extras call.2) extras

/-- What `extras` is between the calls. -/
structure Kept (extras : List Token) : Prop where
  sorted : SortedByLength extras
  nodup : extras.Nodup

/-! ## Deleting duplicates -/

/-- On sorted tokens the inner loop deletes every later copy, although it stops at the first
token of another length. -/
theorem dedupAt_filter {before rest : List Token} {i : Nat} {a : Token}
    (here : before[i]? = some a) (sorted : SortedByLength rest)
    (least : ∀ b ∈ rest, a.length ≤ b.length) :
    dedupAt (before ++ rest) i before.length = before ++ rest.filter fun b => !b == a := by
  induction rest generalizing before with
  | nil =>
    rw [dedupAt]
    simp
  | cons b rest ih =>
    have inside := (List.getElem?_eq_some_iff.mp here).1
    have at_i : (before ++ b :: rest)[i]? = some a := by
      rwa [List.getElem?_append_left inside]
    have at_j : (before ++ b :: rest)[before.length]? = some b := by simp
    obtain ⟨first, later⟩ := List.pairwise_cons.mp sorted
    have least_later : ∀ c ∈ rest, a.length ≤ c.length := fun c member =>
      least c (List.mem_cons_of_mem b member)
    rw [dedupAt]
    split
    case h_2 none_there => exact (none_there a b at_i at_j).elim
    next a' b' here_i here_j =>
    obtain rfl : a = a' := Option.some.inj (at_i.symm.trans here_i)
    obtain rfl : b = b' := Option.some.inj (at_j.symm.trans here_j)
    split
    next differ =>
      -- every token from here on is longer than `a`
      have longer : ∀ c ∈ b :: rest, a.length < c.length := by
        have b_longer : a.length < b.length := by
          have := least b List.mem_cons_self
          omega
        intro c member
        rcases List.mem_cons.mp member with rfl | member
        · exact b_longer
        · exact Nat.lt_of_lt_of_le b_longer (first c member)
      have none_equal : (b :: rest).filter (fun c => !c == a) = b :: rest := by
        rw [List.filter_eq_self]
        intro c member
        have := longer c member
        have ne : c ≠ a := by
          rintro rfl
          omega
        simpa using ne
      rw [none_equal]
    next =>
      split
      next equal =>
        have erased : (before ++ b :: rest).eraseIdx before.length = before ++ rest := by
          rw [List.eraseIdx_append_of_length_le (Nat.le_refl _)]
          simp
        rw [erased, ih here later least_later, List.filter_cons_of_neg]
        simp [equal]
      next different =>
        have moved : before ++ b :: rest = (before ++ [b]) ++ rest := by simp
        have here' : (before ++ [b])[i]? = some a := by
          rwa [List.getElem?_append_left inside]
        have rest_done := ih here' later least_later
        rw [List.length_append, List.length_singleton] at rest_done
        rw [moved, rest_done, List.filter_cons_of_pos, List.append_assoc, List.singleton_append]
        simpa using Ne.symm different

theorem dedupFrom_eraseDups {before rest : List Token} (sorted : SortedByLength rest) :
    dedupFrom (before ++ rest) before.length = before ++ rest.eraseDups := by
  induction size : rest.length using Nat.strong_induction_on generalizing before rest with
  | _ n ih =>
    rw [dedupFrom]
    match rest with
    | [] => simp
    | [a] => simp [List.eraseDups_cons]
    | a :: b :: rest =>
      rw [if_pos (by simp only [List.length_append, List.length_cons]; omega)]
      obtain ⟨first, later⟩ := List.pairwise_cons.mp sorted
      have moved : before ++ a :: b :: rest = (before ++ [a]) ++ b :: rest := by simp
      have here : (before ++ [a])[before.length]? = some a := by simp
      have inner := dedupAt_filter here later first
      rw [List.length_append, List.length_singleton] at inner
      have shorter : ((b :: rest).filter fun c => !c == a).length < n := by
        have := List.length_filter_le (fun c => !c == a) (b :: rest)
        simp only [List.length_cons] at size this
        omega
      have outer := @ih _ shorter (before ++ [a]) _ (later.sublist List.filter_sublist) rfl
      rw [List.length_append, List.length_singleton] at outer
      rw [moved, inner, outer, List.eraseDups_cons, List.append_assoc, List.singleton_append]

theorem dedupExtras_eraseDups {extras : List Token} (sorted : SortedByLength extras) :
    dedupExtras extras = extras.eraseDups := by
  rw [dedupExtras]
  split
  next few =>
    match extras with
    | [] => simp
    | [a] => simp [List.eraseDups_cons]
    | a :: b :: rest =>
      simp only [List.length_cons] at few
      omega
  next => exact @dedupFrom_eraseDups [] _ sorted

/-! ## Adding tokens -/

/-- The search may stop early because the tokens are sorted. -/
theorem isKnown_iff {mem : Token} {found : Bool} {extras : List Token}
    (sorted : SortedByLength extras)
    (reached : found = true → ∀ extra ∈ extras, mem.length ≤ extra.length) :
    isKnown mem found extras = true ↔ mem ∈ extras := by
  induction extras generalizing found with
  | nil => simp [isKnown]
  | cons extra extras ih =>
    obtain ⟨first, later⟩ := List.pairwise_cons.mp sorted
    rw [isKnown, List.mem_cons]
    split
    next equal =>
      split
      next same => simp [same]
      next other =>
        rw [@ih true later fun _ b member => equal ▸ first b member]
        simp [Ne.symm other]
    next differ =>
      have other : mem ≠ extra := by
        rintro rfl
        exact differ rfl
      cases found with
      | true =>
        -- `extra` is longer than `mem`, and so is what follows
        have absent : mem ∉ extras := by
          intro member
          have := reached rfl extra List.mem_cons_self
          have := first mem member
          omega
        simp [other, absent]
      | false =>
        rw [if_neg (by decide), @ih false later (fun impossible => nomatch impossible)]
        simp [other]

theorem isKnown_mem {extras : List Token} (sorted : SortedByLength extras) (mem : Token) :
    isKnown mem false extras = true ↔ mem ∈ extras :=
  isKnown_iff sorted fun impossible => nomatch impossible

theorem addExtra_kept {extras : List Token} (kept : Kept extras) (qsort : LengthSort)
    (mem : Token) : Kept (addExtra qsort extras mem) := by
  rw [addExtra]
  split
  next => exact kept
  next unknown =>
    split
    next => exact kept
    next =>
      rw [isKnown_mem kept.sorted] at unknown
      refine ⟨qsort.sorted _ (ranked_length _), qsort.nodup_sort.mpr ?_⟩
      exact List.nodup_append.mpr ⟨kept.nodup, List.nodup_singleton mem, by
        intro a member b single equal
        rw [List.mem_singleton] at single
        exact unknown (single ▸ equal ▸ member)⟩

theorem mem_addExtra {extras : List Token} (sorted : SortedByLength extras) (qsort : LengthSort)
    (mem token : Token) :
    token ∈ addExtra qsort extras mem ↔
      token ∈ extras ∨ token = mem ∧ mem.length ≤ maxDictFile := by
  rw [addExtra]
  split
  next known =>
    rw [isKnown_mem sorted] at known
    constructor
    · exact .inl
    · rintro (member | ⟨rfl, _⟩)
      · exact member
      · exact known
  next =>
    split
    next long => simp [Nat.not_le.mpr long]
    next short =>
      rw [Qsort.mem_sort, List.mem_append, List.mem_singleton]
      simp [Nat.not_lt.mp short]

/-- Any calls of `add_extra`. -/
theorem addExtras_kept {extras : List Token} (kept : Kept extras)
    (calls : List (LengthSort × Token)) : Kept (addExtras calls extras) := by
  induction calls generalizing extras with
  | nil => exact kept
  | cons call calls ih => exact ih (addExtra_kept kept call.1 call.2)

theorem mem_addExtras {extras : List Token} (kept : Kept extras)
    (calls : List (LengthSort × Token)) (token : Token) :
    token ∈ addExtras calls extras ↔
      token ∈ extras ∨ token ∈ calls.map Prod.snd ∧ token.length ≤ maxDictFile := by
  induction calls generalizing extras with
  | nil => simp [addExtras]
  | cons call calls ih =>
    have later := ih (addExtra_kept kept call.1 call.2)
    rw [addExtras, List.foldl_cons, ← addExtras, later, mem_addExtra kept.sorted,
      List.map_cons, List.mem_cons]
    constructor
    · rintro ((member | ⟨rfl, short⟩) | ⟨member, short⟩)
      · exact .inl member
      · exact .inr ⟨.inl rfl, short⟩
      · exact .inr ⟨.inr member, short⟩
    · rintro (member | ⟨rfl | member, short⟩)
      · exact .inl (.inl member)
      · exact .inl (.inr ⟨rfl, short⟩)
      · exact .inr ⟨member, short⟩

/-- Deleting duplicates leaves the first of each, and calls of `add_extra` add each of their
tokens that is not too long once. -/
theorem extras_kept {extras : List Token} (sorted : SortedByLength extras) :
    dedupExtras extras = extras.eraseDups ∧
      (extras.Nodup → ∀ calls : List (LengthSort × Token),
        SortedByLength (addExtras calls extras) ∧ (addExtras calls extras).Nodup ∧
          ∀ token, token ∈ addExtras calls extras ↔
            token ∈ extras ∨ token ∈ calls.map Prod.snd ∧ token.length ≤ maxDictFile) := by
  refine ⟨dedupExtras_eraseDups sorted, fun nodup calls => ?_⟩
  have kept : Kept extras := ⟨sorted, nodup⟩
  exact ⟨(addExtras_kept kept calls).sorted, (addExtras_kept kept calls).nodup,
    mem_addExtras kept calls⟩

theorem extras_kept_pair :
    dedupExtras [[1#8], [2#8], [1#8], [3#8, 4#8]] = [[1#8], [2#8], [3#8, 4#8]] ∧
      [5#8, 5#8] ∈ addExtras [(lengthMergeSort, [5#8, 5#8])] [[7#8]] := by
  constructor
  · rw [(extras_kept (by simp [SortedByLength])).1]
    decide
  · have added := ((@extras_kept [[7#8]] (by simp [SortedByLength])).2 (by decide)
      [(lengthMergeSort, [5#8, 5#8])]).2.2 [5#8, 5#8]
    exact added.mpr (.inr ⟨by simp, by decide⟩)

end Swam.Afl.UserTokens
