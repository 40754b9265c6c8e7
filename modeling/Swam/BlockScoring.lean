import Mathlib.Algebra.Order.Field.Rat
import Mathlib.Tactic.Positivity
import Mathlib.Tactic.Ring
import Swam.Exploit

/-!
# The scored blocks

`swam_collect_scored_blocks` passes a count, a score and a depth through its recursion and stops
in three places. What it writes is the front part of a list that is said without any of that: the
blocks on the paths that no unconditional terminator cuts off, in the order of their paths, each
with the product of the factors along its path.
-/
namespace Swam

open Binaryen

/-! ## Paths that no terminator cuts off -/

/-- A number of exact arithmetic. -/
def exactRat (x : Doubles.exact.Carrier) : ℚ := x

theorem exactRat_mul (x : Doubles.exact.Carrier) (q : ℚ) :
    exactRat (Doubles.exact.mul x (Doubles.exact.ofRat q)) = exactRat x * q := rfl

theorem exact_le_zero {x : Doubles.exact.Carrier} :
    Doubles.exact.le x (Doubles.exact.ofRat 0) = true ↔ ¬ 0 < exactRat x := by
  rw [not_lt]
  exact @decide_eq_true_iff (exactRat x ≤ 0) _

/-- An entry with its score in exact arithmetic. -/
abbrev ScoredBlock := SwamScoredBlock Doubles.exact

def ScoredBlock.rat (b : ScoredBlock) : ℚ := exactRat b.score

/-- Number of conditional branches among some siblings. -/
def conditionals (siblings : List Expr) : Nat :=
  siblings.countP (swamClassifyTerminator · = .conditional)

/-- No sibling is an unconditional terminator. -/
def FallsThrough (siblings : List Expr) : Prop :=
  ∀ c ∈ siblings, swamClassifyTerminator c ≠ .unconditional

/-- A path through the children of blocks, the arms of an `if` and the bodies of loops, tries and
catches that passes no unconditional terminator, with the product of the factors along it. -/
inductive Visits : Expr → List Nat → ℚ → Expr → Prop where
  | here (e : Expr) : Visits e [] 1 e
  | child {name : Option String} {ty : Ty} {cs : List Expr} {i : Nat} {c e : Expr}
      {path : List Nat} {score : ℚ} (member : cs[i]? = some c) (falls : FallsThrough (cs.take i))
      (below : Visits c path score e) :
      Visits (.node (.block name ty) cs) (i :: path) ((1 / 2) ^ conditionals (cs.take i) * score) e
  | ifTrue {cond ifTrue ifFalse e : Expr} {path : List Nat} {score : ℚ}
      (below : Visits ifTrue path score e) :
      Visits (.node .if_ [cond, ifTrue, ifFalse]) (1 :: path) (1 / 2 * score) e
  | ifFalse {cond ifTrue ifFalse e : Expr} {path : List Nat} {score : ℚ}
      (below : Visits ifFalse path score e) :
      Visits (.node .if_ [cond, ifTrue, ifFalse]) (2 :: path) (1 / 2 * score) e
  | loopBody {name : Option String} {body e : Expr} {path : List Nat} {score : ℚ}
      (below : Visits body path score e) :
      Visits (.node (.loop name) [body]) (0 :: path) (2 * score) e
  | tryBody {name : Option String} {ty : Ty} {tags : List String} {delegate : Option String}
      {body e : Expr} {catches : List Expr} {path : List Nat} {score : ℚ}
      (below : Visits body path score e) :
      Visits (.node (.try_ name ty tags delegate) (body :: catches)) (0 :: path) (1 * score) e
  | catchBody {name : Option String} {ty : Ty} {tags : List String} {delegate : Option String}
      {body c e : Expr} {catches : List Expr} {i : Nat} {path : List Nat} {score : ℚ}
      (member : catches[i]? = some c) (below : Visits c path score e) :
      Visits (.node (.try_ name ty tags delegate) (body :: catches)) ((i + 1) :: path)
        (1 / 10 * score) e

/-- An entry for a block on such a path. Its depth is the number of steps to it. -/
structure Scored (root : Expr) (b : ScoredBlock) : Prop where
  visited : ∃ name ty cs, Visits root b.block b.score (.node (.block name ty) cs)
  depth : b.depth = b.block.length

theorem Visits.score_pos {e x : Expr} {path : List Nat} {score : ℚ} (visits : Visits e path score x) :
    0 < score := by
  induction visits with
  | here => exact one_pos
  | child _ _ _ ih => exact mul_pos (pow_pos (by positivity) _) ih
  | ifTrue _ ih | ifFalse _ ih | loopBody _ ih | tryBody _ ih | catchBody _ _ ih =>
    exact mul_pos (by positivity) ih

/-! ## The list of all of them -/

/-- An entry seen from one step further up. -/
def ScoredBlock.lift (i : Nat) (factor : ℚ) (b : ScoredBlock) : ScoredBlock :=
  ⟨i :: b.block, factor * b.rat, b.depth + 1⟩

def under (i : Nat) (factor : ℚ) (blocks : List ScoredBlock) : List ScoredBlock :=
  blocks.map (ScoredBlock.lift i factor)

mutual
/-- All blocks on such paths, parents first. -/
def scoredBlocks : Expr → List ScoredBlock
  | .null => []
  | .node (.block _ _) cs => ⟨[], (1 : ℚ), 0⟩ :: scoredChildren cs 0 1
  | .node .if_ [_, ifTrue, ifFalse] =>
    under 1 (1 / 2) (scoredBlocks ifTrue) ++ under 2 (1 / 2) (scoredBlocks ifFalse)
  | .node (.loop _) [body] => under 0 2 (scoredBlocks body)
  | .node (.try_ ..) (body :: catches) => under 0 1 (scoredBlocks body) ++ scoredCatches catches 1
  | .node _ _ => []

def scoredChildren : List Expr → Nat → ℚ → List ScoredBlock
  | [], _, _ => []
  | c :: cs, i, factor =>
    under i factor (scoredBlocks c) ++
      match swamClassifyTerminator c with
      | .unconditional => []
      | .conditional => scoredChildren cs (i + 1) (factor * (1 / 2))
      | .fallThrough => scoredChildren cs (i + 1) factor

def scoredCatches : List Expr → Nat → List ScoredBlock
  | [], _ => []
  | c :: cs, i => under i (1 / 10) (scoredBlocks c) ++ scoredCatches cs (i + 1)
end

theorem mem_under {i : Nat} {factor : ℚ} {blocks : List ScoredBlock} {b : ScoredBlock} :
    b ∈ under i factor blocks ↔ ∃ b' ∈ blocks, b'.lift i factor = b := List.mem_map

private theorem fallsThrough_cons {c : Expr} {cs : List Expr} :
    FallsThrough (c :: cs) ↔ swamClassifyTerminator c ≠ .unconditional ∧ FallsThrough cs :=
  List.forall_mem_cons

private theorem conditionals_cons (c : Expr) (cs : List Expr) :
    conditionals (c :: cs) = conditionals [c] + conditionals cs := by
  simp only [conditionals, ← List.countP_append, List.singleton_append]

/-- Nothing is listed after an unconditional terminator. -/
theorem scoredChildren_cut {c : Expr} (cut : swamClassifyTerminator c = .unconditional)
    (cs : List Expr) (i : Nat) (factor : ℚ) :
    scoredChildren (c :: cs) i factor = under i factor (scoredBlocks c) := by
  rw [scoredChildren, cut, List.append_nil]

theorem scoredChildren_cons {c : Expr} (passes : swamClassifyTerminator c ≠ .unconditional)
    (cs : List Expr) (i : Nat) (factor : ℚ) :
    scoredChildren (c :: cs) i factor = under i factor (scoredBlocks c) ++
      scoredChildren cs (i + 1) (factor * (1 / 2) ^ conditionals [c]) := by
  rw [scoredChildren]
  cases classified : swamClassifyTerminator c with
  | unconditional => exact absurd classified passes
  | conditional => simp [conditionals, classified]
  | fallThrough => simp [conditionals, classified]

/-- The children of a block are listed up to the first unconditional terminator. -/
theorem mem_scoredChildren {cs : List Expr} {i : Nat} {factor : ℚ} {b : ScoredBlock} :
    b ∈ scoredChildren cs i factor ↔ ∃ j c, cs[j]? = some c ∧ FallsThrough (cs.take j) ∧
      b ∈ under (i + j) (factor * (1 / 2) ^ conditionals (cs.take j)) (scoredBlocks c) := by
  induction cs generalizing i factor with
  | nil => simp [scoredChildren]
  | cons c cs ih =>
    have first : b ∈ under i factor (scoredBlocks c) ↔ b ∈ under (i + 0)
        (factor * (1 / 2) ^ conditionals ((c :: cs).take 0)) (scoredBlocks c) := by
      simp [conditionals]
    by_cases passes : swamClassifyTerminator c = .unconditional
    · rw [scoredChildren_cut passes, first]
      constructor
      · intro here
        exact ⟨0, c, rfl, nofun, here⟩
      · rintro ⟨_ | j, d, member, falls, listed⟩
        · cases member
          exact listed
        · exact absurd passes (falls c List.mem_cons_self)
    · rw [scoredChildren_cons passes, List.mem_append, ih, first]
      have later (j : Nat) (d : Expr) :
          b ∈ under (i + 1 + j) (factor * (1 / 2) ^ conditionals [c] *
            (1 / 2) ^ conditionals (cs.take j)) (scoredBlocks d) ↔
          b ∈ under (i + (j + 1)) (factor * (1 / 2) ^ conditionals ((c :: cs).take (j + 1)))
            (scoredBlocks d) := by
        rw [List.take_succ_cons, conditionals_cons c (cs.take j), pow_add, mul_assoc, Nat.add_assoc,
          Nat.add_comm 1 j]
      constructor
      · rintro (here | ⟨j, d, member, falls, listed⟩)
        · exact ⟨0, c, rfl, nofun, here⟩
        · exact ⟨j + 1, d, member, fallsThrough_cons.mpr ⟨passes, falls⟩, (later j d).mp listed⟩
      · rintro ⟨_ | j, d, member, falls, listed⟩
        · cases member
          exact .inl listed
        · exact .inr ⟨j, d, member, (fallsThrough_cons.mp falls).2, (later j d).mpr listed⟩

theorem mem_scoredCatches {cs : List Expr} {i : Nat} {b : ScoredBlock} :
    b ∈ scoredCatches cs i ↔
      ∃ j c, cs[j]? = some c ∧ b ∈ under (i + j) (1 / 10) (scoredBlocks c) := by
  induction cs generalizing i with
  | nil => simp [scoredCatches]
  | cons c cs ih =>
    rw [scoredCatches, List.mem_append, ih]
    constructor
    · rintro (here | ⟨j, d, member, listed⟩)
      · exact ⟨0, c, rfl, here⟩
      · rw [Nat.add_assoc, Nat.add_comm 1 j] at listed
        exact ⟨j + 1, d, member, listed⟩
    · rintro ⟨_ | j, d, member, listed⟩
      · cases member
        exact .inl listed
      · rw [Nat.add_comm j 1, ← Nat.add_assoc] at listed
        exact .inr ⟨j, d, member, listed⟩

theorem Scored.of_visits {root : Expr} {path : List Nat} {score : ℚ} {name : Option String} {ty : Ty}
    {cs : List Expr} (visits : Visits root path score (.node (.block name ty) cs)) :
    Scored root ⟨path, score, path.length⟩ := ⟨⟨name, ty, cs, visits⟩, rfl⟩

/-- What is scored in a child is scored in its parent, one step further. -/
theorem Scored.lift {parent c : Expr} {i : Nat} {factor : ℚ} {b : ScoredBlock}
    (step : ∀ {path score e}, Visits c path score e → Visits parent (i :: path) (factor * score) e)
    (scored : Scored c b) : Scored parent (b.lift i factor) := by
  obtain ⟨⟨name, ty, cs, visits⟩, depth⟩ := scored
  exact ⟨⟨name, ty, cs, step visits⟩, by simp [ScoredBlock.lift, depth]⟩

/-- Past its root, a path to a block goes through one of the children. -/
theorem Scored.inv {k : Kind} {cs : List Expr} {b : ScoredBlock} (scored : Scored (.node k cs) b) :
    (∃ name ty, k = .block name ty ∧ b = ⟨[], (1 : ℚ), 0⟩) ∨
    (∃ name ty i c b', k = .block name ty ∧ cs[i]? = some c ∧ FallsThrough (cs.take i) ∧
      Scored c b' ∧ b = b'.lift i ((1 / 2) ^ conditionals (cs.take i))) ∨
    (∃ cond ifTrue ifFalse b', k = .if_ ∧ cs = [cond, ifTrue, ifFalse] ∧
      (Scored ifTrue b' ∧ b = b'.lift 1 (1 / 2) ∨ Scored ifFalse b' ∧ b = b'.lift 2 (1 / 2))) ∨
    (∃ name body b', k = .loop name ∧ cs = [body] ∧ Scored body b' ∧ b = b'.lift 0 2) ∨
    (∃ name ty tags delegate body catches b', k = .try_ name ty tags delegate ∧
      cs = body :: catches ∧ (Scored body b' ∧ b = b'.lift 0 1 ∨
        ∃ i c, catches[i]? = some c ∧ Scored c b' ∧ b = b'.lift (i + 1) (1 / 10))) := by
  obtain ⟨path, score, depth⟩ := b
  obtain ⟨⟨name, ty, cs', visits⟩, depth⟩ := scored
  dsimp only at visits depth
  subst depth
  cases visits with
  | here => exact .inl ⟨name, ty, rfl, rfl⟩
  | child member falls below =>
    exact .inr (.inl ⟨_, _, _, _, _, rfl, member, falls, .of_visits below, rfl⟩)
  | ifTrue below =>
    exact .inr (.inr (.inl ⟨_, _, _, _, rfl, rfl, .inl ⟨.of_visits below, rfl⟩⟩))
  | ifFalse below =>
    exact .inr (.inr (.inl ⟨_, _, _, _, rfl, rfl, .inr ⟨.of_visits below, rfl⟩⟩))
  | loopBody below =>
    exact .inr (.inr (.inr (.inl ⟨_, _, _, rfl, rfl, .of_visits below, rfl⟩)))
  | tryBody below =>
    exact .inr (.inr (.inr (.inr ⟨_, _, _, _, _, _, _, rfl, rfl, .inl ⟨.of_visits below, rfl⟩⟩)))
  | catchBody member below =>
    exact .inr (.inr (.inr (.inr ⟨_, _, _, _, _, _, _, rfl, rfl, .inr ⟨_, _, member, .of_visits below, rfl⟩⟩)))

/-- The list has the entries for the blocks on the paths, and no others. -/
theorem mem_scoredBlocks {e : Expr} {b : ScoredBlock} : b ∈ scoredBlocks e ↔ Scored e b := by
  induction e generalizing b with
  | null =>
    refine iff_of_false (by simp [scoredBlocks]) ?_
    rintro ⟨⟨_, _, _, visits⟩, _⟩
    generalize b.block = path, b.score = score at visits
    cases visits
  | node k cs ih =>
    constructor
    · intro listed
      unfold scoredBlocks at listed
      split at listed
      next => cases ‹Expr.node k cs = .null›
      next name ty cs' same =>
        cases same
        rcases List.mem_cons.mp listed with rfl | listed
        · exact .of_visits (.here _)
        · obtain ⟨j, c, member, falls, listed⟩ := mem_scoredChildren.mp listed
          rw [Nat.zero_add, one_mul] at listed
          obtain ⟨b', inside, rfl⟩ := mem_under.mp listed
          exact ((ih c (List.mem_of_getElem? member)).mp inside).lift (.child member falls)
      next cond ifTrue ifFalse same =>
        cases same
        rcases List.mem_append.mp listed with listed | listed
        · obtain ⟨b', inside, rfl⟩ := mem_under.mp listed
          exact ((ih ifTrue (by simp)).mp inside).lift .ifTrue
        · obtain ⟨b', inside, rfl⟩ := mem_under.mp listed
          exact ((ih ifFalse (by simp)).mp inside).lift .ifFalse
      next name body same =>
        cases same
        obtain ⟨b', inside, rfl⟩ := mem_under.mp listed
        exact ((ih body (by simp)).mp inside).lift .loopBody
      next body catches same =>
        cases same
        rcases List.mem_append.mp listed with listed | listed
        · obtain ⟨b', inside, rfl⟩ := mem_under.mp listed
          exact ((ih body (by simp)).mp inside).lift .tryBody
        · obtain ⟨j, c, member, listed⟩ := mem_scoredCatches.mp listed
          rw [Nat.add_comm] at listed
          obtain ⟨b', inside, rfl⟩ := mem_under.mp listed
          exact ((ih c (List.mem_cons_of_mem _ (List.mem_of_getElem? member))).mp inside).lift
            (.catchBody member)
      next => cases listed
    · intro scored
      rcases scored.inv with ⟨name, ty, rfl, rfl⟩ |
        ⟨name, ty, i, c, b', rfl, member, falls, below, rfl⟩ |
        ⟨cond, ifTrue, ifFalse, b', rfl, rfl, arm⟩ | ⟨name, body, b', rfl, rfl, below, rfl⟩ |
        ⟨name, ty, tags, delegate, body, catches, b', rfl, rfl, inside⟩
      · simp [scoredBlocks]
      · rw [scoredBlocks]
        refine List.mem_cons_of_mem _ (mem_scoredChildren.mpr ⟨i, c, member, falls, ?_⟩)
        rw [Nat.zero_add, one_mul]
        exact mem_under.mpr ⟨b', (ih c (List.mem_of_getElem? member)).mpr below, rfl⟩
      · rw [scoredBlocks, List.mem_append, mem_under, mem_under]
        rcases arm with ⟨below, rfl⟩ | ⟨below, rfl⟩
        · exact .inl ⟨b', (ih ifTrue (by simp)).mpr below, rfl⟩
        · exact .inr ⟨b', (ih ifFalse (by simp)).mpr below, rfl⟩
      · rw [scoredBlocks, mem_under]
        exact ⟨b', (ih body (by simp)).mpr below, rfl⟩
      · rw [scoredBlocks, List.mem_append, mem_under, mem_scoredCatches]
        rcases inside with ⟨below, rfl⟩ | ⟨i, c, member, below, rfl⟩
        · exact .inl ⟨b', (ih body (by simp)).mpr below, rfl⟩
        · refine .inr ⟨i, c, member, mem_under.mpr ⟨b', ?_, by rw [Nat.add_comm]⟩⟩
          exact (ih c (List.mem_cons_of_mem _ (List.mem_of_getElem? member))).mpr below

/-! ## The order of the list -/

/-- Paths come in their lexical order: parents before children, earlier children first. -/
def InOrder (blocks : List ScoredBlock) : Prop := blocks.Pairwise fun a b => a.block < b.block

/-- All paths start at the position or after it. -/
def From (i : Nat) (blocks : List ScoredBlock) : Prop :=
  ∀ b ∈ blocks, ∃ j path, i ≤ j ∧ b.block = j :: path

theorem from_under (i : Nat) (factor : ℚ) (blocks : List ScoredBlock) :
    From i (under i factor blocks) := by
  intro b member
  obtain ⟨b', _, rfl⟩ := mem_under.mp member
  exact ⟨i, b'.block, Nat.le_refl i, rfl⟩

theorem From.append {i : Nat} {as bs : List ScoredBlock} (first : From i as) (second : From (i + 1) bs) :
    From i (as ++ bs) := by
  intro b member
  rcases List.mem_append.mp member with member | member
  · exact first b member
  · obtain ⟨j, path, above, equal⟩ := second b member
    exact ⟨j, path, Nat.le_of_succ_le above, equal⟩

theorem inOrder_under {i : Nat} {factor : ℚ} {blocks : List ScoredBlock} (ordered : InOrder blocks) :
    InOrder (under i factor blocks) := by
  refine List.pairwise_map.mpr (ordered.imp fun {a b} before => ?_)
  exact List.cons_lt_cons_iff.mpr (.inr ⟨rfl, before⟩)

/-- What is below a child comes before what is below later ones. -/
theorem InOrder.append_under {i : Nat} {factor : ℚ} {as bs : List ScoredBlock} (first : InOrder as)
    (second : InOrder bs) (later : From (i + 1) bs) : InOrder (under i factor as ++ bs) := by
  refine List.pairwise_append.mpr ⟨inOrder_under first, second, fun a ha b hb => ?_⟩
  obtain ⟨a', _, rfl⟩ := mem_under.mp ha
  obtain ⟨j, path, above, equal⟩ := later b hb
  rw [equal]
  exact List.cons_lt_cons_iff.mpr (.inl above)

private theorem scoredChildren_inOrder {cs : List Expr}
    (each : ∀ c ∈ cs, InOrder (scoredBlocks c)) (i : Nat) (factor : ℚ) :
    InOrder (scoredChildren cs i factor) ∧ From i (scoredChildren cs i factor) := by
  induction cs generalizing i factor with
  | nil => exact ⟨List.Pairwise.nil, nofun⟩
  | cons c cs ih =>
    have here := each c List.mem_cons_self
    by_cases passes : swamClassifyTerminator c = .unconditional
    · rw [scoredChildren_cut passes]
      exact ⟨inOrder_under here, from_under i factor _⟩
    · rw [scoredChildren_cons passes]
      obtain ⟨ordered, later⟩ := ih (fun c member => each c (List.mem_cons_of_mem _ member)) (i + 1)
        (factor * (1 / 2) ^ conditionals [c])
      exact ⟨here.append_under ordered later, (from_under i factor _).append later⟩

private theorem scoredCatches_inOrder {cs : List Expr}
    (each : ∀ c ∈ cs, InOrder (scoredBlocks c)) (i : Nat) :
    InOrder (scoredCatches cs i) ∧ From i (scoredCatches cs i) := by
  induction cs generalizing i with
  | nil => exact ⟨List.Pairwise.nil, nofun⟩
  | cons c cs ih =>
    obtain ⟨ordered, later⟩ := ih (fun c member => each c (List.mem_cons_of_mem _ member)) (i + 1)
    exact ⟨(each c List.mem_cons_self).append_under ordered later, (from_under i _ _).append later⟩

theorem scoredBlocks_inOrder (e : Expr) : InOrder (scoredBlocks e) := by
  induction e with
  | null => exact List.Pairwise.nil
  | node k cs ih =>
    unfold scoredBlocks
    split
    next => exact List.Pairwise.nil
    next same =>
      cases same
      obtain ⟨ordered, later⟩ := scoredChildren_inOrder ih 0 1
      refine List.pairwise_cons.mpr ⟨fun b member => ?_, ordered⟩
      obtain ⟨j, path, _, equal⟩ := later b member
      rw [equal]
      exact List.nil_lt_cons j path
    next ifTrue ifFalse same =>
      cases same
      exact (ih ifTrue (by simp)).append_under (inOrder_under (ih ifFalse (by simp))) (from_under 2 _ _)
    next body same =>
      cases same
      exact inOrder_under (ih body (by simp))
    next body catches same =>
      cases same
      obtain ⟨ordered, later⟩ := scoredCatches_inOrder
        (fun c member => ih c (List.mem_cons_of_mem _ member)) 1
      exact (ih body (by simp)).append_under ordered later
    next => exact List.Pairwise.nil

/-! ## What the traversal writes -/

section
variable {maxBlocks : Nat}

/-- The blocks written so far, followed by entries as far as there is room. -/
def fill (maxBlocks : Nat) (blocks entries : List ScoredBlock) : List ScoredBlock :=
  (blocks ++ entries).take maxBlocks

theorem fill_nil {blocks : List ScoredBlock} (room : blocks.length ≤ maxBlocks) :
    fill maxBlocks blocks [] = blocks := by
  rw [fill, List.append_nil, List.take_of_length_le room]

theorem fill_cons (blocks : List ScoredBlock) (b : ScoredBlock) (entries : List ScoredBlock) :
    fill maxBlocks blocks (b :: entries) = fill maxBlocks (blocks ++ [b]) entries := by
  rw [fill, fill, List.append_assoc, List.singleton_append]

theorem fill_fill (blocks first second : List ScoredBlock) :
    fill maxBlocks (fill maxBlocks blocks first) second = fill maxBlocks blocks (first ++ second) := by
  simp only [fill, ← List.append_assoc]
  rcases Nat.le_total maxBlocks (blocks ++ first).length with full | room
  · have long : maxBlocks ≤ ((blocks ++ first).take maxBlocks).length := by
      rw [List.length_take, Nat.min_eq_left full]
    rw [List.take_append_of_le_length long, List.take_take, Nat.min_self,
      List.take_append_of_le_length full]
  · rw [List.take_of_length_le room]

theorem fill_full {blocks : List ScoredBlock} (full : maxBlocks ≤ blocks.length)
    (room : blocks.length ≤ maxBlocks) (entries : List ScoredBlock) :
    fill maxBlocks blocks entries = blocks := by
  rw [fill, List.take_append_of_le_length full, List.take_of_length_le room]

theorem length_fill (blocks entries : List ScoredBlock) :
    (fill maxBlocks blocks entries).length ≤ maxBlocks := by
  rw [fill, List.length_take]
  exact Nat.min_le_left _ _

/-- An entry seen from where the traversal stands. -/
def ScoredBlock.place (path : List Nat) (score : ℚ) (depth : Nat) (b : ScoredBlock) : ScoredBlock :=
  ⟨path ++ b.block, score * b.rat, depth + b.depth⟩

theorem map_place_under (path : List Nat) (score : ℚ) (depth i : Nat) (factor : ℚ)
    (blocks : List ScoredBlock) :
    (under i factor blocks).map (ScoredBlock.place path score depth) =
      blocks.map (ScoredBlock.place (path ++ [i]) (score * factor) (depth + 1)) := by
  rw [under, List.map_map]
  refine List.map_congr_left fun b _ => ?_
  have product : score * (factor * b.rat) = score * factor * b.rat := (mul_assoc _ _ _).symm
  have sum : depth + (b.depth + 1) = depth + 1 + b.depth := by omega
  simp only [Function.comp, ScoredBlock.place, ScoredBlock.lift, ScoredBlock.rat, exactRat,
    List.append_assoc,
    List.singleton_append] at product ⊢
  rw [product, sum]

/-- The traversal of an expression fills up with what the list has for it. -/
def Fills (maxBlocks : Nat) (e : Expr) : Prop :=
  ∀ path score depth blocks, 0 < exactRat score → blocks.length ≤ maxBlocks →
    swamCollectScoredBlocks Doubles.exact maxBlocks e path score depth blocks =
      fill maxBlocks blocks ((scoredBlocks e).map (ScoredBlock.place path (exactRat score) depth))

/-- The same for a child, with what the way to it multiplies the score by. -/
theorem Fills.under {c : Expr} (fills : Fills maxBlocks c) (path : List Nat) (i depth : Nat)
    {score factor : ℚ} {current : Doubles.exact.Carrier} {blocks : List ScoredBlock}
    (same : exactRat current = score * factor) (positive : 0 < exactRat current)
    (room : blocks.length ≤ maxBlocks) :
    swamCollectScoredBlocks Doubles.exact maxBlocks c (path ++ [i]) current (depth + 1) blocks =
      fill maxBlocks blocks
        ((under i factor (scoredBlocks c)).map (ScoredBlock.place path score depth)) := by
  rw [map_place_under, ← same]
  exact fills _ _ _ _ positive room

private theorem collectBlock_fills {cs : List Expr} (each : ∀ c ∈ cs, Fills maxBlocks c) {i : Nat}
    (path : List Nat) {score factor : ℚ} {current : Doubles.exact.Carrier} (depth : Nat)
    {blocks : List ScoredBlock} (same : exactRat current = score * factor)
    (positive : 0 < exactRat current) (room : blocks.length ≤ maxBlocks) :
    collectBlock Doubles.exact maxBlocks cs i path current (depth + 1) blocks =
      fill maxBlocks blocks ((scoredChildren cs i factor).map (ScoredBlock.place path score depth)) := by
  induction cs generalizing i factor current blocks with
  | nil =>
    unfold collectBlock
    rw [scoredChildren, List.map_nil, fill_nil room]
  | cons c cs ih =>
    unfold collectBlock
    split
    next full => rw [fill_full full room]
    next =>
      have here := (each c List.mem_cons_self).under path i depth same positive room
      have rest := fun {current' blocks'} => @ih
        (fun c member => each c (List.mem_cons_of_mem _ member)) (i + 1)
        (factor * (1 / 2) ^ conditionals [c]) current' blocks'
      rw [here]
      cases passes : swamClassifyTerminator c with
      | unconditional =>
        have stops : Doubles.exact.le (Doubles.exact.ofRat 0) (Doubles.exact.ofRat 0) = true :=
          exact_le_zero.mpr (lt_irrefl 0)
        rw [scoredChildren_cut passes]
        exact if_pos stops
      | conditional =>
        have halved := exactRat_mul current (1 / 2)
        have positive' := mul_pos positive (show (0 : ℚ) < 1 / 2 by positivity)
        rw [← halved] at positive'
        rw [scoredChildren_cons (by simp [passes]), List.map_append, ← fill_fill]
        refine (if_neg (by simpa [exact_le_zero] using positive')).trans (rest ?_ positive' (length_fill _ _))
        rw [halved, same]
        simp [conditionals, passes, mul_assoc]
      | fallThrough =>
        rw [scoredChildren_cons (by simp [passes]), List.map_append, ← fill_fill]
        refine (if_neg (by simpa [exact_le_zero] using positive)).trans (rest ?_ positive (length_fill _ _))
        rw [same]
        simp [conditionals, passes]

private theorem collectCatches_fills {cs : List Expr} (each : ∀ c ∈ cs, Fills maxBlocks c) {i : Nat}
    (path : List Nat) {score : ℚ} {current : Doubles.exact.Carrier} (depth : Nat)
    {blocks : List ScoredBlock} (same : exactRat current = score * (1 / 10))
    (positive : 0 < exactRat current) (room : blocks.length ≤ maxBlocks) :
    collectCatches Doubles.exact maxBlocks cs i path current (depth + 1) blocks =
      fill maxBlocks blocks ((scoredCatches cs i).map (ScoredBlock.place path score depth)) := by
  induction cs generalizing i blocks with
  | nil =>
    unfold collectCatches
    rw [scoredCatches, List.map_nil, fill_nil room]
  | cons c cs ih =>
    unfold collectCatches
    split
    next full => rw [fill_full full room]
    next =>
      rw [(each c List.mem_cons_self).under path i depth same positive room, scoredCatches,
        List.map_append, ← fill_fill]
      exact ih (fun c member => each c (List.mem_cons_of_mem _ member)) (length_fill _ _)

/-- Past its own entry a block goes on with its children. -/
private theorem block_fills {name : Option String} {ty : Ty} {cs : List Expr}
    (each : ∀ c ∈ cs, Fills maxBlocks c) (path : List Nat) {score : Doubles.exact.Carrier} (depth : Nat)
    {blocks : List ScoredBlock} (positive : 0 < exactRat score) (space : blocks.length < maxBlocks) :
    collectBlock Doubles.exact maxBlocks cs 0 path score (depth + 1) (blocks ++ [⟨path, score, depth⟩]) =
      fill maxBlocks blocks ((scoredBlocks (.node (.block name ty) cs)).map
        (ScoredBlock.place path (exactRat score) depth)) := by
  have self : ScoredBlock.place path (exactRat score) depth ⟨[], (1 : ℚ), 0⟩ = ⟨path, score, depth⟩ := by
    have product : exactRat score * 1 = exactRat score := mul_one _
    simp only [ScoredBlock.place, ScoredBlock.rat, List.append_nil, Nat.add_zero]
    exact congrArg (fun q => (⟨path, q, depth⟩ : ScoredBlock)) product
  rw [scoredBlocks, List.map_cons, self, fill_cons]
  refine collectBlock_fills each path depth (mul_one _).symm positive ?_
  rw [List.length_append]
  exact space

private theorem arms_fills {cs : List Expr} (each : ∀ c ∈ cs, Fills maxBlocks c) (path : List Nat)
    {score : Doubles.exact.Carrier} (depth : Nat) {blocks : List ScoredBlock}
    (positive : 0 < exactRat score) (room : blocks.length ≤ maxBlocks) :
    collectArms Doubles.exact maxBlocks cs path (Doubles.exact.mul score (Doubles.exact.ofRat (1 / 2)))
        (depth + 1) blocks =
      fill maxBlocks blocks ((scoredBlocks (.node .if_ cs)).map
        (ScoredBlock.place path (exactRat score) depth)) := by
  have halved := exactRat_mul score (1 / 2)
  have positive' := mul_pos positive (show (0 : ℚ) < 1 / 2 by positivity)
  rw [← halved] at positive'
  rcases cs with _ | ⟨cond, _ | ⟨ifTrue, _ | ⟨ifFalse, _ | ⟨more, rest⟩⟩⟩⟩
  case cons.cons.cons.nil =>
    unfold collectArms
    rw [scoredBlocks, List.map_append, ← fill_fill,
      (each ifTrue (by simp)).under path 1 depth halved positive' room,
      (each ifFalse (by simp)).under path 2 depth halved positive' (length_fill _ _)]
  all_goals
    unfold collectArms scoredBlocks
    simp [fill_nil room]

private theorem body_fills {name : Option String} {cs : List Expr} (each : ∀ c ∈ cs, Fills maxBlocks c)
    (path : List Nat) {score : Doubles.exact.Carrier} (depth : Nat) {blocks : List ScoredBlock}
    (positive : 0 < exactRat score) (room : blocks.length ≤ maxBlocks) :
    collectBody Doubles.exact maxBlocks cs path (Doubles.exact.mul score (Doubles.exact.ofRat 2))
        (depth + 1) blocks =
      fill maxBlocks blocks ((scoredBlocks (.node (.loop name) cs)).map
        (ScoredBlock.place path (exactRat score) depth)) := by
  have doubled := exactRat_mul score 2
  have positive' := mul_pos positive (show (0 : ℚ) < 2 by positivity)
  rw [← doubled] at positive'
  rcases cs with _ | ⟨body, _ | ⟨more, rest⟩⟩
  case cons.nil =>
    unfold collectBody
    rw [scoredBlocks, (each body (by simp)).under path 0 depth doubled positive' room]
  all_goals
    unfold collectBody scoredBlocks
    simp [fill_nil room]

private theorem try_fills {name : Option String} {ty : Ty} {tags : List String}
    {delegate : Option String} {cs : List Expr} (each : ∀ c ∈ cs, Fills maxBlocks c)
    (path : List Nat) {score : Doubles.exact.Carrier} (depth : Nat) {blocks : List ScoredBlock}
    (positive : 0 < exactRat score) (room : blocks.length ≤ maxBlocks) :
    collectTry Doubles.exact maxBlocks cs path score (depth + 1) blocks =
      fill maxBlocks blocks ((scoredBlocks (.node (.try_ name ty tags delegate) cs)).map
        (ScoredBlock.place path (exactRat score) depth)) := by
  have caught := exactRat_mul score (1 / 10)
  have positive' := mul_pos positive (show (0 : ℚ) < 1 / 10 by positivity)
  rw [← caught] at positive'
  cases cs with
  | nil =>
    unfold collectTry scoredBlocks
    simp [fill_nil room]
  | cons body catches =>
    unfold collectTry
    rw [scoredBlocks, List.map_append, ← fill_fill,
      (each body (by simp)).under path 0 depth (mul_one _).symm positive room]
    exact collectCatches_fills (fun c member => each c (List.mem_cons_of_mem _ member)) path depth caught
      positive' (length_fill _ _)

theorem swamCollectScoredBlocks_fills (e : Expr) : Fills maxBlocks e := by
  induction e with
  | null =>
    intro path score depth blocks _ room
    unfold swamCollectScoredBlocks
    rw [scoredBlocks, List.map_nil, fill_nil room]
  | node k cs ih =>
    intro path score depth blocks positive room
    unfold swamCollectScoredBlocks
    split
    next stops =>
      have full := stops.resolve_right fun low => exact_le_zero.mp low positive
      rw [fill_full full room]
    next goesOn =>
      have space : blocks.length < maxBlocks := by
        have := fun full => goesOn (.inl full)
        omega
      cases k with
      | block name ty => exact block_fills ih path depth positive space
      | if_ => exact arms_fills ih path depth positive room
      | loop name => exact body_fills ih path depth positive room
      | try_ name ty tags delegate => exact try_fills ih path depth positive room
      | _ =>
        dsimp only
        rw [scoredBlocks, List.map_nil, fill_nil room] <;> simp

end

/-- The traversal writes the first `max_blocks` of all blocks on paths that no unconditional
terminator cuts off, in the order of their paths, each once, with the product of the factors along
its path and its depth. -/
theorem blockScoring_exact (e : Expr) (maxBlocks : Nat) :
    ∃ all : List ScoredBlock,
      swamCollectScoredBlocks Doubles.exact maxBlocks e [] (Doubles.exact.ofRat 1) 0 [] =
        all.take maxBlocks ∧
      (∀ b, b ∈ all ↔ (∃ name ty cs, Visits e b.block b.score (.node (.block name ty) cs)) ∧
        b.depth = b.block.length) ∧
      all.Pairwise (fun a b => a.block < b.block) ∧
      (all.map (·.block)).Nodup ∧
      ∀ b ∈ all, 0 < exactRat b.score := by
  refine ⟨scoredBlocks e, ?_, ?_, scoredBlocks_inOrder e, ?_, ?_⟩
  · have same : (scoredBlocks e).map (ScoredBlock.place [] 1 0) = scoredBlocks e := by
      refine List.map_id'' (fun b => ?_) _
      have product : 1 * b.rat = b.score := one_mul _
      simp only [ScoredBlock.place, List.nil_append, Nat.zero_add]
      rw [product]
    have filled := @swamCollectScoredBlocks_fills maxBlocks e [] (Doubles.exact.ofRat 1) 0 [] one_pos
      (Nat.zero_le _)
    rw [filled]
    exact congrArg (fill maxBlocks []) same
  · intro b
    rw [mem_scoredBlocks]
    exact ⟨fun scored => ⟨scored.visited, scored.depth⟩, fun ⟨visited, depth⟩ => ⟨visited, depth⟩⟩
  · refine List.pairwise_map.mpr ((scoredBlocks_inOrder e).imp fun before same => ?_)
    rw [same] at before
    exact List.lt_irrefl _ before
  · intro b member
    obtain ⟨⟨_, _, _, visits⟩, _⟩ := mem_scoredBlocks.mp member
    exact visits.score_pos

end Swam
