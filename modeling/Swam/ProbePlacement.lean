import Swam.Admissible
import Swam.BlockScoring
import Swam.ProbeTyping

/-!
# Where a probe is inserted

Two pieces of code decide where a probe goes: the traversal that scores blocks, which stops at
an unconditional terminator, and the draw of a position in the block chosen. The insertion keeps
a function well typed at every position. The positions do not respect the terminators.
-/
namespace Swam

open Binaryen

/-! ## Blocks and positions -/

section

variable (env : ExploitEnv) (reached : Nat)

/-- The blocks the weighted choice is made from. -/
def candidateBlocks (body : Expr) : List (SwamScoredBlock env.doubles) :=
  let D := env.doubles
  let blocks := swamCollectScoredBlocks D swamMaxBlocks body [] (D.ofRat 1) 0 []
  if reached > 0 then swamApplyDepthBoost D blocks else blocks

/-- Number of positions in a block that a probe may be put at. -/
def insertLimit (target : Expr) : Nat :=
  if target.ty ≠ Ty.none ∧ target.children.length > 0 then target.children.length
  else target.children.length + 1

/-- The block and the position in it that are drawn, `none` where there is no block. -/
def insertPosition (body : Expr) (r : Rand) : Option (List Nat × Nat) :=
  let blocks := candidateBlocks env reached body
  if blocks.length > 0 then
    let (selected, r) := swamWeightedBlockSelect env.doubles blocks r
    let path := (blocks[selected]?.map (·.block)).getD []
    some (path, (randBelow (insertLimit ((body.at? path).getD .null)) r).1)
  else none

theorem placeProbe_eq (body probe : Expr) (r : Rand) :
    (placeProbe env reached body probe r).1 =
      match insertPosition env reached body r with
      | some (path, pos) => body.modifyAt path (insertChild env pos probe)
      | none => .node (.block none body.ty) [probe, body] := by
  have count : (candidateBlocks env reached body).length = (swamCollectScoredBlocks env.doubles
      swamMaxBlocks body [] (env.doubles.ofRat 1) 0 []).length := by
    unfold candidateBlocks
    dsimp only
    split
    · exact List.length_map _
    · rfl
  unfold insertPosition placeProbe
  dsimp only
  rw [count]
  split <;> rfl

/-- Some random stream makes the choice fall on the block. -/
def Selectable {D : Doubles} (blocks : List (SwamScoredBlock D)) (b : SwamScoredBlock D) : Prop :=
  ∃ r, blocks[(swamWeightedBlockSelect D blocks r).1]? = some b

/-- No block that can be chosen has an unconditional terminator before its last position. -/
def NoDeadPosition (body : Expr) : Prop :=
  ∀ b, Selectable (candidateBlocks env reached body) b → ∀ target, body.at? b.block = some target →
    FallsThrough (target.children.take (insertLimit target - 1))

/-- What the insertion of a probe promises of a function: it stays well typed, and the probe is
not put after an unconditional terminator of its block. -/
structure ProbeKept (f : Func) (sig : Signature) (probe : Expr) (r : Rand) : Prop where
  typed : Func.Valid { f with body := (placeProbe env reached f.body probe r).1 } sig
  settled : (placeProbe env reached f.body probe r).1.Settled
  position : ∀ path pos, insertPosition env reached f.body r = some (path, pos) →
    ∀ target, f.body.at? path = some target → FallsThrough (target.children.take pos)

end

/-! ## Which positions can be drawn -/

theorem insertLimit_pos (target : Expr) : 0 < insertLimit target := by
  unfold insertLimit
  split
  next value => exact value.2
  next => exact Nat.succ_pos _

/-- A draw does not depend on the stream past what it reads. -/
theorem randBelow_congr {limit : Nat} {r : Rand} {source : Nat → Nat}
    (same : ∀ i < (randBelow limit r).2.pos, source i = r.source i) :
    randBelow limit ⟨source, r.pos⟩ =
      ((randBelow limit r).1, ⟨source, (randBelow limit r).2.pos⟩) := by
  unfold randBelow at same ⊢
  split
  · rfl
  next several =>
    rw [if_neg several] at same
    have read : source r.pos = r.source r.pos := same r.pos (Nat.lt_succ_self _)
    simp only [read]

theorem swamWeightedBlockSelect_congr {D : Doubles} {blocks : List (SwamScoredBlock D)} {r : Rand}
    {source : Nat → Nat}
    (same : ∀ i < (swamWeightedBlockSelect D blocks r).2.pos, source i = r.source i) :
    swamWeightedBlockSelect D blocks ⟨source, r.pos⟩ =
      ((swamWeightedBlockSelect D blocks r).1,
        ⟨source, (swamWeightedBlockSelect D blocks r).2.pos⟩) := by
  unfold swamWeightedBlockSelect at same ⊢
  dsimp only at same ⊢
  split
  · rfl
  next several =>
    rw [if_neg several] at same
    split
    next low =>
      rw [if_pos low] at same
      exact randBelow_congr same
    next high =>
      rw [if_neg high] at same
      rw [randBelow_congr same]

section Positions

variable {env : ExploitEnv} {reached : Nat} {body : Expr}

theorem insertPosition_spec {r : Rand} {path : List Nat} {pos : Nat}
    (drawn : insertPosition env reached body r = some (path, pos)) :
    ∃ b, Selectable (candidateBlocks env reached body) b ∧ b.block = path ∧
      pos < insertLimit ((body.at? path).getD .null) := by
  unfold insertPosition at drawn
  dsimp only at drawn
  split at drawn
  next positive =>
    have chosen := swamWeightedBlockSelect_lt positive r
    cases drawn
    refine ⟨_, ⟨r, List.getElem?_eq_getElem chosen⟩, ?_, randBelow_lt (insertLimit_pos _) _⟩
    rw [List.getElem?_eq_getElem chosen]
    rfl
  next => cases drawn

/-- Every position of every block that can be chosen can be drawn, for the draw of the position
comes after the choice of the block. -/
theorem exists_insertPosition {b : SwamScoredBlock env.doubles}
    (selectable : Selectable (candidateBlocks env reached body) b) {pos : Nat}
    (inside : pos < insertLimit ((body.at? b.block).getD .null)) :
    ∃ r, insertPosition env reached body r = some (b.block, pos) := by
  obtain ⟨r, chosen⟩ := selectable
  have positive : 0 < (candidateBlocks env reached body).length :=
    Nat.zero_lt_of_lt (List.getElem?_eq_some_iff.mp chosen).1
  let next := (swamWeightedBlockSelect env.doubles (candidateBlocks env reached body) r).2.pos
  let source := fun i => if i = next then pos else r.source i
  have again := @swamWeightedBlockSelect_congr _ (candidateBlocks env reached body) r source
    fun i before => if_neg (Nat.ne_of_lt before)
  refine ⟨⟨source, r.pos⟩, ?_⟩
  unfold insertPosition
  dsimp only
  rw [if_pos positive, again]
  simp only [chosen, Option.map_some, Option.getD_some]
  refine congrArg (some ∘ (b.block, ·)) ?_
  unfold randBelow
  split
  · omega
  · exact (Nat.mod_eq_of_lt (by simpa [source, next] using inside)).trans (if_pos rfl)

theorem candidateBlocks_points {b : SwamScoredBlock env.doubles}
    (selectable : Selectable (candidateBlocks env reached body) b) :
    ∃ name ty cs, body.at? b.block = some (.node (.block name ty) cs) := by
  obtain ⟨r, chosen⟩ := selectable
  have points := swamCollectScoredBlocks_points body (env.doubles.ofRat 1) 0
  have member := List.mem_of_getElem? chosen
  unfold candidateBlocks at member
  dsimp only at member
  split at member
  · obtain ⟨b', member', rfl⟩ := List.mem_map.mp member
    exact points b' member'
  · exact points b member

end Positions

/-! ## Typing -/

/-- Scopes inside the body of a function. -/
def Within (f : Func) (sig : Signature) (S : Scope) : Prop :=
  S.sig = sig ∧ S.locals = (f.scope sig).locals ∧ S.results = f.results

/-- An expression that is well typed as a body and branches nowhere is so anywhere in it. -/
theorem Binaryen.Valid.within {f : Func} {sig : Signature} {e : Expr} (valid : Valid (f.scope sig) e)
    {S : Scope} (inside : Within f sig S) : Valid S e := by
  obtain ⟨same, locals, results⟩ := inside
  refine valid.mono ⟨same ▸ .refl sig, fun known => locals ▸ known, results, ?_, ?_⟩
  · intro name t _ found
    cases found
  · intro name _ found
    cases found

private theorem insertIdx_split {l : List Expr} {pos : Nat} {e : Expr} (inside : pos ≤ l.length) :
    l.insertIdx pos e = l.take pos ++ e :: l.drop pos := by
  induction l generalizing pos with
  | nil =>
    cases Nat.le_zero.mp inside
    rfl
  | cons c l ih =>
    cases pos with
    | zero => rfl
    | succ pos =>
      rw [List.insertIdx_succ_cons, ih (Nat.le_of_succ_le_succ inside)]
      rfl

/-- Inserting the probe into a block before its last child, or at its end where it has no type,
and finalizing it. -/
theorem insertChild_better {env : ExploitEnv}
    (finalizes : ∀ name ty cs, env.finalize (.block name ty) cs = blockTy name cs) {S : Scope}
    {name : Option String} {ty : Ty} {cs : List Expr} {probe : Expr} {pos : Nat}
    (valid : Valid S (.node (.block name ty) cs)) (settled : Expr.Settled (.node (.block name ty) cs))
    (distinct : (Expr.labels (.node (.block name ty) cs)).Nodup) (closed : probe.Closed)
    (fits : Valid (S.enter (.block name ty)) probe)
    (drawn : pos < insertLimit (.node (.block name ty) cs)) :
    Better S (.node (.block name ty) cs) (insertChild env pos probe (.node (.block name ty) cs)) := by
  have limit : insertLimit (.node (.block name ty) cs) =
      if ty ≠ Ty.none ∧ cs.length > 0 then cs.length else cs.length + 1 := by
    rw [insertLimit, Expr.ty_node]
    rfl
  rw [limit] at drawn
  have inside : pos ≤ cs.length := by
    split at drawn <;> omega
  have keeps : ty ≠ Ty.none → cs.drop pos ≠ [] := by
    intro value
    have some_ : cs ≠ [] := fun empty =>
      value ((valid_node_iff.mp valid).1.2.2.2 (by rw [empty]; rfl))
    rw [if_pos ⟨value, List.length_pos_iff.mpr some_⟩] at drawn
    rw [ne_eq, List.drop_eq_nil_iff]
    omega
  have split_ : cs = cs.take pos ++ cs.drop pos := (List.take_append_drop pos cs).symm
  have inserted : cs.insertIdx pos probe = cs.take pos ++ probe :: cs.drop pos :=
    insertIdx_split inside
  have first : Better S (.node (.block name ty) cs)
      (.node (.block name ty) (cs.insertIdx pos probe)) := by
    rw [split_] at valid settled
    rw [inserted]
    conv => lhs; rw [split_]
    exact Valid.insert valid settled closed fits keeps
  have second := first.valid.finalize first.settled (first.labels.nodup_iff.mpr distinct)
  have written : insertChild env pos probe (.node (.block name ty) cs) =
      .node (.block name (blockTy name (cs.insertIdx pos probe))) (cs.insertIdx pos probe) := by
    rw [← finalizes name ty]
    rfl
  rw [written]
  exact first.trans second

/-- A body with the probe before it. -/
theorem wrapped_better {S : Scope} {body probe : Expr} (valid : Valid S body)
    (settled : body.Settled) (present : body ≠ .null) (closed : probe.Closed)
    (fits : Valid S probe) : Better S body (.node (.block none body.ty) [probe, body]) := by
  have type : body.top? = some body.ty.top := by
    cases body with
    | null => exact absurd rfl present
    | node k cs => rw [Expr.top?_node, Expr.ty_node]
  refine ⟨.node ?_ ?_, Expr.settled_node_iff.mpr ⟨?_, ?_⟩, ?_, fun label => ?_, ?_⟩
  · rw [List.map_cons, List.map_cons, closed.type, type]
    refine ⟨fun t member => ?_, fun t member => ?_, fun stuck => ?_, nofun⟩
    · cases List.mem_singleton.mp member
      exact .inr rfl
    · cases member
      split
      next stuck => exact .inl (by rw [stuck]; rfl)
      next => exact .inr rfl
    · rw [stuck]
      simp
  · simp only [List.forall_mem_cons]
    exact ⟨fits, valid, nofun⟩
  · intro name equal
    obtain ⟨rfl, stuck⟩ := Kind.block.inj equal
    refine blockTy_eq_unreachable.mpr ⟨body, rfl, .inl ⟨?_, nofun⟩⟩
    rw [type, stuck]
    rfl
  · simp only [List.forall_mem_cons]
    exact ⟨closed.settled, settled, nofun⟩
  · refine .inl ?_
    rw [Expr.top?_node, type]
    rfl
  · rw [Expr.sentTops_node]
    simpa [Kind.sends, closed.sends] using RefinesAll.refl _
  · rw [Expr.labels_node]
    simp [Kind.labels, closed.labels]

/-- Whatever is drawn, the body that results can stand for the one there was. -/
theorem placeProbe_better {env : ExploitEnv}
    (finalizes : ∀ name ty cs, env.finalize (.block name ty) cs = blockTy name cs) (reached : Nat)
    {f : Func} {sig : Signature} (valid : f.Valid sig) (settled : f.body.Settled)
    (present : f.body ≠ .null) {probe : Expr} (closed : probe.Closed)
    (fits : Valid (f.scope sig) probe) (r : Rand) :
    Better (f.scope sig) f.body (placeProbe env reached f.body probe r).1 := by
  rw [placeProbe_eq]
  cases drawn : insertPosition env reached f.body r with
  | none => exact wrapped_better valid.typed settled present closed fits
  | some choice =>
    obtain ⟨path, pos⟩ := choice
    obtain ⟨b, selectable, rfl, inside⟩ := insertPosition_spec drawn
    obtain ⟨name, ty, cs, here⟩ := candidateBlocks_points selectable
    rw [here, Option.getD_some] at inside
    refine Better.modifyAt (P := Within f sig) id ?_ ⟨rfl, rfl, rfl⟩ valid.typed settled
      valid.labels here
    intro S within blockValid blockSettled distinct
    exact insertChild_better finalizes blockValid blockSettled distinct closed
      (fits.within within) inside

theorem Binaryen.Func.Valid.better {f : Func} {sig : Signature} {body : Expr} (valid : f.Valid sig)
    (present : f.body ≠ .null) (better : Better (f.scope sig) f.body body) :
    Func.Valid { f with body } sig where
  typed := better.valid
  results := .inr ((valid.results.resolve_left present).refines better.type)
  labels := better.labels.nodup_iff.mpr valid.labels

/-- For every random stream the function stays well typed and its probe in live code, exactly when
no block that can be chosen has an unconditional terminator before its last position. -/
theorem placeProbe_keeps_iff {env : ExploitEnv}
    (finalizes : ∀ name ty cs, env.finalize (.block name ty) cs = blockTy name cs) (reached : Nat)
    {f : Func} {sig : Signature} (valid : f.Valid sig) (settled : f.body.Settled)
    (present : f.body ≠ .null) {probe : Expr} (closed : probe.Closed)
    (fits : Valid (f.scope sig) probe) :
    (∀ r, ProbeKept env reached f sig probe r) ↔ NoDeadPosition env reached f.body := by
  constructor
  · intro kept b selectable target here
    have last : insertLimit target - 1 < insertLimit ((f.body.at? b.block).getD .null) := by
      rw [here]
      exact Nat.sub_one_lt (Nat.ne_of_gt (insertLimit_pos target))
    obtain ⟨r, drawn⟩ := exists_insertPosition selectable last
    exact (kept r).position _ _ drawn target here
  · intro live r
    have better := placeProbe_better finalizes reached valid settled present closed fits r
    refine ⟨valid.better present better, better.settled, ?_⟩
    intro path pos drawn target here c member
    obtain ⟨b, selectable, rfl, inside⟩ := insertPosition_spec drawn
    rw [here, Option.getD_some] at inside
    exact live b selectable target here c
      (List.take_subset_take_left _ (Nat.le_sub_one_of_lt inside) member)

/-- Services that accept every module and finalize blocks by their contents. -/
def ExploitEnv.finalizing : ExploitEnv :=
  { ExploitEnv.accepting with
    finalize := fun k cs =>
      match k with
      | .block name _ => blockTy name cs
      | k => k.ty (cs.map Expr.ty?) }

/-- A function whose body has the given children, with the local of the probe. -/
def blockFunc (ty : Ty) (children : List Expr) : Func :=
  ⟨"f", Ty.none, Ty.none, [Ty.i32], .node (.block none ty) children⟩

def probeSignature : Signature := (swamAddMarkerGlobals (oneFunctionModule 1)).signature

/-- The probe of the row of `i32.load` at the last word of memory. -/
def boundaryProbe : Expr := (swamBuildProbe (oneFunctionModule 1) (some boundaryLoad) 0 "0" false).2

private theorem boundaryProbe_fits (ty : Ty) (children : List Expr) :
    boundaryProbe.Closed ∧ Valid ((blockFunc ty children).scope probeSignature) boundaryProbe :=
  swamBuildProbe_fits (by decide) _ rfl rfl rfl rfl nofun

private theorem gives_nop (S : Scope) : Gives S Ty.none (.node .nop []) :=
  .instruction .nil rfl (fun _ fits => ⟨[], rfl, fits⟩) (fun _ _ => rfl) (by decide)

/-- In a block without a terminator every position is fine. -/
theorem placeProbe_keeps_nop : ProbeKept .finalizing 0
    (blockFunc Ty.none [.node .nop []]) probeSignature boundaryProbe ⟨fun _ => 1, 0⟩ := by
  have body : Gives ((blockFunc Ty.none [.node .nop []]).scope probeSignature) Ty.none
      (blockFunc Ty.none [.node .nop []]).body :=
    .block (by simpa using gives_nop _)
  have ⟨closed, fits⟩ := boundaryProbe_fits Ty.none [.node .nop []]
  refine (placeProbe_keeps_iff (fun _ _ _ => rfl) 0 ⟨body.valid, .inr (.inr body.type), .nil⟩
    body.quiet.settled nofun closed fits).mpr ?_ _
  rintro b ⟨r, chosen⟩ target here c member
  -- the body is the only candidate
  have only : b ∈ [⟨[], (1 : ℚ), 0⟩] := List.mem_of_getElem? chosen
  cases List.mem_singleton.mp only
  cases here
  cases List.mem_singleton.mp member
  decide

/-- After a `return` the last position of a block is dead code. -/
theorem placeProbe_after_return :
    let f := blockFunc .unreachable [.node .return_ [.null], .node .nop []]
    (f.Valid probeSignature ∧ f.body.Settled) ∧
      ¬ ∀ r, ProbeKept .finalizing 0 f probeSignature boundaryProbe r := by
  refine ⟨⟨⟨.node ⟨?_, ?_, ?_, nofun⟩ ?_, .inr (.inl rfl), .nil⟩, ?_⟩, fun kept => ?_⟩
  · intro t member
    cases List.mem_singleton.mp member
    exact .inl rfl
  · intro t member
    cases member
    exact .inr rfl
  · exact fun _ => List.mem_cons_self
  · simp only [List.forall_mem_cons]
    exact ⟨.node ⟨none, rfl, .inl ⟨rfl, rfl⟩⟩ (by simpa using Valid.null), (gives_nop _).valid, nofun⟩
  · refine Expr.settled_node_iff.mpr ⟨fun name equal => ?_, ?_⟩
    · cases equal
      decide
    · simp only [List.forall_mem_cons]
      exact ⟨(Expr.Quiet.node rfl (by simpa using Expr.Quiet.null)).settled,
        (gives_nop ((blockFunc Ty.none []).scope probeSignature)).quiet.settled, nofun⟩
  · have dead := (kept ⟨fun _ => 1, 0⟩).position [] 1 rfl _ rfl (.node .return_ [.null])
      List.mem_cons_self
    exact dead rfl

end Swam
