import Swam.FixupRequests
import Swam.SpliceRecursion

/-!
# Which fragments fit

The type of a label is looked up for the copied branch, in the body that has the original: there
the copy is never found. So the fixup turns down every fragment that has a branch, also one whose
branches stay inside it; without a branch it comes through.
-/
namespace Swam

open Binaryen Mut Lib ExprRef

/-! ## The search for the type of a label -/

/-- A search for a node that is not there leaves no label. -/
theorem wasmFindAvailableLabels_absent {target : Nat} {root : ExprRef} (absent : occ target root = 0) :
    (wasmFindAvailableLabels target root CList.empty).2.elements = [] := by
  obtain ⟨found, after, s, run, answer⟩ :=
    @Allocator.wasmFindAvailableLabels_forgets bumpAllocator target root CList.empty ()
  have missed : ¬ OccursIn target root := by
    rintro ⟨path, above, e, reached, named⟩
    have inside := reached.occ_le target
    have positive := occ_root named
    omega
  rcases @Allocator.wasmFindAvailableLabels_answers bumpAllocator target root CList.empty () with
    ⟨above, _, _, _, ⟨path, first⟩, _⟩ | ⟨after', s', run', _, restored, _⟩
  · exact absurd ⟨path, above, first.leads⟩ missed
  · rw [run] at run'
    cases run'
    have same : wasmFindAvailableLabels target root CList.empty = (false, after.labels) := answer.symm
    rw [same]
    change after.elements.map (·.2) = []
    rw [restored]
    rfl

/-- No branch of a copy is found in the body, whatever its label. -/
theorem collectBranches_untyped {splBody copy : ExprRef} {nodes : List Nat} {s t : MutState}
    {branches : List Branch} (apart : ∀ el ∈ nodes, occ el splBody = 0)
    (run : collectBranches splBody copy nodes s = .ok branches t) : ∀ br ∈ branches, br.brType = none := by
  induction nodes generalizing branches with
  | nil =>
    cases run
    nofun
  | cons el rest ih =>
    rw [List.forall_mem_cons] at apart
    rw [collectBranches] at run
    cases found : (kindAt copy el).bind branchLabel with
    | none =>
      rw [found] at run
      exact ih apart.2 run
    | some labelName =>
      rw [found] at run
      obtain ⟨labelsSpl, u, looped, run⟩ := run_bind_ok run
      obtain ⟨later, v, rest, run⟩ := run_bind_ok run
      cases run
      have same : labelsSpl = [] ∧ u = s := by
        unfold CList.foreach at looped
        split at looped
        · cases looped
          exact ⟨wasmFindAvailableLabels_absent apart.1, rfl⟩
        · cases looped
      obtain ⟨rfl, rfl⟩ := same
      exact List.forall_mem_cons.mpr ⟨rfl, ih apart.2 rest⟩

/-! ## Leading branches elsewhere -/

theorem recordedType_none {branches : List Branch} (untyped : ∀ br ∈ branches, br.brType = none)
    (expr : ExprRef) (labelName : String) : recordedType branches expr labelName = none := by
  rw [recordedType, List.findSome?_eq_none_iff]
  intro br member
  rw [untyped br member, ite_self]

section
variable {curResults splResults : Ty} {labelsCur : List LabelCxt} {branches : List Branch}
  {nodes : List Nat} {expr : ExprRef}

/-- A branch without a type is a failure. -/
theorem retargetFragment_branch (untyped : ∀ br ∈ branches, br.brType = none)
    (branch : ∃ el ∈ nodes, branchLabel ((kindAt expr el).getD .nop) ≠ none) :
    retargetFragment curResults splResults labelsCur branches nodes expr = pure none := by
  induction nodes with
  | nil =>
    obtain ⟨_, member, _⟩ := branch
    cases member
  | cons el rest ih =>
    rw [retargetFragment]
    cases here : branchLabel ((kindAt expr el).getD .nop) with
    | some labelName =>
      dsimp only
      rw [recordedType_none untyped]
    | none =>
      dsimp only
      split
      · rfl
      · apply ih
        obtain ⟨el', member, labelled⟩ := branch
        rcases List.mem_cons.mp member with rfl | later
        · exact absurd here labelled
        · exact ⟨el', later, labelled⟩

/-- Without branches nothing is to be done. -/
theorem retargetFragment_straight
    (straight : ∀ el ∈ nodes, branchLabel ((kindAt expr el).getD .nop) = none)
    (returns : ∀ el ∈ nodes, (kindAt expr el).getD .nop = .return_ →
      wasmSimplifyType curResults = wasmSimplifyType splResults) :
    retargetFragment curResults splResults labelsCur branches nodes expr = pure (some expr) := by
  induction nodes with
  | nil => rfl
  | cons el rest ih =>
    rw [List.forall_mem_cons] at straight returns
    rw [retargetFragment]
    dsimp only
    rw [straight.1]
    dsimp only
    rw [if_neg fun both => both.2 (returns.1 both.1)]
    exact ih straight.2 returns.2

end

/-! ## What a fragment refers to -/

/-- What the node refers to is in the module the fragment comes from. -/
def Known (spl : SpliceModule) : Kind → Prop
  | .globalGet name _ | .globalSet name => (spl.mod.getGlobal name).isSome = true
  | .tableGet table _ | .tableSet table | .tableGrow table =>
    (spl.mod.tables.find? (·.name = table)).isSome = true
  | .call target _ => ∃ tarFunc newFuncBody,
    spl.mod.functions[spl.mod.functions.findIdx (·.name = target)]? = some tarFunc ∧
      spl.bodies[spl.mod.functions.findIdx (·.name = target)]? = some newFuncBody
  | _ => True

theorem known_applyAll (spl : SpliceModule) (branches : List Branch) (rs : List Renaming) (addr : Nat)
    (k : Kind) : Known spl (applyAll branches rs addr k) ↔ Known spl k := by
  apply applyAll_iff
  · intro new k
    cases k <;> rfl
  · intro σ k
    cases k <;> rfl

section
variable {spl : SpliceModule} {fixup : Nat → ExprRef → Frag → Mut (Bool × ExprRef)}

theorem fixGlobal_known {name : String} (known : (spl.mod.getGlobal name).isSome = true) (written : Bool) :
    Returns (fixGlobal spl name written) fun r => r.isSome = true := by
  obtain ⟨global, found⟩ := Option.isSome_iff_exists.mp known
  unfold fixGlobal
  rw [found]
  apply Returns.bind .any
  intro s _
  apply Returns.bind .any
  rintro (_ | cur) _
  · exact .bind .any fun _ _ => .pure rfl
  · exact .pure rfl

theorem fixTable_known {table : String} (known : (spl.mod.tables.find? (·.name = table)).isSome = true) :
    Returns (fixTable spl table) fun r => r.isSome = true := by
  obtain ⟨t, found⟩ := Option.isSome_iff_exists.mp known
  unfold fixTable
  rw [found]
  exact .bind .any fun _ _ => .pure rfl

theorem fixCall_known {target : String} {ty : Ty} (known : Known spl (.call target ty)) :
    Returns (fixCall spl fixup target) fun r => r.isSome = true := by
  obtain ⟨tarFunc, newFuncBody, func, body⟩ := known
  unfold fixCall
  dsimp only
  rw [func, body]
  apply Returns.bind .any
  intro s _
  apply Returns.ite <;> intro _
  · apply Returns.bind .any
    intro _ _
    apply Returns.bind .any
    intro _ _
    exact .bind .any fun _ _ => .pure rfl
  · apply Returns.bind .any
    rintro (_ | func) _
    · exact .throw _
    · exact .pure rfl

/-- A node whose reference is known is fixed, if the process goes on. -/
theorem fixKind_known {k : Kind} (known : Known spl k) (splFunc : Func) (curFunc : Nat) (skipped : Bool)
    (localsCur : List LocalCxt) :
    Returns (fixKind spl fixup splFunc curFunc skipped k localsCur) fun r => r.isSome = true := by
  have indexed : ∀ (index : Nat) (fixed : Nat → Kind), Returns (if skipped = true
      then (pure (some (k, localsCur)) : Mut (Option (Kind × List LocalCxt)))
      else fixLocal splFunc curFunc index localsCur >>= fun found =>
        pure (some (fixed found.1, found.2))) fun r => r.isSome = true := by
    intro index fixed
    exact .ite (fun _ => .pure rfl) fun _ => .bind .any fun _ _ => .pure rfl
  unfold fixKind
  split
  · apply Returns.bind .any
    intro s _
    apply Returns.bind .any
    rintro (_ | func) _
    · exact .throw _
    · exact .pure rfl
  · exact indexed _ fun index => .localGet index _
  · exact indexed _ fun index => .localSet index
  · exact indexed _ fun index => .localTee index _
  · exact .bind (fixGlobal_known known _) fun _ found => .pure (by simpa using found)
  · exact .bind (fixGlobal_known known _) fun _ found => .pure (by simpa using found)
  · exact .bind (fixTable_known known) fun _ found => .pure (by simpa using found)
  · exact .bind (fixTable_known known) fun _ found => .pure (by simpa using found)
  · exact .bind (fixTable_known known) fun _ found => .pure (by simpa using found)
  · exact .bind .any fun _ _ => .pure rfl
  · exact .bind .any fun _ _ => .pure rfl
  · exact .bind .any fun _ _ => .pure rfl
  · exact .bind .any fun _ _ => .pure rfl
  · exact .bind (fixCall_known known) fun _ found => .pure (by simpa using found)
  · apply Returns.ite <;> intro _
    · exact .bind .any fun _ _ => .pure rfl
    · exact .pure rfl

/-- The last loop comes through where all references are known. -/
theorem fixNodes_known {fix : Kind → List LocalCxt → Mut (Option (Kind × List LocalCxt))}
    (each : ∀ k localsCur, Known spl k → Returns (fix k localsCur) fun r => r.isSome = true)
    {nodes : List Nat} (nodup : nodes.Nodup) {expr : ExprRef} (unique : ∀ x, occ x expr ≤ 1)
    (known : ∀ el ∈ nodes, Known spl ((kindAt expr el).getD .nop)) (localsCur : List LocalCxt) :
    Returns (fixNodes fix nodes expr localsCur) fun r => r.1 = true := by
  induction nodes generalizing expr localsCur with
  | nil => exact .pure rfl
  | cons el rest ih =>
    rw [List.nodup_cons] at nodup
    rw [List.forall_mem_cons] at known
    apply Returns.bind (each _ _ known.1)
    rintro (_ | ⟨kind, localsCur⟩) found
    · cases found
    apply ih nodup.2
    · intro x
      rw [setKind_eq_relabel _ (unique el), occ_relabel]
      exact unique x
    · intro el' later
      have other : el' ≠ el := by
        rintro rfl
        exact nodup.1 later
      rw [kindAt_setKind_other _ (unique el) other]
      exact known.2 el' later

end

/-! ## The answer of the fixup -/

/-- The copy is above everything that was there before. -/
theorem copied_apart {body : ExprRef} {next : Nat} (placed : ∀ x, 0 < occ x body → x < next) (e : Expr) :
    ∀ el ∈ fragmentNodes (place e next).1, occ el body = 0 := by
  intro el visited
  have late := fragmentNodes_place visited
  by_contra there
  have := placed el (by omega)
  omega

/-- The fragment is the very expression that is replaced. -/
def Skipped (curFunc : Nat) (curExpr : ExprRef) (target : Frag) : Prop :=
  target.func = .current curFunc ∧ target.expr.addr? = curExpr.addr?

/-- No `br`, `br_if` or `br_table` is visited. -/
def Straight (e : Expr) : Prop := ∀ k, Inspects e k → branchLabel k = none

/-- What the fragment refers to is in the module it comes from, and what it returns is what the
function returns that it is put into. -/
structure Resolved (spl : SpliceModule) (curResults splResults : Ty) (e : Expr) : Prop where
  known : ∀ k, Inspects e k → Known spl k
  returns : Inspects e .return_ → wasmSimplifyType curResults = wasmSimplifyType splResults

/-- Renaming makes no branch and takes none away. -/
theorem branchLabel_applyAll (branches : List Branch) (rs : List Renaming) (addr : Nat) (k : Kind) :
    branchLabel (applyAll branches rs addr k) = none ↔ branchLabel k = none := by
  apply applyAll_iff (P := fun k => branchLabel k = none)
  · intro new k
    cases k <;> rfl
  · intro σ k
    cases k <;> simp [mapTargets, branchLabel]

theorem applyAll_return (branches : List Branch) (rs : List Renaming) (addr : Nat) (k : Kind) :
    applyAll branches rs addr k = .return_ ↔ k = .return_ := by
  apply applyAll_iff (P := fun k => k = .return_)
  · intro new k
    cases k <;> simp [setLabel]
  · intro σ k
    cases k <;> simp [mapTargets]

theorem localKnown_applyAll (splFunc : Func) (branches : List Branch) (rs : List Renaming) (addr : Nat)
    (k : Kind) : LocalKnown splFunc (applyAll branches rs addr k) ↔ LocalKnown splFunc k := by
  apply applyAll_iff
  · intro new k
    cases k <;> rfl
  · intro σ k
    cases k <;> rfl

/-- A visited node before and after a change of kinds. -/
theorem kindAt_visited {copy : ExprRef} (unique : ∀ x, occ x copy ≤ 1) {el : Nat}
    (visited : el ∈ fragmentNodes copy) (g : Nat → Kind → Kind) :
    ∃ k, Inspects copy.expr k ∧ kindAt (relabel g copy) el = some (g el k) := by
  obtain ⟨path, above, k, site⟩ := mem_fragmentNodes.mp visited
  refine ⟨k, site.inspects, ?_⟩
  rw [kindAt_relabel, kindAt_site site (unique el)]
  rfl

section
variable {spl : SpliceModule} {depth curFunc : Nat} {curExpr : ExprRef} {target : Frag} {s t : MutState}
  {splFunc cur : Func} {splBody curBody : ExprRef}
  (gotSpl : target.func.get spl s = .ok (splFunc, splBody) s)
  (gotCur : (FuncRef.current curFunc).get spl s = .ok (cur, curBody) s)
  (placed : ∀ x, 0 < occ x splBody → x < s.nextAddr)
  (resolved : Resolved spl cur.results splFunc.results target.expr.expr)
include gotSpl gotCur placed resolved

/-- The fixup turns down every fragment with a branch, but for the one that stays in its place. -/
theorem wasmSplicingFixup_answer {b : Bool} {fixed : ExprRef}
    (run : wasmSplicingFixup spl depth curFunc curExpr target s = .ok (b, fixed) t) :
    b = true ↔ Skipped curFunc curExpr target ∨ Straight target.expr.expr := by
  cases depth with
  | zero => cases run
  | succ depth =>
    rw [wasmSplicingFixup] at run
    dsimp only at run
    obtain ⟨got, s₁, here, run⟩ := run_bind_ok run
    cases gotSpl.symm.trans here
    obtain ⟨got, s₂, here, run⟩ := run_bind_ok run
    cases gotCur.symm.trans here
    obtain ⟨copy, s₃, copied, run⟩ := run_bind_ok run
    cases copied
    generalize skips : (decide (target.func = .current curFunc) &&
      decide (target.expr.addr? = curExpr.addr?)) = skipped at run
    have skipped_iff : Skipped curFunc curExpr target ↔ skipped = true := by
      simp [Skipped, ← skips]
    split at run
    · cases run
    obtain ⟨branches, s₄, collected, run⟩ := run_bind_ok run
    obtain ⟨renamed, s₅, labelling, run⟩ := run_bind_ok run
    obtain ⟨retargeted, s₆, retargeting, run⟩ := run_bind_ok run
    have same := expr_place target.expr.expr s.nextAddr
    have unique := occ_place_le_one target.expr.expr s.nextAddr
    have apart := copied_apart placed target.expr.expr
    generalize (place target.expr.expr s.nextAddr).1 = copy at *
    have nodup := fragmentNodes_nodup unique
    have untyped := collectBranches_untyped apart collected
    obtain ⟨insts, _⟩ := collectBranches_collected collected
    obtain ⟨rs, _, labelled, _⟩ := renameLabels_run (insts ▸ nodup.filter _) nodup unique s₄
    cases labelling.symm.trans labelled
    have still : ∀ x, occ x (relabel (applyAll branches rs) copy) ≤ 1 := by simpa using unique
    have kinds := @kindAt_visited copy unique
    -- whatever is not turned down before is fixed
    have finishes : retargeted = some (relabel (applyAll branches rs) copy) → b = true := by
      rintro rfl
      refine (fixNodes_known (fun k localsCur known => fixKind_known known _ _ _ localsCur) nodup still
        ?_ _ s₆).ok run
      intro el visited
      obtain ⟨k, visits, kind⟩ := kinds visited (applyAll branches rs)
      rw [kind, Option.getD_some, known_applyAll]
      exact resolved.known k (same ▸ visits)
    cases skipped with
    | true =>
      cases retargeting
      exact iff_of_true (finishes rfl) (.inl (skipped_iff.mpr rfl))
    | false =>
      rw [if_neg Bool.false_ne_true] at retargeting
      by_cases straight : Straight target.expr.expr
      · refine iff_of_true (finishes ?_) (.inr straight)
        rw [retargetFragment_straight] at retargeting
        · cases retargeting
          rfl
        · intro el visited
          obtain ⟨k, visits, kind⟩ := kinds visited (applyAll branches rs)
          rw [kind, Option.getD_some, branchLabel_applyAll]
          exact straight k (same ▸ visits)
        · intro el visited returns
          obtain ⟨k, visits, kind⟩ := kinds visited (applyAll branches rs)
          rw [kind, Option.getD_some] at returns
          rw [applyAll_return] at returns
          rw [returns, same] at visits
          exact resolved.returns visits
      · rw [retargetFragment_branch untyped] at retargeting
        · cases retargeting
          cases run
          refine iff_of_false Bool.false_ne_true ?_
          rintro (skip | holds)
          · cases skipped_iff.mp skip
          · exact straight holds
        · unfold Straight at straight
          push Not at straight
          obtain ⟨k, visits, branch⟩ := straight
          obtain ⟨path, above, addr, site⟩ := exists_site (same ▸ visits)
          have visited := mem_fragmentNodes.mpr ⟨path, above, k, site⟩
          refine ⟨addr, visited, ?_⟩
          rw [kindAt_relabel, kindAt_site site (unique addr), Option.map_some, Option.getD_some, Ne,
            branchLabel_applyAll]
          exact branch

end

/-! ## Where the fixup comes back -/

theorem collectBranches_ends (splBody expr : ExprRef) (nodes : List Nat) (s : MutState) :
    Ends (collectBranches splBody expr nodes) s (fun _ t => t = s) fun e _ => e = .uninitializedList := by
  induction nodes with
  | nil => exact rfl
  | cons el rest ih =>
    unfold collectBranches
    split
    · exact ih
    · rw [ends_bind]
      unfold CList.foreach
      rw [ends_ite]
      refine ⟨fun _ => ?_, fun _ => rfl⟩
      rw [ends_pure, ends_bind]
      exact ih.mono (fun _ _ same => same) fun _ _ never => never

/-- The branches are collected where a label comes before each in the search. -/
theorem collectBranches_run {splBody expr : ExprRef} {nodes : List Nat}
    (looked : ∀ el ∈ nodes, ((kindAt expr el).bind branchLabel).isSome = true → LabelBefore el splBody)
    (s : MutState) : ∃ branches, collectBranches splBody expr nodes s = .ok branches s := by
  have ends := collectBranches_ends splBody expr nodes s
  have safe := (collectBranches_loopsSafely splBody expr nodes s).mpr looked
  cases run : collectBranches splBody expr nodes s with
  | ok branches t =>
    cases ends.ok run
    exact ⟨branches, rfl⟩
  | error e t => exact absurd (ends.error run) (safe.error run)

theorem renameLabels_granted {spl : SpliceModule} (branches : List Branch) (nodes : List Nat)
    (expr : ExprRef) : Granted spl (renameLabels branches nodes expr) fun _ => True := by
  induction nodes generalizing expr with
  | nil => exact .pure trivial
  | cons el rest ih =>
    rw [renameLabels_cons]
    split
    · exact ih expr
    · have named : Granted spl (draw Gen.freshName) fun _ => True := fun s serves => ⟨trivial, { serves with }⟩
      exact .bind named fun _ _ => ih _

/-- A fixup can start, and its fragment stays in its place or has no branch. -/
structure FixupReady (spl : SpliceModule) (curFunc : Nat) (curExpr : ExprRef) (target : Frag)
    (s : MutState) (splFunc cur : Func) (splBody curBody : ExprRef) : Prop where
  gotSpl : target.func.get spl s = .ok (splFunc, splBody) s
  gotCur : (FuncRef.current curFunc).get spl s = .ok (cur, curBody) s
  present : isPresent target.expr = true
  placed : ∀ x, 0 < occ x splBody → x < s.nextAddr
  labelled : (∃ k, Inspects target.expr.expr k ∧ (branchLabel k).isSome = true) →
    ∃ k, Inspects splBody.expr k ∧ (labelOf k).isSome = true
  locals : Skipped curFunc curExpr target ∨ ∀ k, Inspects target.expr.expr k → LocalKnown splFunc k
  fits : Skipped curFunc curExpr target ∨ Straight target.expr.expr ∧
    (Inspects target.expr.expr .return_ → wasmSimplifyType cur.results = wasmSimplifyType splFunc.results)

/-- Every request of such a fixup is granted, also those of the fixups within it. -/
theorem wasmSplicingFixup_granted {spl : SpliceModule} (portable : spl.Portable) (depth curFunc : Nat)
    (curExpr : ExprRef) (target : Frag) (s : MutState) (serves : Provides spl s) {splFunc cur : Func}
    {splBody curBody : ExprRef} (ready : FixupReady spl curFunc curExpr target s splFunc cur splBody curBody) :
    Ends (wasmSplicingFixup spl depth curFunc curExpr target) s (fun _ t => Provides spl t)
      fun e _ => e = .endless := by
  induction depth generalizing curFunc curExpr target s splFunc cur splBody curBody with
  | zero => exact rfl
  | succ depth ih =>
    have nested : NestedGranted spl (wasmSplicingFixup spl depth) := by
      intro func body f t serves member got
      refine ih func body ⟨.current func, body⟩ t serves ⟨got, got, portable.present body member,
        serves.placed body member, portable.labelled body member, .inl ⟨rfl, rfl⟩, .inl ⟨rfl, rfl⟩⟩
    rw [wasmSplicingFixup]
    dsimp only
    generalize skips : (decide (target.func = .current curFunc) &&
      decide (target.expr.addr? = curExpr.addr?)) = skipped
    have skipped_iff : Skipped curFunc curExpr target ↔ skipped = true := by
      simp [Skipped, ← skips]
    rw [ends_bind, Ends, ready.gotSpl]
    dsimp only
    rw [ends_bind, Ends, ready.gotCur]
    dsimp only
    have served : Provides spl { s with nextAddr := (place target.expr.expr s.nextAddr).2 } :=
      (allocExpr_granted target.expr.expr s serves).2
    rw [ends_bind, Ends, allocExpr]
    dsimp only
    have same := expr_place target.expr.expr s.nextAddr
    have unique := occ_place_le_one target.expr.expr s.nextAddr
    have apart := copied_apart ready.placed target.expr.expr
    have present : isPresent (place target.expr.expr s.nextAddr).1 = true := by
      have := ready.present
      unfold isPresent at *
      cases expr : target.expr with
      | null =>
        rw [expr] at this
        cases this
      | node a k cs => rfl
    generalize place target.expr.expr s.nextAddr = copied at *
    obtain ⟨copy, next⟩ := copied
    dsimp only at *
    have nodup := fragmentNodes_nodup unique
    have kinds := @kindAt_visited copy unique
    rw [present, if_neg (by decide), ends_bind]
    -- a branch is looked up only where the body has a label
    have looked : BranchesLabelled splBody copy := by
      intro el visited branch
      refine labelBefore_of_absent (apart el visited) (ready.labelled ?_)
      obtain ⟨k, inspects, kind⟩ := kinds visited fun _ k => k
      rw [relabel_id] at kind
      exact ⟨k, same ▸ inspects, by rwa [kind] at branch⟩
    obtain ⟨branches, collected⟩ := collectBranches_run looked { s with nextAddr := next }
    obtain ⟨insts, _⟩ := collectBranches_collected collected
    obtain ⟨rs, u, labelled, _⟩ := renameLabels_run (insts ▸ nodup.filter _) nodup unique
      { s with nextAddr := next }
    rw [Ends, collected]
    dsimp only
    have served := ((renameLabels_granted branches (fragmentNodes copy) copy _ served).ok labelled).2
    have still : ∀ x, occ x (relabel (applyAll branches rs) copy) ≤ 1 := by simpa using unique
    have retargeted : (if skipped = true then pure (some (relabel (applyAll branches rs) copy))
        else retargetFragment cur.results splFunc.results (labelsAround curBody curExpr) branches
          (fragmentNodes copy) (relabel (applyAll branches rs) copy) : Mut (Option ExprRef)) =
        pure (some (relabel (applyAll branches rs) copy)) := by
      split
      · rfl
      next moved =>
        obtain ⟨straight, returns⟩ := ready.fits.resolve_left fun skip => moved (skipped_iff.mp skip)
        apply retargetFragment_straight
        · intro el visited
          obtain ⟨k, inspects, kind⟩ := kinds visited (applyAll branches rs)
          rw [kind, Option.getD_some, branchLabel_applyAll]
          exact straight k (same ▸ inspects)
        · intro el visited here
          obtain ⟨k, inspects, kind⟩ := kinds visited (applyAll branches rs)
          rw [kind, Option.getD_some, applyAll_return] at here
          rw [here, same] at inspects
          exact returns inspects
    rw [ends_bind, Ends, labelled]
    dsimp only
    rw [retargeted, ends_bind, ends_pure]
    refine (fixNodes_granted (Q := fun k => skipped = true ∨ LocalKnown splFunc k)
      (fun k localsCur known => fixKind_granted nested known _ localsCur) nodup still ?_ _ u served).mono
      (fun _ _ known => known.2) fun _ _ endless => endless
    intro el visited
    obtain ⟨k, inspects, kind⟩ := kinds visited (applyAll branches rs)
    rw [kind, Option.getD_some, localKnown_applyAll]
    exact ready.locals.imp skipped_iff.mp fun locals => locals k (same ▸ inspects)

/-- Where the fixup comes back, it has accepted just the fragments without a branch and the ones that
stay in their place. It comes back where requests are granted and labels can be looked up. -/
theorem splicingFixup_accepts (spl : SpliceModule) (depth curFunc : Nat) (curExpr : ExprRef)
    (target : Frag) (s : MutState) {splFunc cur : Func} {splBody curBody : ExprRef}
    (gotSpl : target.func.get spl s = .ok (splFunc, splBody) s)
    (gotCur : (FuncRef.current curFunc).get spl s = .ok (cur, curBody) s)
    (placed : ∀ x, 0 < occ x splBody → x < s.nextAddr)
    (resolved : Resolved spl cur.results splFunc.results target.expr.expr) :
    (∀ b fixed t, wasmSplicingFixup spl depth curFunc curExpr target s = .ok (b, fixed) t →
      (b = true ↔ Skipped curFunc curExpr target ∨ Straight target.expr.expr)) ∧
    (Provides spl s → spl.Portable → isPresent target.expr = true → (missing spl s.mod).card < depth →
      (Skipped curFunc curExpr target ∨ ∀ k, Inspects target.expr.expr k → LocalKnown splFunc k) →
      (Skipped curFunc curExpr target → ¬ Straight target.expr.expr →
        ∃ k, Inspects splBody.expr k ∧ (labelOf k).isSome = true) →
      ((∃ fixed t, wasmSplicingFixup spl depth curFunc curExpr target s = .ok (true, fixed) t) ↔
        Skipped curFunc curExpr target ∨ Straight target.expr.expr)) := by
  have answer := fun b fixed t => @wasmSplicingFixup_answer spl depth curFunc curExpr target s t splFunc cur
    splBody curBody gotSpl gotCur placed resolved b fixed
  refine ⟨answer, ?_⟩
  intro serves portable present room locals labelled
  constructor
  · rintro ⟨fixed, t, run⟩
    exact (answer _ _ _ run).mp rfl
  · intro fits
    have branches : (∃ k, Inspects target.expr.expr k ∧ (branchLabel k).isSome = true) →
        ¬ Straight target.expr.expr := by
      rintro ⟨k, inspects, branch⟩ straight
      rw [straight k inspects] at branch
      cases branch
    have granted := wasmSplicingFixup_granted portable depth curFunc curExpr target s serves
      { gotSpl, gotCur, present, placed, locals
        labelled := fun branch => labelled (fits.resolve_right (branches branch)) (branches branch)
        fits := fits.imp_right fun straight => ⟨straight, resolved.returns⟩ }
    have bounded := wasmSplicingFixup_keeps spl depth curFunc curExpr target s
    cases run : wasmSplicingFixup spl depth curFunc curExpr target s with
    | ok result t =>
      obtain ⟨b, fixed⟩ := result
      rw [(answer _ _ _ run).mpr fits]
      exact ⟨fixed, t, rfl⟩
    | error e t => exact absurd (granted.error run) (bounded.error run room)

/-! ## A closed fragment -/

/-- A block that is left, with an instruction after that. -/
def leftEarly : Expr :=
  .node (.block (some "a") Ty.none) [.node (.break_ "a") [.null, .null], .node .nop []]

/-- A module with one function, which is the block. -/
def leavingModule : SpliceModule where
  mod :=
    { functions := [⟨"f", Ty.none, Ty.none, [], leftEarly⟩]
      globals := [], exports := [], memories := [], segments := [], tables := []
      features := [] }
  bodies := [(place leftEarly 1).1]

/-- A module with one function that does nothing, next to the other module in memory. -/
def idleTarget : MutState :=
  { emptyTarget with
    mod := { emptyTarget.mod with functions := [⟨"0", Ty.none, Ty.none, [], .null⟩] }
    bodies := [.node 0 .nop []] }

private theorem inspects_leftEarly {k : Kind} (inspects : Inspects leftEarly k) :
    k = .block (some "a") Ty.none ∨ k = .break_ "a" ∨ k = .nop := by
  cases inspects with
  | here => exact .inl rfl
  | child _ member below =>
    simp only [List.mem_cons, List.not_mem_nil, or_false] at member
    rcases member with rfl | rfl
    · cases below with
      | here => exact .inr (.inl rfl)
      | child _ member below =>
        simp only [List.mem_cons, List.not_mem_nil, or_false, or_self] at member
        subst member
        cases below
    · cases below with
      | here => exact .inr (.inr rfl)
      | child _ member _ => cases member

private theorem leavingModule_resolved {e : Expr}
    (parts : ∀ k, Inspects e k → k = .block (some "a") Ty.none ∨ k = .break_ "a" ∨ k = .nop) :
    Resolved leavingModule Ty.none Ty.none e := by
  refine ⟨?_, fun _ => rfl⟩
  intro k inspects
  rcases parts k inspects with rfl | rfl | rfl <;> trivial

private theorem inspects_nop {k : Kind} (inspects : Inspects (.node .nop []) k) : k = .nop := by
  cases inspects with
  | here => rfl
  | child _ member _ => cases member

private theorem leavingModule_placed (x : Nat) (there : 0 < occ x (place leftEarly 1).1) : x < 8 := by
  rw [occ_place] at there
  have bound : (place leftEarly 1).2 = 4 := rfl
  rw [bound] at there
  split at there
  · omega
  · cases there

private theorem leavingModule_portable : leavingModule.Portable := by
  constructor <;> simp only [leavingModule, List.forall_mem_singleton]
  · rfl
  · intro _
    rw [expr_place]
    exact ⟨_, .here _ _, rfl⟩

private theorem idleTarget_serves : Provides leavingModule idleTarget := by
  have zero : NumeralsBelow ["0"] := by
    intro n member
    have equal : toString n = toString 0 := List.mem_singleton.mp member
    cases toString_nat_injective equal
    decide
  have none : NumeralsBelow [] := fun _ member => absurd member List.not_mem_nil
  refine ⟨rfl, List.cons_ne_nil _ _, ⟨zero, none, none⟩, Nat.zero_le _, fun _ => rfl, ?_⟩
  simp only [leavingModule, List.forall_mem_singleton]
  exact leavingModule_placed

/-- The instruction after the branch is accepted. -/
theorem splicingFixup_accepts_nop : ∃ fixed t, wasmSplicingFixup leavingModule 2 0 (.node 0 .nop [])
    ⟨.splice 0, .node 3 .nop []⟩ idleTarget = .ok (true, fixed) t := by
  have accepts := splicingFixup_accepts leavingModule 2 0 (.node 0 .nop []) ⟨.splice 0, .node 3 .nop []⟩
    idleTarget rfl rfl leavingModule_placed
    (leavingModule_resolved fun k inspects => .inr (.inr (inspects_nop inspects)))
  have straight : Straight (.node .nop []) := by
    intro k inspects
    rw [inspects_nop inspects]
    rfl
  refine (accepts.2 idleTarget_serves leavingModule_portable rfl (by decide) ?_ ?_).mpr (.inr straight)
  · refine .inr fun k inspects => ?_
    rw [inspects_nop inspects]
    trivial
  · exact fun _ bent => absurd straight bent

/-- The whole block is turned down, although its branch stays inside. -/
theorem splicingFixup_rejects_closed :
    leftEarly.targets = ["a"] ∧ leftEarly.labels = ["a"] ∧
      Resolved leavingModule Ty.none Ty.none leftEarly ∧
      ∃ fixed t, wasmSplicingFixup leavingModule 2 0 (.node 0 .nop [])
        ⟨.splice 0, (place leftEarly 1).1⟩ idleTarget = .ok (false, fixed) t :=
  ⟨rfl, rfl, leavingModule_resolved fun _ inspects => inspects_leftEarly inspects, _, _, rfl⟩

end Swam
