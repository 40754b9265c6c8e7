import Mathlib.Data.Finset.Card
import Swam.ModuleRules

/-!
# The recursion of the fixup

A callee that the module has no function for is brought along, and its body is fitted in by the
fixup itself. Before that the module gets a function with the signature of the callee, which the
next search for a function of that signature finds. So there are at most as many fixups within
each other as there are signatures in the module spliced with, whatever its functions call.
-/
namespace Swam

open Binaryen Mut Lib

/-! ## Signatures -/

/-- What functions are matched by. -/
def signature (f : Func) : Ty × Ty := (wasmSimplifyType f.params, wasmSimplifyType f.results)

def signatures (m : Module) : List (Ty × Ty) := m.functions.map signature

/-- The signatures that no function of the module has. -/
def missing (spl : SpliceModule) (m : Module) : Finset (Ty × Ty) :=
  (signatures spl.mod).toFinset \ (signatures m).toFinset

theorem card_missing_le (spl : SpliceModule) (m : Module) :
    (missing spl m).card ≤ spl.mod.functions.length := by
  have bound := (signatures spl.mod).toFinset_card_le
  have subset := Finset.card_le_card (Finset.sdiff_subset (s := (signatures spl.mod).toFinset)
    (t := (signatures m).toFinset))
  have length : (signatures spl.mod).length = spl.mod.functions.length := List.length_map _
  unfold missing
  omega

/-- The search finds nothing just when the signature is not there. -/
theorem wasmFindMatchingFuncs_length {m : Module} {param result : Ty} :
    (wasmFindMatchingFuncs m param result false).length = 0 ↔ (param, result) ∉ signatures m := by
  rw [List.length_eq_zero_iff, wasmFindMatchingFuncs, List.filter_eq_nil_iff, signatures, List.mem_map]
  simp [signature]

/-- The function made for a callee has the signature that was looked for. -/
theorem signature_made (name : String) (params results : Ty) (vars : List Ty) (body : Expr) :
    signature ⟨name, wasmSimplifyType params, wasmSimplifyType results, vars, body⟩ =
      (wasmSimplifyType params, wasmSimplifyType results) := by
  simp [signature]

/-- Every signature is still there. -/
def KeepsSignatures (s t : MutState) : Prop := signatures s.mod ⊆ signatures t.mod

section
variable {spl : SpliceModule} {s t : MutState}

theorem KeepsSignatures.card_le (kept : KeepsSignatures s t) :
    (missing spl t.mod).card ≤ (missing spl s.mod).card := by
  refine Finset.card_le_card (Finset.sdiff_subset_sdiff (Finset.Subset.refl _) fun sig here => ?_)
  rw [List.mem_toFinset] at here ⊢
  exact kept here

/-- A function of a missing signature makes for one missing signature less. -/
theorem card_missing_lt {f : Func} {m : Module} (wanted : signature f ∈ signatures spl.mod)
    (absent : signature f ∉ signatures m) :
    (missing spl { m with functions := m.functions ++ [f] }).card < (missing spl m).card := by
  refine Finset.card_lt_card (Finset.ssubset_iff_of_subset ?_ |>.mpr ⟨signature f, ?_, ?_⟩)
  · refine Finset.sdiff_subset_sdiff (Finset.Subset.refl _) fun sig here => ?_
    simp only [signatures, List.map_append, List.mem_toFinset, List.mem_append] at here ⊢
    exact .inl here
  · simp [missing, wanted, absent]
  · simp [missing, signatures]

end

/-! ## Steps -/

/-- A run that has room for a fixup for each missing signature does not run out of it. -/
def EndsWithin (spl : SpliceModule) (depth : Nat) (s : MutState) (e : Stop) (_ : MutState) : Prop :=
  (missing spl s.mod).card < depth → e ≠ .endless

theorem boundedDraws : DrawRule (fun s t => t.mod.functions = s.mod.functions)
    fun _ e _ => e ≠ .endless where
  refl := fun _ => rfl
  trans := fun first second => second.trans first
  stop := fun _ stopped => stopped
  rand := fun _ _ => rfl
  instr := fun built => (wasmGenerateOneSimpleExpr_adds built).functions
  table := fun found => (findTable_adds found).functions
  newLocal := fun _ _ => rfl
  fatal := fun _ => nofun
  tableTaken := fun _ _ => nofun
  newGlobal := fun _ _ _ => rfl
  globalTaken := fun _ _ => nofun
  newName := fun _ => rfl
  label := fun _ inside => inside
  labelStop := fun _ stopped => stopped

private theorem keepsSignatures_of_eq {s t : MutState} (same : signatures t.mod = signatures s.mod) :
    KeepsSignatures s t := by
  unfold KeepsSignatures
  rw [same]
  exact List.Subset.refl _

/-- A variable more does not change the signature. -/
private theorem signatures_addVar (m : Module) (func : Nat) (ty : Ty) :
    signatures { m with
      functions := m.functions.modify func fun f => { f with vars := f.vars ++ [ty] } } =
      signatures m := by
  refine List.ext_getElem? fun i => ?_
  simp only [signatures, List.getElem?_map, List.getElem?_modify]
  split
  · cases m.functions[i]? <;> rfl
  · cases m.functions[i]? <;> rfl

theorem signatureSteps (spl : SpliceModule) (depth : Nat) :
    SpliceSteps KeepsSignatures (EndsWithin spl depth) where
  refl := fun s => List.Subset.refl _
  trans := fun first second => List.Subset.trans first second
  stop := fun kept within room => within (Nat.lt_of_le_of_lt kept.card_le room)
  memory := fun s _ _ => List.Subset.refl _
  draw := by
    intro _ x draws s
    rw [ends_draw]
    apply (draws _ _ boundedDraws _).mono
    · intro _ t same
      exact keepsSignatures_of_eq (congrArg (List.map signature) same)
    · exact fun _ _ differ _ => differ
  fatal := fun _ _ => nofun
  adds := fun s m r adds => keepsSignatures_of_eq (congrArg (List.map signature) adds.functions)
  tableTaken := fun _ _ _ => nofun
  newVar := fun s func ty => keepsSignatures_of_eq (signatures_addVar s.mod func ty)
  newFunction := by
    intro s f _
    unfold KeepsSignatures signatures
    rw [List.map_append]
    exact List.subset_append_left _ _
  functionTaken := fun _ _ _ => nofun

/-! ## The recursive call -/

section
variable {spl : SpliceModule} {fixup : Nat → ExprRef → Frag → Mut (Bool × ExprRef)} {depth : Nat}

/-- The state in which a callee was brought along: there is one more function, of a signature that
the module spliced with has and no function had before. -/
structure Brought (spl : SpliceModule) (s t : MutState) : Prop where
  added : ∃ f, t.mod = { s.mod with functions := s.mod.functions ++ [f] } ∧
    signature f ∈ signatures spl.mod ∧ signature f ∉ signatures s.mod

theorem Brought.card_lt {s t : MutState} (brought : Brought spl s t) :
    (missing spl t.mod).card < (missing spl s.mod).card := by
  obtain ⟨f, added, wanted, absent⟩ := brought.added
  rw [added]
  exact card_missing_lt wanted absent

theorem Brought.keepsSignatures {s t : MutState} (brought : Brought spl s t) : KeepsSignatures s t := by
  obtain ⟨f, added, _, _⟩ := brought.added
  unfold KeepsSignatures signatures
  rw [added, List.map_append]
  exact List.subset_append_left _ _

/-- The function made for a callee brings its signature along. -/
theorem shareFunction_brought {s : MutState} {tarFunc : Func} (known : tarFunc ∈ spl.mod.functions)
    (unmatched : signature tarFunc ∉ signatures s.mod) (name : String) (vars : List Ty) (body : Expr)
    (newFuncBody : ExprRef) :
    Ends (shareFunction ⟨name, wasmSimplifyType tarFunc.params, wasmSimplifyType tarFunc.results, vars,
        body⟩ newFuncBody) s (fun _ t => Brought spl s t) fun e _ => e ≠ .endless := by
  unfold Ends shareFunction
  split
  next run =>
    split at run
    · cases run
    · cases run
      refine ⟨_, rfl, ?_, ?_⟩
      · rw [signature_made]
        exact List.mem_map_of_mem known
      · rw [signature_made]
        exact unmatched
  next run =>
    split at run
    · cases run
      nofun
    · cases run

/-- A call makes room for the fixup of its callee: one signature less is missing there. -/
theorem fixCall_keeps
    (nested : ∀ curFunc curExpr target,
      Keeps KeepsSignatures (EndsWithin spl depth) (fixup curFunc curExpr target)) (name : String) :
    Keeps KeepsSignatures (EndsWithin spl (depth + 1)) (fixCall spl fixup name) := by
  have steps := signatureSteps spl (depth + 1)
  have chains := (signatureSteps spl depth).toChains
  unfold fixCall
  dsimp only
  split
  next tarFunc newFuncBody found _ =>
    intro s
    rw [ends_bind, ends_get, ends_ite]
    constructor
    · intro unmatched
      rw [wasmFindMatchingFuncs_length] at unmatched
      rw [ends_bind]
      apply (shareFunction_brought (List.mem_of_getElem? found) unmatched _ _ _ newFuncBody).mono
      · intro _ t brought
        have after := Keeps.bind chains (nested s.mod.functions.length newFuncBody
          ⟨.current s.mod.functions.length, newFuncBody⟩) fun fixed =>
            Keeps.bind chains ((signatureSteps spl depth).setFunctionBody s.mod.functions.length fixed.2)
              fun _ => Keeps.pure chains (some (toString s.mod.functions.length))
        apply (after t).mono
        · exact fun _ _ onward => List.Subset.trans brought.keepsSignatures onward
        · intro e u within room
          have less := brought.card_lt
          exact within (by omega)
      · exact fun _ _ differ _ => differ
    · intro _
      refine Keeps.bind steps.toChains (steps.draw (.pick _)) ?_ s
      rintro (_ | func)
      · exact fun s => steps.fatal s
      · exact .pure steps.toChains _
  · exact .pure steps.toChains _

theorem collectBranches_keeps (splBody expr : ExprRef) (nodes : List Nat) :
    Keeps KeepsSignatures (EndsWithin spl depth) (collectBranches splBody expr nodes) := by
  have chains := (signatureSteps spl depth).toChains
  induction nodes with
  | nil => exact .pure chains _
  | cons el rest ih =>
    unfold collectBranches
    split
    · exact ih
    · apply Keeps.bind chains
      · exact .ite (fun _ => .pure chains _) fun _ _ _ => nofun
      intro labelsSpl
      exact .bind chains ih fun _ => .pure chains _

end

theorem wasmSplicingFixup_keeps (spl : SpliceModule) (depth curFunc : Nat) (curExpr : ExprRef)
    (target : Frag) :
    Keeps KeepsSignatures (EndsWithin spl depth) (wasmSplicingFixup spl depth curFunc curExpr target) := by
  induction depth generalizing curFunc curExpr target with
  | zero => exact fun s room => absurd room (Nat.not_lt_zero _)
  | succ depth ih =>
    have steps := signatureSteps spl (depth + 1)
    have chains := steps.toChains
    apply Keeps.bind chains (steps.funcRefGet _ _)
    intro spliced
    apply Keeps.bind chains (steps.funcRefGet _ _)
    intro current
    apply Keeps.bind chains
    · exact fun s => steps.memory s _ _
    intro expr
    apply Keeps.ite <;> intro _
    · exact fun s => steps.fatal s
    apply Keeps.bind chains (collectBranches_keeps _ _ _)
    intro branches
    apply Keeps.bind chains (steps.renameLabels _ _ _)
    intro expr
    apply Keeps.bind chains
    · exact .ite (fun _ => .pure chains _) fun _ => steps.retargetFragment _ _ _ _ _ _
    rintro (_ | expr)
    · exact .pure chains _
    · exact steps.fixNodes (steps.fixKind (fixCall_keeps ih) _ _ _) _ _ _

/-! ## Deeper bounds -/

section
variable {spl : SpliceModule} {fixup fixup' : Nat → ExprRef → Frag → Mut (Bool × ExprRef)}

theorem fixCall_continues
    (nested : ∀ curFunc curExpr target,
      Continues Stop.endless (fixup curFunc curExpr target) (fixup' curFunc curExpr target))
    (name : String) : Continues Stop.endless (fixCall spl fixup name) (fixCall spl fixup' name) := by
  unfold fixCall
  dsimp only
  split
  · apply Continues.rest
    intro s
    apply Continues.ite <;> intro _
    · apply Continues.rest
      intro _
      exact .bind (nested _ _ _) fun _ => .refl _
    · exact .refl _
  · exact .refl _

theorem fixKind_continues
    (called : ∀ name, Continues Stop.endless (fixCall spl fixup name) (fixCall spl fixup' name))
    (splFunc : Func) (curFunc : Nat) (skipped : Bool) (kind : Kind) (localsCur : List LocalCxt) :
    Continues Stop.endless (fixKind spl fixup splFunc curFunc skipped kind localsCur)
      (fixKind spl fixup' splFunc curFunc skipped kind localsCur) := by
  cases kind with
  | call target ty => exact .bind (called target) fun _ => .refl _
  | _ => exact .refl _

theorem fixNodes_continues {fix fix' : Kind → List LocalCxt → Mut (Option (Kind × List LocalCxt))}
    (each : ∀ kind localsCur, Continues Stop.endless (fix kind localsCur) (fix' kind localsCur))
    (nodes : List Nat) (expr : ExprRef) (localsCur : List LocalCxt) :
    Continues Stop.endless (fixNodes fix nodes expr localsCur) (fixNodes fix' nodes expr localsCur) := by
  induction nodes generalizing expr localsCur with
  | nil => exact .refl _
  | cons el rest ih =>
    apply Continues.bind (each _ _)
    rintro (_ | ⟨kind, localsCur⟩)
    · exact .refl _
    · exact ih _ _

end

/-- Room for one fixup more changes nothing, unless there was too little. -/
theorem wasmSplicingFixup_continues (spl : SpliceModule) (depth curFunc : Nat) (curExpr : ExprRef)
    (target : Frag) :
    Continues Stop.endless (wasmSplicingFixup spl depth curFunc curExpr target)
      (wasmSplicingFixup spl (depth + 1) curFunc curExpr target) := by
  induction depth generalizing curFunc curExpr target with
  | zero => exact .throw _
  | succ depth ih =>
    unfold wasmSplicingFixup
    apply Continues.rest
    intro spliced
    apply Continues.rest
    intro current
    apply Continues.rest
    intro expr
    apply Continues.ite <;> intro _
    · exact .refl _
    apply Continues.rest
    intro branches
    apply Continues.rest
    intro expr
    apply Continues.rest
    rintro (_ | expr)
    · exact .refl _
    · exact fixNodes_continues (fixKind_continues (fixCall_continues ih) _ _ _) _ _ _

theorem wasmSplicingFixup_deeper (spl : SpliceModule) (depth more curFunc : Nat) (curExpr : ExprRef)
    (target : Frag) :
    Continues Stop.endless (wasmSplicingFixup spl depth curFunc curExpr target)
      (wasmSplicingFixup spl (depth + more) curFunc curExpr target) := by
  induction more with
  | zero => exact .refl _
  | succ more ih => exact ih.trans (wasmSplicingFixup_continues spl (depth + more) curFunc curExpr target)

/-! ## Termination -/

/-- A call starts a fixup only after the callee was brought along: what the fixup does elsewhere
makes no difference. -/
theorem fixCall_only_brought {spl : SpliceModule}
    {fixup fixup' : Nat → ExprRef → Frag → Mut (Bool × ExprRef)} {s : MutState}
    (same : ∀ t, Brought spl s t → ∀ curFunc curExpr target,
      fixup curFunc curExpr target t = fixup' curFunc curExpr target t) (name : String) :
    fixCall spl fixup name s = fixCall spl fixup' name s := by
  unfold fixCall
  dsimp only
  cases found : spl.mod.functions[spl.mod.functions.findIdx (·.name = name)]? with
  | none => rfl
  | some tarFunc =>
    cases spl.bodies[spl.mod.functions.findIdx (·.name = name)]? with
    | none => rfl
    | some newFuncBody =>
      apply run_bind_congr
      rintro _ _ ⟨⟩
      split
      next unmatched =>
        rw [wasmFindMatchingFuncs_length] at unmatched
        apply run_bind_congr
        intro _ t run
        have brought : Brought spl s t :=
          (shareFunction_brought (List.mem_of_getElem? found) unmatched _ _ _ newFuncBody).ok run
        simp only [Bind.bind, EStateM.bind, same t brought]
      · rfl

/-- The recursion through calls ends: there are at most as many fixups within each other as the
module spliced with has functions, and each of them starts after a function was added of a
signature that no function had before. -/
theorem splicingFixup_terminates (spl : SpliceModule) (curFunc : Nat) (curExpr : ExprRef)
    (target : Frag) (s : MutState) :
    let depth := spl.mod.functions.length + 1
    (∀ t, wasmSplicingFixup spl depth curFunc curExpr target s ≠ .error .endless t) ∧
      (∀ more, wasmSplicingFixup spl (depth + more) curFunc curExpr target s =
        wasmSplicingFixup spl depth curFunc curExpr target s) ∧
      ∀ name (fixup fixup' : Nat → ExprRef → Frag → Mut (Bool × ExprRef)) (u : MutState),
        (∀ t, Brought spl u t → ∀ func expr frag, fixup func expr frag t = fixup' func expr frag t) →
          fixCall spl fixup name u = fixCall spl fixup' name u := by
  intro depth
  have room : (missing spl s.mod).card < depth := Nat.lt_succ_of_le (card_missing_le spl s.mod)
  have avoids : Avoids .endless (wasmSplicingFixup spl depth curFunc curExpr target) s :=
    (wasmSplicingFixup_keeps spl depth curFunc curExpr target s).mono (fun _ _ _ => trivial)
      fun _ _ within => within room
  refine ⟨fun t stopped => Ends.error avoids stopped rfl, fun more => ?_, ?_⟩
  · exact ((wasmSplicingFixup_deeper spl depth more curFunc curExpr target).eq avoids).symm
  · exact fun name _ _ _ same => fixCall_only_brought same name

end Swam
