import Mathlib.Data.List.TakeWhile
import Swam.RecurseSound
import Swam.SpliceRenaming
import Swam.ListLoops

/-!
# The requests of a fixup

A fixup asks Binaryen for locals, globals, tables, a memory and functions. Where the numbers that
it gives as names are free and the data segments can be copied, every request is granted, and it
stays so. Then nothing but a list without an element ends the process.
-/
namespace Swam

open Binaryen Mut Lib ExprRef

/-! ## Modules that grant requests -/

/-- The numbers given as names are free, the memory can be set up, and the bodies of both modules are
where they should be. -/
structure Provides (spl : SpliceModule) (s : MutState) : Prop where
  paired : s.bodies.length = s.mod.functions.length
  inhabited : s.mod.functions ≠ []
  names : EachKind NumeralsBelow s.mod
  sole : s.mod.memories.length ≤ 1
  copyable : s.mod.memories = [] → (copySegments s.mod).isSome = true
  placed : ∀ body ∈ spl.bodies, ∀ x, 0 < occ x body → x < s.nextAddr

/-- From wherever requests are granted, the computation comes back to such a state. -/
def Granted {α : Type} (spl : SpliceModule) (x : Mut α) (P : α → Prop) : Prop :=
  ∀ s, Provides spl s → Ends x s (fun a t => P a ∧ Provides spl t) fun e _ => e = .endless

variable {spl : SpliceModule}

namespace Granted

variable {α β : Type} {x y : Mut α} {f : α → Mut β} {P : α → Prop} {Q : β → Prop}

theorem pure {a : α} (holds : P a) : Granted spl (pure a) P := fun _ serves => ⟨holds, serves⟩

theorem get : Granted spl get (Provides spl) := fun _ serves => ⟨serves, serves⟩

theorem bind (first : Granted spl x P) (rest : ∀ a, P a → Granted spl (f a) Q) :
    Granted spl (x >>= f) Q := by
  intro s serves
  rw [ends_bind]
  exact (first s serves).mono (fun a t known => rest a known.1 t known.2) fun _ _ endless => endless

theorem ite {c : Prop} [Decidable c] (yes : c → Granted spl x P) (no : ¬ c → Granted spl y P) :
    Granted spl (if c then x else y) P := by
  split
  next holds => exact yes holds
  next fails => exact no fails

theorem mono {P' : α → Prop} (granted : Granted spl x P) (weaker : ∀ a, P a → P' a) :
    Granted spl x P' :=
  fun s serves => (granted s serves).mono (fun a _ known => ⟨weaker a known.1, known.2⟩) fun _ _ endless => endless

end Granted

/-! ## Draws -/

theorem granted_pick {α : Type} (xs : List α) :
    Granted spl (draw (Gen.pick xs)) fun r => xs ≠ [] → r.isSome = true := by
  intro s serves
  rw [ends_draw]
  refine ⟨?_, { serves with }⟩
  intro filled
  have bound := randBelow_lt (List.length_pos_of_ne_nil filled) s.rand
  exact Option.isSome_iff_exists.mpr ⟨_, List.getElem?_eq_getElem bound⟩

theorem granted_below (limit : Nat) : Granted spl (draw (Gen.below limit)) fun _ => True :=
  fun _ serves => ⟨trivial, { serves with }⟩

private theorem choose_run {α : Type} (xs : List α) (selected : Option α) (s : GenState) :
    ∃ r rand, Gen.choose xs selected s = .ok r { s with rand } := by
  induction xs generalizing selected s with
  | nil => exact ⟨selected, s.rand, rfl⟩
  | cons x rest ih =>
    cases selected with
    | none => exact ih (some x) s
    | some y => exact ih _ { s with rand := (randBelow 2 s.rand).2 }

theorem granted_choose {α : Type} (xs : List α) :
    Granted spl (draw (Gen.choose xs none)) fun _ => True := by
  intro s serves
  obtain ⟨r, rand, run⟩ := choose_run xs none ⟨s.mod, s.names, s.rand, s.patience, [], []⟩
  rw [ends_draw, Ends, run]
  exact ⟨trivial, { serves with }⟩

/-! ## Requests -/

theorem addVar_granted (func : Nat) (ty : Ty) : Granted spl (addVar func ty) fun _ => True := by
  intro s serves
  have numbered := (numberedRule.newVar s func ty)
  refine ⟨trivial, ?_, ?_, numbered.below serves.names, serves.sole, serves.copyable, serves.placed⟩
  · rw [serves.paired]
    exact (List.length_modify _ _ _).symm
  · intro none
    have := congrArg List.length none
    rw [List.length_modify] at this
    exact serves.inhabited (List.length_eq_zero_iff.mp this)

theorem setFunctionBody_granted (func : Nat) (body : ExprRef) :
    Granted spl (setFunctionBody func body) fun _ => True := by
  intro s serves
  refine ⟨trivial, ?_, serves.inhabited, serves.names, serves.sole, serves.copyable, serves.placed⟩
  rw [← serves.paired]
  exact List.length_set

theorem allocExpr_granted (e : Expr) : Granted spl (allocExpr e) fun _ => True := by
  intro s serves
  refine ⟨trivial, { serves with placed := ?_ }⟩
  intro body member x there
  exact Nat.lt_of_lt_of_le (serves.placed body member x there) (le_place e s.nextAddr)

theorem fixLocal_granted {splFunc : Func} {index : Nat}
    (bound : index < (splFunc.params.expand.map Ty.one ++ splFunc.vars).length) (curFunc : Nat)
    (localsCur : List LocalCxt) : Granted spl (fixLocal splFunc curFunc index localsCur) fun _ => True := by
  unfold fixLocal
  rw [List.getElem?_eq_getElem bound]
  apply Granted.bind (granted_choose _)
  rintro (_ | el) _
  · exact .bind (addVar_granted _ _) fun _ _ => .pure trivial
  · exact .pure trivial

private theorem simplified_expand (ty : Ty) :
    (wasmSimplifyType ty).expand.map ValTy.top = (wasmSimplifyType ty).expand := by
  cases ty <;> simp [wasmSimplifyType, Ty.expand]

theorem addNumberedGlobal_granted (ty : Ty) :
    Granted spl (draw (addNumberedGlobal (wasmSimplifyType ty))) fun _ => True := by
  intro s serves
  obtain ⟨inits, rand, built, _⟩ := dummyExprs_spec serves.inhabited (simplified_expand ty) s.rand
  have free := serves.names.free.2.1
  have numbered : NamesNumbered s.mod (s.mod.addGlobal ⟨toString s.mod.globals.length,
    wasmSimplifyType ty, true, tupleOf inits⟩) := .of_addGlobal rfl
  rw [ends_draw, addNumberedGlobal, ends_bind, ends_get, ends_bind, ends_request, built]
  dsimp only
  rw [ends_bind]
  dsimp only [Ends, Gen.addGlobal]
  rw [if_neg (Bool.eq_false_iff.mp free)]
  exact ⟨trivial, serves.paired, serves.inhabited, numbered.below serves.names, serves.sole,
    serves.copyable, serves.placed⟩

theorem fixGlobal_granted (name : String) (written : Bool) :
    Granted spl (fixGlobal spl name written) fun _ => True := by
  unfold fixGlobal
  split
  · exact .pure trivial
  · apply Granted.bind .get
    intro s _
    apply Granted.bind (granted_choose _)
    rintro (_ | cur) _
    · exact .bind (addNumberedGlobal_granted _) fun _ _ => .pure trivial
    · exact .pure trivial

theorem newTable_granted (ty : ValTy) {s : MutState} (serves : Provides spl s) :
    Ends (draw (newTable ty)) s (fun _ t => t.mod.tables ≠ [] ∧ Provides spl t) fun e _ => e = .endless := by
  have free := serves.names.free.2.2
  have made : addNumberedTable s.mod ty = some (⟨toString s.mod.tables.length, 0x10, none, ty⟩,
      s.mod.addTable ⟨toString s.mod.tables.length, 0x10, none, ty⟩) := by
    have absent : ¬ s.mod.tables.any (·.name = toString s.mod.tables.length) = true :=
      Bool.eq_false_iff.mp free
    exact if_neg absent
  have numbered := NamesNumbered.of_adds (addNumberedTable_adds made)
  rw [ends_draw, newTable, ends_request, made]
  refine ⟨?_, serves.paired, serves.inhabited, numbered.below serves.names, serves.sole, serves.copyable,
    serves.placed⟩
  simp [Module.addTable]

theorem matchingTable_granted (ty : ValTy) : Granted spl (matchingTable ty) fun _ => True := by
  unfold matchingTable
  apply Granted.bind .get
  intro s _
  apply Granted.bind (granted_choose _)
  rintro (_ | cur) _
  · exact .bind (fun s serves => (newTable_granted ty serves).mono (fun _ _ known => ⟨trivial, known.2⟩)
      fun _ _ endless => endless) fun _ _ => .pure trivial
  · exact .pure trivial

theorem fixTable_granted (table : String) : Granted spl (fixTable spl table) fun _ => True := by
  unfold fixTable
  split
  · exact .pure trivial
  · exact .bind (matchingTable_granted _) fun _ _ => .pure trivial

theorem sizedTable_granted : Granted spl sizedTable fun _ => True := by
  have picks {name : Option Table → Mut String} (named : ∀ table, name (some table) = pure table.name) :
      ∀ s, Provides spl s → s.mod.tables ≠ [] →
        Ends (get >>= fun u : MutState => draw (Gen.pick u.mod.tables) >>= name) s
          (fun _ t => True ∧ Provides spl t) fun e _ => e = .endless := by
    intro s serves filled
    rw [ends_bind, ends_get, ends_bind]
    apply (granted_pick _ s serves).mono
    · rintro (_ | table) t ⟨found, served⟩
      · cases found filled
      · rw [named]
        exact ⟨trivial, served⟩
    · exact fun _ _ endless => endless
  intro s serves
  unfold sizedTable
  rw [ends_bind, ends_get]
  dsimp only
  rw [ends_ite]
  constructor
  · intro _
    rw [ends_bind]
    exact (newTable_granted .funcref serves).mono (fun _ t made => picks (fun _ => rfl) t made.2 made.1)
      fun _ _ endless => endless
  · intro some_
    refine picks (fun _ => rfl) s serves ?_
    rintro none
    exact some_ (by rw [none]; rfl)

/-- A memory is set up where none would be lost but the only one. -/
private theorem wasmSetMemory_some {s : MutState} (serves : Provides spl s)
    (needed : s.mod.memories = [] ∨ s.mod.segments = []) (addSeg : Bool) (r : Rand) :
    ∃ m r', wasmSetMemory s.mod addSeg r = some (m, r') ∧ m.memories.length = 1 := by
  have settings : ∃ found, memorySettings s.mod = some found := by
    unfold memorySettings soleMemory
    have sole := serves.sole
    match memories : s.mod.memories with
    | [] => simp [Module.hasMemory, memories]
    | [mem] => simp [Module.hasMemory, memories]
    | _ :: _ :: _ => simp [memories] at sole
  obtain ⟨⟨initial, maximum, shared, memory64⟩, settings⟩ := settings
  unfold wasmSetMemory
  rw [settings, Option.bind_some]
  dsimp only
  split
  next some_ =>
    have empty := needed.resolve_right (List.ne_nil_of_length_pos some_)
    obtain ⟨segments, copied⟩ := Option.isSome_iff_exists.mp (serves.copyable empty)
    rw [copied]
    exact ⟨_, _, rfl, rfl⟩
  next =>
    split
    · exact ⟨_, _, rfl, rfl⟩
    · exact ⟨_, _, rfl, rfl⟩

theorem memoryIf_granted {needed : Module → Bool}
    (when : ∀ m, needed m = true → m.memories = [] ∨ m.segments = []) (addSeg : Bool) :
    Granted spl (draw (memoryIf needed addSeg)) fun _ => True := by
  intro s serves
  rw [ends_draw, memoryIf, ends_request]
  dsimp only
  by_cases needs : needed s.mod = true
  · obtain ⟨m, r, set, single⟩ := wasmSetMemory_some serves (when _ needs) addSeg s.rand
    have adds := wasmSetMemory_adds set
    have numbered := NamesNumbered.of_adds adds
    rw [if_pos needs, set]
    refine ⟨trivial, ?_, ?_, numbered.below serves.names, Nat.le_of_eq single, ?_, serves.placed⟩
    · rw [serves.paired]
      exact congrArg List.length adds.functions.symm
    · exact adds.functions ▸ serves.inhabited
    · intro none
      rw [none] at single
      cases single
  · rw [if_neg needs]
    exact ⟨trivial, { serves with }⟩

theorem fixSegment_granted {needed : Module → Bool}
    (when : ∀ m, needed m = true → m.memories = [] ∨ m.segments = []) :
    Granted spl (fixSegment needed) fun _ => True := by
  unfold fixSegment
  apply Granted.bind (memoryIf_granted when true)
  intro _ _
  apply Granted.bind .get
  intro s _
  exact .bind (granted_below _) fun _ _ => .pure trivial

/-! ## Callees -/

/-- Every function of the module can be brought along: it has a body, and where that has a branch it
has a label that counts. -/
structure SpliceModule.Portable (spl : SpliceModule) : Prop where
  present : ∀ body ∈ spl.bodies, isPresent body = true
  labelled : ∀ body ∈ spl.bodies, (∃ k, Inspects body.expr k ∧ (branchLabel k).isSome = true) →
    ∃ k, Inspects body.expr k ∧ (labelOf k).isSome = true

/-- The fixup of a function that was brought along. -/
def NestedGranted (spl : SpliceModule) (fixup : Nat → ExprRef → Frag → Mut (Bool × ExprRef)) : Prop :=
  ∀ func body f s, Provides spl s → body ∈ spl.bodies →
    (FuncRef.current func).get spl s = .ok (f, body) s →
    Ends (fixup func body ⟨.current func, body⟩) s (fun _ t => Provides spl t) fun e _ => e = .endless

theorem shareFunction_granted {s : MutState} (serves : Provides spl s) {f : Func}
    (number : f.name = toString s.mod.functions.length) (body : ExprRef) :
    ∃ t, shareFunction f body s = .ok () t ∧ Provides spl t ∧
      (FuncRef.current s.mod.functions.length).get spl t = .ok (f, body) t := by
  have free := serves.names.free.1
  have numbered : NamesNumbered s.mod { s.mod with functions := s.mod.functions ++ [f] } :=
    .of_addFunction number
  unfold shareFunction
  rw [number, if_neg (Bool.eq_false_iff.mp free)]
  refine ⟨_, rfl, ⟨?_, by simp, numbered.below serves.names, serves.sole, serves.copyable, serves.placed⟩, ?_⟩
  · simp [serves.paired]
  · have last : (s.bodies ++ [body])[s.mod.functions.length]? = some body := by
      rw [← serves.paired, List.getElem?_concat_length]
    have read (k : MutState → Mut (Func × ExprRef)) (u : MutState) : (get >>= k) u = k u u := rfl
    rw [FuncRef.get, read, List.getElem?_concat_length, last]
    rfl

section
variable {fixup : Nat → ExprRef → Frag → Mut (Bool × ExprRef)} (nested : NestedGranted spl fixup)
include nested

theorem fixCall_granted (target : String) : Granted spl (fixCall spl fixup target) fun _ => True := by
  intro s serves
  unfold fixCall
  dsimp only
  split
  next tarFunc newFuncBody _ found =>
    rw [ends_bind, ends_get, ends_ite]
    constructor
    · intro _
      obtain ⟨t, shared, served, got⟩ := shareFunction_granted serves (f := ⟨toString s.mod.functions.length,
        wasmSimplifyType tarFunc.params, wasmSimplifyType tarFunc.results, tarFunc.vars, tarFunc.body⟩) rfl newFuncBody
      rw [ends_bind, Ends, shared]
      dsimp only
      rw [ends_bind]
      apply (nested _ newFuncBody _ t served (List.mem_of_getElem? found) got).mono
      · intro fixed u served
        exact Granted.bind (setFunctionBody_granted _ _) (fun _ _ => .pure trivial) u served
      · exact fun _ _ endless => endless
    · intro some_
      refine Granted.bind (granted_pick _) ?_ s serves
      rintro (_ | func) found
      · have filled := found fun none => some_ (by rw [none]; rfl)
        cases filled
      · exact .pure trivial
  next => exact ⟨trivial, serves⟩

/-- Locals are those of the function the fragment comes from. -/
def LocalKnown (splFunc : Func) : Kind → Prop
  | .localGet index _ | .localSet index | .localTee index _ =>
    index < (splFunc.params.expand.map Ty.one ++ splFunc.vars).length
  | _ => True

theorem fixKind_granted {splFunc : Func} {skipped : Bool} {k : Kind}
    (known : skipped = true ∨ LocalKnown splFunc k) (curFunc : Nat) (localsCur : List LocalCxt) :
    Granted spl (fixKind spl fixup splFunc curFunc skipped k localsCur) fun _ => True := by
  have indexed : ∀ (index : Nat) (fixed : Nat → Kind),
      (skipped = true ∨ index < (splFunc.params.expand.map Ty.one ++ splFunc.vars).length) →
      Granted spl (if skipped = true
        then (pure (some (k, localsCur)) : Mut (Option (Kind × List LocalCxt)))
        else fixLocal splFunc curFunc index localsCur >>= fun found =>
          pure (some (fixed found.1, found.2))) fun _ => True := by
    intro index fixed bound
    apply Granted.ite
    · exact fun _ => .pure trivial
    · intro fits
      exact .bind (fixLocal_granted (bound.resolve_left fits) _ _) fun _ _ => .pure trivial
  have absent : ∀ m : Module, (!m.hasMemory) = true → m.memories = [] ∨ m.segments = [] := by
    intro m none
    exact .inl (by simpa [Module.hasMemory] using none)
  unfold fixKind
  split
  · apply Granted.bind .get
    intro s served
    apply Granted.bind (granted_pick _)
    rintro (_ | func) found
    · cases found served.inhabited
    · exact .pure trivial
  · exact indexed _ (fun index => .localGet index _) known
  · exact indexed _ (fun index => .localSet index) known
  · exact indexed _ (fun index => .localTee index _) known
  · exact .bind (fixGlobal_granted _ _) fun _ _ => .pure trivial
  · exact .bind (fixGlobal_granted _ _) fun _ _ => .pure trivial
  · exact .bind (fixTable_granted _) fun _ _ => .pure trivial
  · exact .bind (fixTable_granted _) fun _ _ => .pure trivial
  · exact .bind (fixTable_granted _) fun _ _ => .pure trivial
  · exact .bind sizedTable_granted fun _ _ => .pure trivial
  · refine .bind (fixSegment_granted ?_) fun _ _ => .pure trivial
    intro m needed
    rcases Bool.or_eq_true _ _ ▸ needed with none | none
    · exact absent m none
    · exact .inr (List.length_eq_zero_iff.mp (of_decide_eq_true none))
  · refine .bind (fixSegment_granted ?_) fun _ _ => .pure trivial
    exact fun m none => .inr (List.length_eq_zero_iff.mp (of_decide_eq_true none))
  · exact .bind (matchingTable_granted _) fun _ _ => .pure trivial
  · exact .bind (fixCall_granted nested _) fun _ _ => .pure trivial
  · apply Granted.ite <;> intro _
    · exact .bind (memoryIf_granted absent _) fun _ _ => .pure trivial
    · exact .pure trivial

end

/-! ## The loops over a fragment -/

theorem kindAt_setKind_other {expr : ExprRef} {addr el : Nat} (change : Kind → Kind)
    (unique : occ addr expr ≤ 1) (other : el ≠ addr) :
    kindAt (setKind expr addr change) el = kindAt expr el := by
  rw [setKind_eq_relabel change unique, kindAt_relabel]
  cases kindAt expr el with
  | none => rfl
  | some k => rw [Option.map_some, if_neg other]

theorem fixNodes_granted {Q : Kind → Prop} {fix : Kind → List LocalCxt → Mut (Option (Kind × List LocalCxt))}
    (each : ∀ k localsCur, Q k → Granted spl (fix k localsCur) fun _ => True) {nodes : List Nat}
    (nodup : nodes.Nodup) {expr : ExprRef} (unique : ∀ x, occ x expr ≤ 1)
    (all : ∀ el ∈ nodes, Q ((kindAt expr el).getD .nop)) (localsCur : List LocalCxt) :
    Granted spl (fixNodes fix nodes expr localsCur) fun _ => True := by
  induction nodes generalizing expr localsCur with
  | nil => exact .pure trivial
  | cons el rest ih =>
    rw [List.nodup_cons] at nodup
    rw [List.forall_mem_cons] at all
    apply Granted.bind (each _ _ all.1)
    rintro (_ | ⟨kind, localsCur⟩) _
    · exact .pure trivial
    apply ih nodup.2
    · intro x
      rw [setKind_eq_relabel _ (unique el), occ_relabel]
      exact unique x
    · intro el' later
      have other : el' ≠ el := by
        rintro rfl
        exact nodup.1 later
      rw [kindAt_setKind_other _ (unique el) other]
      exact all.2 el' later

private theorem mem_searchOrderAll {n : Nat × Kind} {cs : List ExprRef} :
    n ∈ searchOrderAll cs ↔ ∃ c ∈ cs, n ∈ searchOrder c := by
  induction cs with
  | nil => simp [searchOrderAll]
  | cons c cs ih => rw [searchOrderAll, List.mem_append, ih, List.exists_mem_cons_iff]

/-- The search comes to what can be reached. -/
theorem mem_searchOrder {root : ExprRef} {addr : Nat} {k : Kind} :
    (addr, k) ∈ searchOrder root ↔ ∃ path above, SiteAt root path above addr k := by
  induction root with
  | null =>
    refine iff_of_false List.not_mem_nil ?_
    rintro ⟨_, _, _, reached⟩
    cases reached
  | node b k' cs ih =>
    rw [searchOrder, List.mem_cons]
    constructor
    · rintro (here | below)
      · cases here
        exact ⟨[], [], cs, .here _⟩
      · split at below
        next enumerated =>
          obtain ⟨c, member, inside⟩ := mem_searchOrderAll.mp below
          obtain ⟨path, above, ds, reached⟩ := (ih c member).mp inside
          obtain ⟨i, position⟩ := List.mem_iff_getElem?.mp member
          exact ⟨i :: path, k' :: above, ds, .child enumerated position reached⟩
        next => cases below
    · rintro ⟨_, _, ds, reached⟩
      cases reached with
      | here => exact .inl rfl
      | child enumerated position below =>
        have member := List.mem_of_getElem? position
        rw [if_pos enumerated]
        exact .inr (mem_searchOrderAll.mpr ⟨_, member, (ih _ member).mpr ⟨_, _, ds, below⟩⟩)

/-- A search for a node that is not there comes to every label. -/
theorem labelBefore_of_absent {target : Nat} {root : ExprRef} (absent : occ target root = 0)
    (labelled : ∃ k, Inspects root.expr k ∧ (labelOf k).isSome = true) : LabelBefore target root := by
  obtain ⟨k, visits, label⟩ := labelled
  obtain ⟨path, above, addr, site⟩ := exists_site visits
  refine ⟨(addr, k), ?_, label⟩
  rw [List.takeWhile_eq_self_iff.mpr]
  · exact mem_searchOrder.mpr ⟨path, above, site⟩
  · rintro ⟨addr', k'⟩ member
    obtain ⟨_, _, ds, reached⟩ := mem_searchOrder.mp member
    have inside := reached.occ_le addr'
    rw [occ_node, if_pos rfl] at inside
    simp only [ne_eq, decide_not, Bool.not_eq_true', decide_eq_false_iff_not]
    rintro rfl
    omega

end Swam
