import Swam.GeneratorTyping

/-!
# Generated operands and variables are well typed

A generator of single values gives the operands of anything else. Variables are read and written
at their own type, whether they were there before or have just been made up.
-/
namespace Swam

open Binaryen Gen Lib

variable {mems : List String}

/-- A generator of single values. -/
def YieldsValues (mems : List String) (gen : Ty → Gen Expr) : Prop :=
  ∀ (v : ValTy) (s : GenState), Yields mems (gen (.one v)) s (Typed mems (.one v))

/-- The answer may be `NULL`. -/
def MayBe (mems : List String) (ty : Ty) (e : Expr) (s : GenState) : Prop :=
  e = .null ∨ Typed mems ty e s

/-! ## Operands -/

section Operands

variable {gen : Ty → Gen Expr} (values : YieldsValues mems gen)
include values

theorem genAll_yields (types : List ValTy) (s : GenState) :
    Yields mems (genAll gen types) s (AllTyped mems types) := by
  induction types generalizing s with
  | nil => exact .pure .nil
  | cons ty rest ih =>
    apply Yields.bind (values ty s)
    intro expr t _ _ one
    apply Yields.bind (ih t)
    intro exprs u _ grown typed
    exact .pure (.cons (one.mono grown) typed)

theorem genCarried_yields {labelType : Ty} (value : labelType ≠ .unreachable) (s : GenState) :
    Yields mems (genCarried gen labelType) s (Carrying mems labelType) := by
  cases labelType with
  | unreachable => exact absurd rfl value
  | vals types =>
    apply Yields.bind (genAll_yields values types s)
    intro exprs t _ _ typed
    exact .pure (carried_carrying typed)

theorem genRandom_yields (n : Nat) (s : GenState) :
    Yields mems (genRandom gen n) s fun drawn => AllTyped mems drawn.1 drawn.2 := by
  induction n generalizing s with
  | zero => exact .pure .nil
  | succ n ih =>
    apply Yields.bind (randType_yields s)
    intro ty t _ _ _
    apply Yields.bind (values ty t)
    intro expr u _ _ one
    apply Yields.bind (ih u)
    rintro ⟨types, exprs⟩ w _ grown typed
    exact .pure (.cons (one.mono grown) typed)

end Operands

/-! ## Variables -/

section Variables

variable {s : GenState}

theorem localGet_typed {el : LocalCxt} (member : el ∈ s.localCxt) :
    Typed mems el.localType (.node (.localGet el.localIdx el.localType) []) s := by
  refine .node (.inr rfl) ?_ (fun _ _ _ child => nomatch child) fun _ => rfl
  intro S covers
  obtain ⟨ty, found, same⟩ := covers.locals el member
  exact ⟨[], by simp [Kind.operands?, found, same], .nil⟩

theorem globalGet_typed (ready : Ready mems s) {g : Global} (member : g ∈ s.mod.globals) :
    Typed mems g.ty (.node (.globalGet g.name g.ty) []) s := by
  refine .node (.inr rfl) ?_ (fun _ _ _ child => nomatch child) fun _ => rfl
  intro S covers
  have found := covers.sig.global ready.names member
  exact ⟨[], by simp [Kind.operands?, found], .nil⟩

/-- A variable that is read is never stuck, so the component is there. -/
theorem tupleExtract_typed {ty : Ty} {v : ValTy} {ind : Nat} {e : Expr}
    (typed : Typed mems ty e s) (component : ty.expand[ind]? = some v) :
    Typed mems (.one v) (.node (.tupleExtract ind) [e]) s := by
  cases ty with
  | unreachable => cases component
  | vals types =>
    refine .node ?_ ?_ ?_ fun _ => rfl
    · unfold Kind.ty strictTy
      dsimp only
      split
      · exact .inl rfl
      next reachable =>
        refine .inr ?_
        have completes : e.ty? ≠ some .unreachable := by
          simpa [anyUnreachable] using reachable
        obtain ⟨us, here, tops⟩ := typed.fits.values completes
        have entry := congrArg (·[ind]?) tops
        simp only [List.getElem?_map, show types[ind]? = some v from component,
          Option.map_some] at entry
        obtain ⟨u, found, same⟩ := Option.map_eq_some_iff.mp entry
        simp [here, Ty.expand, found, same, Ty.one]
    · intro S _
      have bound : ind < types.length := (List.getElem?_eq_some_iff.mp component).1
      rcases typed.fits with stuck | value
      · exact ⟨.unreachable, by rw [List.map_singleton, stuck], .inl rfl⟩
      · exact ⟨(Ty.vals types).top, by rw [List.map_singleton, value], .inr (by simpa [Ty.arity])⟩
    · intro S covers c child
      cases List.mem_singleton.mp child
      exact typed.valid S covers

/-- What is found among the candidates has the type that is asked for. -/
theorem candidates_spec {α : Type} {result : Ty} {ty : α → Ty} {vars : List α} {el : α}
    {sub : Option Nat} (found : (el, sub) ∈ candidates result ty vars) :
    el ∈ vars ∧ (sub = none ∧ ty el = result ∨
      ∃ ind v, sub = some ind ∧ (ty el).expand[ind]? = some v ∧ result = .one v) := by
  obtain ⟨x, member, here⟩ := List.mem_flatMap.mp found
  split at here
  · obtain ⟨ind, _, chosen⟩ := List.mem_filterMap.mp here
    split at chosen
    next equal =>
      cases chosen
      obtain ⟨v, component, same⟩ := Option.map_eq_some_iff.mp equal
      exact ⟨member, .inr ⟨ind, v, rfl, component, same.symm⟩⟩
    · cases chosen
  · split at here
    next single =>
      cases List.mem_singleton.mp here
      exact ⟨member, .inl ⟨rfl, single.2⟩⟩
    · cases here

theorem component_typed {result ty : Ty} {get : Expr} {sub : Option Nat}
    (typed : Typed mems ty get s)
    (right : sub = none ∧ ty = result ∨
      ∃ ind v, sub = some ind ∧ ty.expand[ind]? = some v ∧ result = .one v) :
    Typed mems result (component get sub) s := by
  rcases right with ⟨rfl, rfl⟩ | ⟨ind, v, rfl, entry, rfl⟩
  · exact typed
  · exact tupleExtract_typed typed entry

theorem localGlobalGet_yields (result : Ty) (useLocal : Bool) (s : GenState) :
    Yields mems (wasmGenerateOneLocalGlobalGet result useLocal) s (MayBe mems result) := by
  apply Yields.get_bind
  intro ready
  apply Yields.ite <;> intro _
  · apply Yields.ite <;> intro _
    · apply Yields.bind (choose_yields _ s)
      rintro (_ | el) t _ grown ⟨among, _⟩
      · exact .pure (.inl rfl)
      · obtain ⟨member, same⟩ := List.mem_filter.mp (among el rfl)
        have typed : Typed mems el.localType _ t := (localGet_typed member).mono grown
        rw [of_decide_eq_true same] at typed
        exact .pure (.inr typed)
    · apply Yields.bind (choose_yields _ s)
      rintro (_ | ⟨el, sub⟩) t _ grown ⟨among, _⟩
      · exact .pure (.inl rfl)
      · obtain ⟨member, right⟩ := candidates_spec (among _ rfl)
        exact .pure (.inr (component_typed ((localGet_typed member).mono grown) right))
  · apply Yields.ite <;> intro _
    · apply Yields.bind (choose_yields _ s)
      rintro (_ | g) t _ grown ⟨among, _⟩
      · exact .pure (.inl rfl)
      · obtain ⟨member, same⟩ := List.mem_filter.mp (among g rfl)
        have typed := (globalGet_typed ready member).mono grown
        rw [of_decide_eq_true same] at typed
        exact .pure (.inr typed)
    · apply Yields.bind (choose_yields _ s)
      rintro (_ | ⟨g, sub⟩) t _ grown ⟨among, _⟩
      · exact .pure (.inl rfl)
      · obtain ⟨member, right⟩ := candidates_spec (among _ rfl)
        exact .pure (.inr (component_typed ((globalGet_typed ready member).mono grown) right))

end Variables

/-! ## New variables -/

section Assignment

variable {s : GenState} {e : Expr}

theorem appendLocal_yields {el : LocalCxt} (value : el.localType ≠ .unreachable) (s : GenState) :
    Yields mems (appendLocal el) s fun _ t => el ∈ t.localCxt := by
  intro ready
  refine ⟨⟨ready.names, ready.memory, ?_, ready.labels⟩,
    ⟨.refl _, List.prefix_append _ _, rfl, List.Subset.refl _⟩, ?_⟩
  · intro el' member
    rcases List.mem_append.mp member with old | new
    · exact ready.locals el' old
    · rw [List.mem_singleton.mp new]
      exact value
  · exact List.mem_append_right _ (List.mem_singleton_self _)

/-- The index of a local of some type. -/
def LocalAt (localIdx : Nat) (ty : Ty) (s : GenState) : Prop :=
  ∃ el ∈ s.localCxt, el.localIdx = localIdx ∧ el.localType = ty

theorem LocalAt.mono {localIdx : Nat} {ty : Ty} {s t : GenState} (at_ : LocalAt localIdx ty s)
    (grown : GenExtends s t) : LocalAt localIdx ty t := by
  obtain ⟨el, member, right⟩ := at_
  exact ⟨el, grown.locals.subset member, right⟩

theorem declareLocal_yields {ty : Ty} (value : ty ≠ .unreachable) (s : GenState) :
    Yields mems (declareLocal ty) s fun localIdx => LocalAt localIdx ty := by
  apply Yields.get_bind
  intro _
  apply Yields.bind (appendLocal_yields value s)
  intro _ t _ _ member
  exact .pure ⟨_, member, rfl, rfl⟩

theorem localTee_typed {localIdx : Nat} {ty : Ty} (at_ : LocalAt localIdx ty s)
    (typed : Typed mems ty e s) : Typed mems ty (.node (.localTee localIdx ty) [e]) s := by
  obtain ⟨el, member, rfl, rfl⟩ := at_
  refine .node (fits_strictTy _ _) ?_ ?_ fun _ => rfl
  · intro S covers
    obtain ⟨ty, found, same⟩ := covers.locals el member
    refine ⟨[ty], by simp [Kind.operands?, found, same], .cons ?_ .nil⟩
    rw [Fits, same]
    exact typed.fits
  · intro S covers c child
    cases List.mem_singleton.mp child
    exact typed.valid S covers

theorem localSet_typed {localIdx : Nat} {ty : Ty} (at_ : LocalAt localIdx ty s)
    (typed : Typed mems ty e s) : Typed mems Ty.none (.node (.localSet localIdx) [e]) s := by
  obtain ⟨el, member, rfl, rfl⟩ := at_
  refine .node (fits_strictTy _ _) ?_ ?_ fun _ => rfl
  · intro S covers
    obtain ⟨ty, found, same⟩ := covers.locals el member
    refine ⟨[ty], by simp [Kind.operands?, found], .cons ?_ .nil⟩
    rw [Fits, same]
    exact typed.fits
  · intro S covers c child
    cases List.mem_singleton.mp child
    exact typed.valid S covers

theorem globalSet_typed (ready : Ready mems s) {g : Global} (member : g ∈ s.mod.globals)
    (mutable_ : g.mutable_ = true) (typed : Typed mems g.ty e s) :
    Typed mems Ty.none (.node (.globalSet g.name) [e]) s := by
  refine .node (fits_strictTy _ _) ?_ ?_ fun _ => rfl
  · intro S covers
    have found := covers.sig.global ready.names member
    exact ⟨[g.ty], by simp [Kind.operands?, found, mutable_], .cons typed.fits .nil⟩
  · intro S covers c child
    cases List.mem_singleton.mp child
    exact typed.valid S covers

end Assignment

/-- A type of values has at least one. -/
private theorem vals_of_arity {ty : Ty} (value : ty ≠ .unreachable) (some_ : 1 ≤ ty.arity) :
    ∃ types, ty = .vals types ∧ types ≠ [] := by
  cases ty with
  | unreachable => exact absurd rfl value
  | vals types => exact ⟨types, rfl, List.ne_nil_of_length_pos some_⟩

theorem drawMutable_yields {globals : List Global} (filled : globals ≠ []) (n : Nat) (s : GenState) :
    Yields mems (drawMutable globals n) s fun g _ => g ∈ globals ∧ g.mutable_ = true := by
  induction n generalizing s with
  | zero => exact .endless
  | succ n ih =>
    apply Yields.bind (pick_yields globals s)
    rintro (_ | g) t _ _ ⟨among, there⟩
    · cases there filled
    · exact .ite (fun mutable_ => .pure ⟨among g rfl, mutable_⟩) fun _ => ih t

theorem initExpr_yields {ty : ValTy} (simple : ty.top = ty) (s : GenState) :
    Yields mems (Gen.request (fun m r => dummyExpr m ty r) fun _ => .fatal) s fun _ _ => True := by
  intro ready
  obtain ⟨e, r, made, _⟩ := dummyExpr_spec ready.names.functions simple s.rand
  rw [ends_request, made]
  exact ⟨⟨ready.names, ready.memory, ready.locals, ready.labels⟩,
    ⟨.refl _, List.prefix_rfl, rfl, List.Subset.refl _⟩, trivial⟩

theorem addGlobal_yields {g : Global} {s : GenState} (number : g.name = toString s.mod.globals.length)
    (value : g.ty ≠ .unreachable) : Yields mems (addGlobal g) s fun _ t => g ∈ t.mod.globals := by
  intro ready
  have free : s.mod.globals.any (fun h => decide (h.name = g.name)) = false := by
    rw [List.any_eq_false]
    intro h member equal
    apply ready.names.globalNumerals.free
    rw [globalNames, List.length_map, ← number, ← of_decide_eq_true equal]
    exact List.mem_map_of_mem member
  have added : addGlobal g s = .ok () { s with mod := s.mod.addGlobal g } := by
    simp [addGlobal, free]
  rw [Ends, added]
  have memory : MemoryReady mems (s.mod.addGlobal g) :=
    ⟨ready.memory.sole, ready.memory.named, ready.memory.renamed, ready.memory.copyable⟩
  refine ⟨⟨ready.names.addGlobal number value, memory, ready.locals, ready.labels⟩,
    ⟨⟨rfl, List.prefix_append _ _, List.prefix_rfl, id⟩, List.prefix_rfl, rfl,
      List.Subset.refl _⟩, ?_⟩
  exact List.mem_append_right _ (List.mem_singleton_self _)

section Variables

variable {gen : Ty → Gen Expr} (values : YieldsValues mems gen)
include values

theorem genGlobal_yields (n : Nat) (s : GenState) :
    Yields mems (genGlobal gen n) s fun drawn t =>
      AllTyped mems drawn.1 drawn.2.1 t ∧ drawn.1.length = n := by
  induction n generalizing s with
  | zero => exact .pure ⟨.nil, rfl⟩
  | succ n ih =>
    apply Yields.bind (randType_yields s)
    intro ty t _ _ simple
    apply Yields.bind (values ty t)
    intro expr u _ _ one
    apply Yields.bind (initExpr_yields simple u)
    intro init v _ first _
    apply Yields.bind (ih v)
    rintro ⟨types, exprs, inits⟩ w _ second ⟨typed, length⟩
    exact .pure ⟨.cons (one.mono (first.trans second)) typed, congrArg (· + 1) length⟩

theorem localTee_yields {result : Ty} (value : result ≠ .unreachable) (some_ : 1 ≤ result.arity)
    (s : GenState) : Yields mems (wasmGenerateOneLocalTee gen result) s (MayBe mems result) := by
  obtain ⟨types, rfl, filled⟩ := vals_of_arity value some_
  apply Yields.get_bind
  intro _
  apply Yields.bind (choose_yields _ s)
  rintro (_ | el) t _ grown ⟨among, _⟩
  · apply Yields.bind (coin_yields t)
    intro new u _ _ _
    apply Yields.ite <;> intro _
    · apply Yields.bind (declareLocal_yields value u)
      intro localIdx v _ _ at_
      apply Yields.bind (genAll_yields values _ v)
      intro exprs w _ further typed
      exact .pure (.inr (localTee_typed (at_.mono further) (tupleOf_typed filled typed)))
    · exact .pure (.inl rfl)
  · obtain ⟨member, same⟩ := List.mem_filter.mp (among el rfl)
    have at_ : LocalAt el.localIdx (.vals types) s := ⟨el, member, rfl, of_decide_eq_true same⟩
    apply Yields.bind (genAll_yields values _ t)
    intro exprs u _ further typed
    have at' := at_.mono (grown.trans further)
    exact .pure (.inr (localTee_typed at' (tupleOf_typed filled typed)))

theorem setNewLocal_yields (s : GenState) :
    Yields mems (setNewLocal gen) s (Typed mems Ty.none) := by
  apply Yields.get_bind
  intro _
  apply Yields.bind (below_yields 3 s)
  intro numTypes t _ _ _
  apply Yields.bind (randTypes_yields _ t)
  intro types u _ _ length
  have value : Ty.vals types ≠ .unreachable := nofun
  apply Yields.bind (appendLocal_yields value u)
  intro _ v _ _ member
  apply Yields.bind (genAll_yields values types v)
  intro exprs w _ grown typed
  have filled : types ≠ [] := by
    rintro rfl
    cases length
  exact .pure (localSet_typed ⟨_, grown.locals.subset member, rfl, rfl⟩ (tupleOf_typed filled typed))

theorem setNewGlobal_yields
    (same : GeneratesValues (fun s t => t.mod.globals = s.mod.globals) (fun _ _ _ => True) gen)
    (s : GenState) : Yields mems (setNewGlobal gen) s (Typed mems Ty.none) := by
  apply Yields.get_bind
  intro _
  apply Yields.bind ((below_yields 3 s).keeps (sameGlobals.below 3))
  rintro numTypes t _ _ ⟨_, before⟩
  apply Yields.bind ((genGlobal_yields values _ t).keeps (sameGlobals.genGlobal same _))
  rintro ⟨types, exprs, inits⟩ u _ _ ⟨⟨typed, length⟩, between⟩
  -- no global came in between, so the number is still the next one
  have number : toString s.mod.globals.length = toString u.mod.globals.length := by
    rw [between, before]
  have filled : types ≠ [] := by
    rintro rfl
    cases length
  have value : Ty.vals types ≠ .unreachable := nofun
  apply Yields.bind (addGlobal_yields number value)
  intro _ v ready grown member
  exact .pure (globalSet_typed ready member rfl (tupleOf_typed filled (typed.mono grown)))

theorem localGlobalSet_yields
    (same : GeneratesValues (fun s t => t.mod.globals = s.mod.globals) (fun _ _ _ => True) gen)
    (useLocal : Bool) (s : GenState) :
    Yields mems (wasmGenerateOneLocalGlobalSet gen useLocal) s (MayBe mems Ty.none) := by
  apply Yields.get_bind
  intro ready
  apply Yields.ite <;> intro _
  · have drawn : Yields mems (if s.localCxt.length = 0 then pure true else oneIn 5) s
        fun _ _ => True := .ite (fun _ => .pure trivial) fun _ => oneIn_yields 5 s
    apply Yields.bind drawn
    intro fresh t _ before _
    apply Yields.ite <;> intro _
    · exact (setNewLocal_yields values t).mono fun _ _ _ typed => .inr typed
    · apply Yields.bind (choose_yields _ t)
      rintro (_ | el) u _ between ⟨among, _⟩
      · exact .pure (.inl rfl)
      · have member := among el rfl
        apply Yields.ite
        · exact fun _ => .pure (.inl rfl)
        · intro some_
          obtain ⟨types, equal, filled⟩ := vals_of_arity (ready.locals el member)
            (Nat.one_le_iff_ne_zero.mpr some_)
          rw [equal]
          apply Yields.bind (genAll_yields values types u)
          intro exprs v _ after typed
          have at_ : LocalAt el.localIdx (.vals types) s := ⟨el, member, rfl, equal⟩
          exact .pure (.inr (localSet_typed (at_.mono ((before.trans between).trans after))
            (tupleOf_typed filled typed)))
  · have drawn : Yields mems (if s.mod.globals.any (·.mutable_) then oneIn 5 else pure true) s
        fun fresh _ => fresh = false → s.mod.globals ≠ [] := by
      apply Yields.ite
      · intro there
        apply (oneIn_yields 5 s).mono
        intro _ _ _ _ _ empty
        simp [empty] at there
      · exact fun _ => .pure nofun
    apply Yields.bind drawn
    intro fresh t _ before filled
    apply Yields.ite
    · exact fun _ => (setNewGlobal_yields values same t).mono fun _ _ _ typed => .inr typed
    · intro old
      apply Yields.bind (drawMutable_yields (filled (Bool.eq_false_iff.mpr old)) _ t)
      rintro g u _ between ⟨member, mutable_⟩
      apply Yields.ite
      · exact fun _ => .pure (.inl rfl)
      · intro some_
        obtain ⟨types, equal, nonempty⟩ := vals_of_arity (ready.names.globals g member)
          (Nat.one_le_iff_ne_zero.mpr some_)
        rw [equal]
        apply Yields.bind (genAll_yields values types u)
        intro exprs v ready' after typed
        have here := ((before.trans between).trans after).mod.globals.subset member
        have tuple := tupleOf_typed nonempty typed
        rw [← equal] at tuple
        exact .pure (.inr (globalSet_typed ready' here mutable_ tuple))

end Variables

end Swam
