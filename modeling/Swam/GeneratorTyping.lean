import Swam.InstrTyping
import Swam.LocalContext

/-!
# The steps of the generators are well typed

A generator runs from a state that is `Ready`: names are unambiguous, and the labels in scope are
not among those that will be made up. It leaves such a state, in which everything that was
declared before is still declared, and its code is well typed in each scope that covers that
state. A call of a generator can only fail to come back in the loop that draws a mutable global.
-/
namespace Swam

open Binaryen Gen Lib

variable {mems : List String}

/-! ## States and scopes -/

/-- A state that generators can work on. -/
structure Ready (mems : List String) (s : GenState) : Prop where
  names : NamesReady s.mod
  memory : MemoryReady mems s.mod
  locals : ∀ el ∈ s.localCxt, el.localType ≠ .unreachable
  labels : ∀ el ∈ s.labelCxt, el.labelType ≠ .unreachable ∧
    ∀ n, el.labelName = fuzzName n → el.labelName ∈ s.names.usedNames

/-- The second state declares everything that the first one does. -/
structure GenExtends (s t : GenState) : Prop where
  mod : ModuleExtends s.mod t.mod
  locals : s.localCxt <+: t.localCxt
  labels : t.labelCxt = s.labelCxt
  names : s.names.usedNames ⊆ t.names.usedNames

/-- A scope in which everything a state declares has the declared type. -/
structure Covers (mems : List String) (S : Scope) (s : GenState) : Prop where
  sig : SigCovers mems S.sig s.mod
  locals : ∀ el ∈ s.localCxt, ∃ ty, S.locals[el.localIdx]? = some ty ∧ ty.top = el.localType.top
  labels : ∀ el ∈ s.labelCxt, ∃ ty, S.label? el.labelName = some ty ∧ ty.top = el.labelType.top

/-- Code that leaves a type, or does not complete, wherever the declarations are known. -/
structure Typed (mems : List String) (ty : Ty) (e : Expr) (s : GenState) : Prop where
  fits : Fits e.top? ty
  valid : ∀ S : Scope, Covers mems S s → Valid S e

/-- One expression of each type. -/
def AllTyped (mems : List String) (types : List ValTy) (exprs : List Expr) (s : GenState) : Prop :=
  List.Forall₂ (fun e ty => Typed mems (.one ty) e s) exprs types

theorem GenExtends.refl (s : GenState) : GenExtends s s :=
  ⟨.refl s.mod, List.prefix_rfl, rfl, List.Subset.refl _⟩

theorem GenExtends.trans {s t u : GenState} (first : GenExtends s t) (second : GenExtends t u) : GenExtends s u :=
  ⟨first.mod.trans second.mod, first.locals.trans second.locals, second.labels.trans first.labels,
    List.Subset.trans first.names second.names⟩

theorem Covers.of_extends {S : Scope} {s t : GenState} (covers : Covers mems S t)
    (grown : GenExtends s t) : Covers mems S s where
  sig := covers.sig.of_extends grown.mod
  locals := fun el member => covers.locals el (grown.locals.subset member)
  labels := fun el member => covers.labels el (grown.labels ▸ member)

theorem Typed.mono {ty : Ty} {e : Expr} {s t : GenState} (typed : Typed mems ty e s)
    (grown : GenExtends s t) : Typed mems ty e t :=
  ⟨typed.fits, fun S covers => typed.valid S (covers.of_extends grown)⟩

theorem AllTyped.mono {types : List ValTy} {exprs : List Expr} {s t : GenState}
    (typed : AllTyped mems types exprs s) (grown : GenExtends s t) : AllTyped mems types exprs t :=
  typed.imp fun _ _ one => one.mono grown

theorem AllTyped.append {types types' : List ValTy} {exprs exprs' : List Expr} {s : GenState}
    (first : AllTyped mems types exprs s) (second : AllTyped mems types' exprs' s) :
    AllTyped mems (types ++ types') (exprs ++ exprs') s :=
  List.rel_append first second

/-- Refinement of the type that is asked for does not show. -/
theorem Typed.of_top {ty : Ty} {e : Expr} {s : GenState} (typed : Typed mems ty.top e s) :
    Typed mems ty e s := by
  refine ⟨?_, typed.valid⟩
  have fits := typed.fits
  rwa [Fits, Ty.top_top] at fits

/-! ## Runs -/

/-- A run from a ready state comes back with a result of the property, unless a loop has no
end. -/
def Yields {α : Type} (mems : List String) (x : Gen α) (s : GenState)
    (done : α → GenState → Prop) : Prop :=
  Ready mems s →
    Ends x s (fun a t => Ready mems t ∧ GenExtends s t ∧ done a t) fun e _ => e = .endless

namespace Yields

variable {α β : Type} {x : Gen α} {f : α → Gen β} {s : GenState} {done : α → GenState → Prop}
  {after : β → GenState → Prop}

theorem pure {a : α} (holds : done a s) : Yields mems (pure a) s done :=
  fun ready => ⟨ready, .refl s, holds⟩

theorem bind (first : Yields mems x s done)
    (rest : ∀ a t, Ready mems t → GenExtends s t → done a t → Yields mems (f a) t after) :
    Yields mems (x >>= f) s after := by
  intro ready
  rw [ends_bind]
  apply (first ready).mono
  · rintro a t ⟨ready', grown, holds⟩
    apply (rest a t ready' grown holds ready').mono
    · rintro b u ⟨ready'', further, holds'⟩
      exact ⟨ready'', grown.trans further, holds'⟩
    · exact fun _ _ endless => endless
  · exact fun _ _ endless => endless

theorem get_bind {f : GenState → Gen β} (rest : Ready mems s → Yields mems (f s) s after) :
    Yields mems (get >>= f) s after :=
  fun ready => rest ready ready

theorem mono {done' : α → GenState → Prop} (first : Yields mems x s done)
    (result : ∀ a t, GenExtends s t → done a t → done' a t) : Yields mems x s done' := by
  intro ready
  apply (first ready).mono
  · rintro a t ⟨ready', grown, holds⟩
    exact ⟨ready', grown, result a t grown holds⟩
  · exact fun _ _ endless => endless

theorem ite {c : Prop} [Decidable c] {y : Gen α} (yes : c → Yields mems x s done)
    (no : ¬ c → Yields mems y s done) : Yields mems (if c then x else y) s done := by
  split
  next holds => exact yes holds
  next fails => exact no fails

/-- A step that only draws random numbers. -/
theorem of_draw {P : α → Prop}
    (draws : Ends x s (fun a t => (∃ r, t = { s with rand := r }) ∧ P a) fun _ _ => False) :
    Yields mems x s fun a _ => P a := by
  intro ready
  apply draws.mono
  · rintro a _ ⟨⟨r, rfl⟩, holds⟩
    exact ⟨⟨ready.names, ready.memory, ready.locals, ready.labels⟩,
      ⟨.refl _, List.prefix_rfl, rfl, List.Subset.refl _⟩, holds⟩
  · exact fun _ _ impossible => impossible.elim

/-- What is known of every result is known of this one. -/
theorem returns {P : α → Prop} (first : Yields mems x s done) (every : Returns x P) :
    Yields mems x s fun a t => done a t ∧ P a := by
  intro ready
  apply ((first ready).and (every s)).mono
  · rintro a t ⟨⟨ready', grown, holds⟩, known⟩
    exact ⟨ready', grown, holds, known⟩
  · exact fun _ _ both => both.1

/-- What every run keeps is kept by this one. -/
theorem keeps {R : GenState → GenState → Prop} (first : Yields mems x s done)
    (kept : Keeps R (fun _ _ _ => True) x) : Yields mems x s fun a t => done a t ∧ R s t := by
  intro ready
  apply ((first ready).and (kept s)).mono
  · rintro a t ⟨⟨ready', grown, holds⟩, related⟩
    exact ⟨ready', grown, holds, related⟩
  · exact fun _ _ both => both.1

theorem endless : Yields mems (throw .endless : Gen α) s done := fun _ => rfl

end Yields

/-! ## Drawing -/

theorem below_yields (limit : Nat) (s : GenState) :
    Yields mems (below limit) s fun n _ => 0 < limit → n < limit :=
  .of_draw ⟨⟨_, rfl⟩, fun positive => randBelow_lt positive s.rand⟩

theorem coin_yields (s : GenState) : Yields mems coin s fun _ _ => True :=
  .bind (below_yields 2 s) fun _ _ _ _ _ => .pure trivial

theorem oneIn_yields (chances : Nat) (s : GenState) :
    Yields mems (oneIn chances) s fun _ _ => True :=
  .bind (below_yields chances s) fun _ _ _ _ _ => .pure trivial

/-- Something is picked from a list that is not empty. -/
theorem pick_yields {α : Type} (xs : List α) (s : GenState) :
    Yields mems (pick xs) s fun drawn _ => (∀ x ∈ drawn, x ∈ xs) ∧ (xs ≠ [] → drawn.isSome) := by
  apply Yields.bind (below_yields xs.length s)
  intro n t _ _ bound
  apply Yields.pure
  refine ⟨fun x found => List.mem_of_getElem? found, ?_⟩
  intro filled
  simp [List.getElem?_eq_getElem (bound (List.length_pos_of_ne_nil filled))]

private theorem choose_isSome {α : Type} (xs : List α) (selected : Option α) (s : GenState) :
    Yields mems (choose xs selected) s fun chosen _ =>
      xs ≠ [] ∨ selected.isSome → chosen.isSome := by
  induction xs generalizing selected s with
  | nil => cases selected <;> exact .pure (by simp)
  | cons x rest ih =>
    cases selected with
    | none => exact (ih (some x) s).mono fun _ _ _ there _ => there (.inr rfl)
    | some z =>
      apply Yields.bind (coin_yields s)
      intro other t _ _ _
      exact (ih _ t).mono fun _ _ _ there _ => there (.inr rfl)

theorem choose_yields {α : Type} (xs : List α) (s : GenState) :
    Yields mems (choose xs none) s fun chosen _ =>
      (∀ x ∈ chosen, x ∈ xs) ∧ (xs ≠ [] → chosen.isSome) := by
  apply ((choose_isSome xs none s).returns (choose_mem xs none)).mono
  rintro chosen _ _ ⟨there, among⟩
  exact ⟨fun x here => (among x here).resolve_right nofun, fun filled => there (.inl filled)⟩

theorem randType_yields (s : GenState) : Yields mems randType s fun ty _ => ty.top = ty := by
  apply Yields.bind (below_yields 7 s)
  intro n t _ _ bound
  apply Yields.pure
  have each : ∀ n < 7, ([ValTy.i32, .i64, .f32, .f64, .funcref, .externref, .v128].getD n .i32).top =
      [ValTy.i32, .i64, .f32, .f64, .funcref, .externref, .v128].getD n .i32 := by decide
  exact each n (bound (by decide))

theorem randTypes_yields (n : Nat) (s : GenState) :
    Yields mems (randTypes n) s fun types _ => types.length = n := by
  induction n generalizing s with
  | zero => exact .pure rfl
  | succ n ih =>
    apply Yields.bind (randType_yields s)
    intro ty t _ _ _
    apply Yields.bind (ih t)
    intro types u _ _ length
    exact .pure (by simp [length])

/-! ## Code over operands -/

section Code

variable {s : GenState} {types : List ValTy} {exprs : List Expr}

/-- A node that binds no label. -/
theorem Typed.node {ty : Ty} {k : Kind} {cs : List Expr}
    (type : Fits (some (k.ty (cs.map Expr.ty?)).top) ty)
    (rule : ∀ S : Scope, Covers mems S s → k.Typed S (cs.map Expr.top?))
    (children : ∀ S : Scope, Covers mems S s → ∀ c ∈ cs, Valid S c)
    (scope : ∀ S : Scope, S.enter k = S) : Typed mems ty (.node k cs) s := by
  refine ⟨Expr.top?_node k cs ▸ type, ?_⟩
  intro S covers
  refine .node (rule S covers) ?_
  rw [scope S]
  exact children S covers

theorem AllTyped.valid (typed : AllTyped mems types exprs s) {S : Scope} (covers : Covers mems S s) :
    ∀ e ∈ exprs, Valid S e := by
  intro e member
  obtain ⟨ty, _, one⟩ := exists_of_mem_left typed member
  exact one.valid S covers

theorem AllTyped.fits (typed : AllTyped mems types exprs s) :
    FitsAll (exprs.map Expr.top?) (types.map .one) := by
  rw [FitsAll, List.forall₂_map_left_iff, List.forall₂_map_right_iff]
  exact typed.imp fun _ _ one => one.fits

/-- An expression that completes has the values of its type. -/
theorem Binaryen.Fits.values {e : Expr} {types : List ValTy} (fits : Fits e.top? (.vals types))
    (completes : e.ty? ≠ some .unreachable) :
    ∃ us, e.ty? = some (.vals us) ∧ us.map ValTy.top = types.map ValTy.top := by
  rcases fits with stuck | value
  · obtain ⟨t, here, top⟩ := Option.map_eq_some_iff.mp stuck
    rw [Ty.top_eq_unreachable.mp top] at here
    exact absurd here completes
  · obtain ⟨t, here, top⟩ := Option.map_eq_some_iff.mp value
    cases t with
    | unreachable => cases top
    | vals us => exact ⟨us, here, Ty.vals.inj top⟩

/-- The values of the parts are those of the tuple, unless one of them does not complete. -/
private theorem parts_fit (typed : AllTyped mems types exprs s) :
    Fits (some (strictTy (.vals ((exprs.map Expr.ty?).flatMap fun t => (t.getD Ty.none).expand))
      (exprs.map Expr.ty?)).top) (.vals types) := by
  unfold strictTy
  split
  · exact .inl rfl
  next reachable =>
    refine .inr ?_
    have values : ((exprs.map Expr.ty?).flatMap fun t => (t.getD Ty.none).expand).map ValTy.top =
        types.map ValTy.top := by
      induction typed with
      | nil => rfl
      | @cons e ty es tys one _ ih =>
        simp only [anyUnreachable, List.map_cons, List.any_cons, Bool.or_eq_true, not_or,
          decide_eq_true_eq] at reachable ih
        obtain ⟨us, here, tops⟩ := one.fits.values reachable.1
        have values : (Ty.vals us).expand = us := rfl
        simp [here, values, tops, ih reachable.2]
    simp [values]

theorem tupleMake_typed (several : 2 ≤ types.length) (typed : AllTyped mems types exprs s) :
    Typed mems (.vals types) (.node .tupleMake exprs) s := by
  refine .node (parts_fit typed) ?_ (fun S covers => typed.valid covers) fun _ => rfl
  intro S covers
  refine ⟨by simpa [typed.length_eq] using several, ?_⟩
  intro t member
  obtain ⟨ty, listed, fits⟩ := exists_of_mem_left typed.fits member
  obtain ⟨v, _, rfl⟩ := List.mem_map.mp listed
  exact ⟨v, fits⟩

theorem tupleOf_typed (filled : types ≠ []) (typed : AllTyped mems types exprs s) :
    Typed mems (.vals types) (tupleOf exprs) s := by
  obtain _ | ⟨only, _ | ⟨next, rest⟩⟩ := typed
  · exact absurd rfl filled
  · exact only
  · exact tupleMake_typed (by simp) (.cons only (.cons next rest))

/-- What a branch to a label of a type carries. -/
structure Carrying (mems : List String) (ty : Ty) (e : Expr) (s : GenState) : Prop where
  carries : Carries e.top? ty
  valid : ∀ S : Scope, Covers mems S s → Valid S e

theorem Binaryen.Carries.of_top {value : Option Ty} {want want' : Ty} (carries : Carries value want)
    (same : want'.top = want.top) : Carries value want' := by
  rcases carries with ⟨absent, rfl⟩ | ⟨some_, fits⟩
  · exact .inl ⟨absent, Ty.top_eq_none.mp same⟩
  · refine .inr ⟨some_, ?_⟩
    rwa [Fits, same]

theorem Carrying.mono {ty : Ty} {e : Expr} {t : GenState} (carrying : Carrying mems ty e s)
    (grown : GenExtends s t) : Carrying mems ty e t :=
  ⟨carrying.carries, fun S covers => carrying.valid S (covers.of_extends grown)⟩

theorem carried_carrying (typed : AllTyped mems types exprs s) :
    Carrying mems (.vals types) (carried exprs) s := by
  cases typed with
  | nil => exact ⟨.inl ⟨rfl, rfl⟩, fun _ _ => .null⟩
  | cons head rest =>
    have tuple := tupleOf_typed (List.cons_ne_nil _ _) (List.Forall₂.cons head rest)
    refine ⟨.inr ⟨?_, tuple.fits⟩, tuple.valid⟩
    intro nothing
    rcases tuple.fits with stuck | value
    · cases nothing.symm.trans stuck
    · cases nothing.symm.trans value

/-- What is carried, or nothing. -/
theorem Binaryen.Carries.fits {value : Option Ty} {want : Ty} (carries : Carries (value.map Ty.top) want) :
    Fits (some (value.getD Ty.none).top) want := by
  rcases carries with ⟨absent, rfl⟩ | ⟨_, fits⟩
  · rw [Option.map_eq_none_iff.mp absent]
    exact .inr rfl
  · cases value with
    | none =>
      rcases fits with stuck | given
      · cases stuck
      · cases given
    | some t => exact fits

theorem fits_strictTy_of {declared want : Ty} (fits : Fits (some declared.top) want)
    (ts : List (Option Ty)) : Fits (some (strictTy declared ts).top) want := by
  unfold strictTy
  split
  · exact .inl rfl
  · exact fits

/-- The condition of a branch is absent or a number. -/
def CondTyped (mems : List String) (cond : Expr) (s : GenState) : Prop :=
  cond = .null ∨ Typed mems Ty.i32 cond s

private theorem branch_children {ty : Ty} {value cond : Expr} (carrying : Carrying mems ty value s)
    (condTyped : CondTyped mems cond s) (S : Scope) (covers : Covers mems S s) :
    ∀ c ∈ [value, cond], Valid S c := by
  intro c member
  rcases List.mem_cons.mp member with rfl | second
  · exact carrying.valid S covers
  · cases List.mem_singleton.mp second
    rcases condTyped with rfl | typed
    · exact .null
    · exact typed.valid S covers

/-- A `br` leaves anything, and a `br_if` what it carries. -/
theorem break_typed {el : LabelCxt} {value cond : Expr} {ty : Ty} (member : el ∈ s.labelCxt)
    (carrying : Carrying mems el.labelType value s) (condTyped : CondTyped mems cond s)
    (leaves : cond = .null ∨ ty = el.labelType) :
    Typed mems ty (.node (.break_ el.labelName) [value, cond]) s := by
  refine .node ?_ ?_ (branch_children carrying condTyped) fun _ => rfl
  · rcases leaves with rfl | rfl
    · exact .inl rfl
    · cases present : cond.ty? with
      | none =>
        rw [List.map_cons, List.map_singleton, present]
        exact .inl rfl
      | some t =>
        rw [List.map_cons, List.map_singleton, present]
        exact fits_strictTy_of carrying.carries.fits _
  · intro S covers
    obtain ⟨want, found, same⟩ := covers.labels el member
    refine ⟨_, _, rfl, ⟨want, found, carrying.carries.of_top same⟩, ?_⟩
    rcases condTyped with rfl | typed
    · exact .inl rfl
    · exact .inr typed.fits

/-- A `br_table` over labels of one type leaves anything. -/
theorem switch_typed {ty labelType : Ty} {value cond : Expr} {names : List String} {default_ : String}
    (labels : ∀ name ∈ default_ :: names, ∃ el ∈ s.labelCxt, el.labelName = name ∧
      el.labelType = labelType)
    (carrying : Carrying mems labelType value s) (condTyped : Typed mems Ty.i32 cond s) :
    Typed mems ty (.node (.switch names default_) [value, cond]) s := by
  refine .node (.inl rfl) ?_ (branch_children carrying (.inr condTyped)) fun _ => rfl
  intro S covers
  refine ⟨_, _, rfl, ?_, condTyped.fits⟩
  intro target listed
  obtain ⟨el, member, rfl, rfl⟩ := labels target listed
  obtain ⟨want, found, same⟩ := covers.labels el member
  exact ⟨want, found, carrying.carries.of_top same⟩

end Code

end Swam
