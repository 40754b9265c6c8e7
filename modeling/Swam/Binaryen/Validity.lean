import Mathlib.Data.List.Forall2
import Swam.Binaryen.Typing

/-!
# Well-typed expressions

The typing rules of WebAssembly, read on Binaryen's expressions and up to
refinement: operands are compared by the declared type at the top of their
hierarchy, which is also what a module is written out with. Immediates that carry no
type (alignments, lanes, masks, data segments) are outside these rules.
-/
namespace Swam.Binaryen

/-- What the expressions of a module may refer to. -/
structure Signature where
  functions : String → Option (Ty × Ty)
  globals : String → Option (Ty × Bool)
  memories : String → Option Bool
  tables : String → Option ValTy

def Module.signature (m : Module) : Signature where
  functions := fun name => (m.getFunction name).map fun f => (f.params, f.results)
  globals := fun name => (m.getGlobal name).map fun g => (g.ty, g.mutable_)
  memories := fun name => (m.getMemory name).map (·.is64)
  tables := fun name => (m.tables.find? (·.name = name)).map (·.ty)

/-- Where an expression stands. Labels are listed innermost first with the type a
branch to them carries; `tries` are the labels of enclosing `try`s. -/
structure Scope where
  sig : Signature
  locals : List Ty
  results : Ty
  labels : List (String × Ty)
  tries : List String

/-- Branch targets a node introduces. A branch to a loop carries nothing. -/
def Kind.bound : Kind → List (String × Ty)
  | .block (some name) ty => [(name, ty)]
  | .loop (some name) => [(name, Ty.none)]
  | _ => []

def Kind.boundTries : Kind → List String
  | .try_ (some name) _ _ _ => [name]
  | _ => []

namespace Scope

def label? (S : Scope) (name : String) : Option Ty := S.labels.lookup name

/-- The scope of the children of a node. -/
def enter (S : Scope) (k : Kind) : Scope :=
  { S with labels := k.bound ++ S.labels, tries := k.boundTries ++ S.tries }

end Scope

/-- The target of a `delegate` that leaves the function. -/
def delegateCallerTarget : String := "__binaryen_delegate_caller_target"

/-- The operand is present and never completes or has a given type. -/
def Fits (t : Option Ty) (want : Ty) : Prop := t = some .unreachable ∨ t = some want.top

def FitsAll (ts : List (Option Ty)) (wants : List Ty) : Prop := List.Forall₂ Fits ts wants

/-- The operand gives what a branch or a `return` carries: it is absent where there is
nothing to carry. -/
def Carries (value : Option Ty) (want : Ty) : Prop :=
  (value = none ∧ want = Ty.none) ∨ (value ≠ some Ty.none ∧ Fits value want)

/-- Only the last child of a block may leave values behind. -/
def BlockTyped (ty : Ty) (ts : List (Option Ty)) : Prop :=
  (∀ t ∈ ts.dropLast, Fits t Ty.none) ∧
    (∀ t ∈ ts.getLast?, Fits t (if ty = .unreachable then Ty.none else ty)) ∧
    (ty = .unreachable → some .unreachable ∈ ts) ∧ (ts = [] → ty = Ty.none)

/-- An `if` without an else arm leaves nothing behind. -/
def ArmsTyped (ifTrue ifFalse : Option Ty) : Prop :=
  match ifFalse with
  | none => Fits ifTrue Ty.none
  | some f => ∃ t, ifTrue = some t ∧ (t = .unreachable ∨ f = .unreachable ∨ t = f)

/-- A single value, or no completion. -/
def Single (t : Option Ty) : Prop := ∃ v, Fits t (.one v)

/-- The operand types of an instruction, `none` where it refers to something that is
not there or carries the wrong type, and for the kinds with a rule of their own. -/
def Kind.operands? (S : Scope) : Kind → Option (List Ty)
  | .call target ty => (S.sig.functions target).bind fun (params, results) =>
      if ty.top = results.top then some (params.expand.map .one) else none
  | .callIndirect table params _ => (S.sig.tables table).bind fun t =>
      if t.top = .funcref then some (params.expand.map .one ++ [Ty.i32]) else none
  | .localGet index ty => S.locals[index]?.bind fun t => if ty.top = t.top then some [] else none
  | .localSet index => S.locals[index]?.map fun t => [t]
  | .localTee index ty => S.locals[index]?.bind fun t => if ty.top = t.top then some [t] else none
  | .globalGet name ty => (S.sig.globals name).bind fun (t, _) =>
      if ty.top = t.top then some [] else none
  | .globalSet name => (S.sig.globals name).bind fun (t, mutable_) =>
      if mutable_ then some [t] else none
  | .load _ _ _ _ _ _ mem => (S.sig.memories mem).map fun is64 => [indexTy is64]
  | .store _ _ _ ty _ mem | .atomicRMW _ _ _ ty mem =>
    (S.sig.memories mem).map fun is64 => [indexTy is64, .one ty]
  | .atomicCmpxchg _ _ ty mem =>
    (S.sig.memories mem).map fun is64 => [indexTy is64, .one ty, .one ty]
  | .atomicWait _ ty mem => (S.sig.memories mem).map fun is64 => [indexTy is64, .one ty, Ty.i64]
  | .atomicNotify _ mem => (S.sig.memories mem).map fun is64 => [indexTy is64, Ty.i32]
  | .simdLoad op _ _ mem | .simdLoadStoreLane op _ _ _ mem =>
    (S.sig.memories mem).map fun is64 => indexTy is64 :: op.operands.tail.map .one
  | .memorySize mem is64 => if S.sig.memories mem = some is64 then some [] else none
  | .memoryGrow mem is64 => if S.sig.memories mem = some is64 then some [indexTy is64] else none
  | .memoryInit _ mem => (S.sig.memories mem).map fun is64 => [indexTy is64, Ty.i32, Ty.i32]
  | .memoryCopy dest source => (S.sig.memories dest).bind fun dest64 =>
      (S.sig.memories source).map fun source64 =>
        [indexTy dest64, indexTy source64, indexTy (dest64 && source64)]
  | .memoryFill mem => (S.sig.memories mem).map fun is64 => [indexTy is64, Ty.i32, indexTy is64]
  | .unary op | .binary op | .simdExtract op _ | .simdReplace op _ | .simdTernary op
  | .simdShift op => some (op.operands.map .one)
  | .simdShuffle _ => some [.one .v128, .one .v128]
  | .refNull ty => if ty.top = .funcref ∨ ty.top = .externref then some [] else none
  | .refFunc func ty => (S.sig.functions func).bind fun _ =>
      if ty.top = .funcref then some [] else none
  | .tableGet table ty => (S.sig.tables table).bind fun t =>
      if ty.top = t.top then some [Ty.i32] else none
  | .tableSet table => (S.sig.tables table).map fun t => [Ty.i32, .one t]
  | .tableSize table => (S.sig.tables table).map fun _ => []
  | .tableGrow table => (S.sig.tables table).map fun t => [.one t, Ty.i32]
  | .const _ | .nop | .unreachable | .atomicFence | .dataDrop _ => some []
  | _ => none

/-- The typing rule of a node, given the types of its children up to refinement. -/
def Kind.Typed (S : Scope) : Kind → List (Option Ty) → Prop
  | .block _ ty, ts => BlockTyped ty ts
  | .if_, ts => ∃ cond ifTrue ifFalse, ts = [cond, ifTrue, ifFalse] ∧ Fits cond Ty.i32 ∧
      ArmsTyped ifTrue ifFalse
  | .loop _, ts => ∃ t, ts = [some t]
  | .break_ target, ts => ∃ value cond, ts = [value, cond] ∧
      (∃ want, S.label? target = some want ∧ Carries value want) ∧
      (cond = none ∨ Fits cond Ty.i32)
  | .switch targets fallback, ts => ∃ value cond, ts = [value, cond] ∧
      (∀ target ∈ fallback :: targets, ∃ want, S.label? target = some want ∧ Carries value want) ∧
      Fits cond Ty.i32
  | .select ty, ts => ∃ ifTrue ifFalse cond, ts = [ifTrue, ifFalse, cond] ∧ Single ifTrue ∧
      Single ifFalse ∧ Fits cond Ty.i32 ∧
      (anyUnreachable ts = false → ifTrue = some ty.top ∧ ifFalse = some ty.top)
  | .drop, ts => ∃ t, ts = [some t] ∧ t ≠ Ty.none
  | .return_, ts => ∃ value, ts = [value] ∧ Carries value S.results
  | .refIsNull, ts => ∃ t, ts = [t] ∧ (Fits t (.one .funcref) ∨ Fits t (.one .externref))
  | .tupleMake, ts => 2 ≤ ts.length ∧ ∀ t ∈ ts, Single t
  | .tupleExtract index, ts => ∃ t, ts = [some t] ∧ (t = .unreachable ∨ index < t.arity)
  -- the catch bodies follow the body, the one of a `catch_all` last
  | .try_ _ ty tags delegate, ts => (ts.length = tags.length + 1 ∨ ts.length = tags.length + 2) ∧
      (∀ t ∈ ts, Fits t ty) ∧
      ∀ target ∈ delegate, target ∈ S.tries ∨ target = delegateCallerTarget
  | .throw _, ts => ∀ t ∈ ts, t.isSome
  | .rethrow target, ts => ts = [] ∧ target ∈ S.tries
  | .pop _, ts => ts = []
  | .other _ _, _ => True
  | k, ts => ∃ wants, k.operands? S = some wants ∧ FitsAll ts wants

/-- The type of an expression up to refinement, `none` for an absent one. -/
def Expr.top? (e : Expr) : Option Ty := e.ty?.map Ty.top

/-- The expression is well typed where it stands. Whether a child may be absent is up
to the rule of its parent. -/
inductive Valid : Scope → Expr → Prop
  | null {S} : Valid S .null
  | node {S k cs} (typed : k.Typed S (cs.map Expr.top?))
      (children : ∀ c ∈ cs, Valid (S.enter k) c) : Valid S (.node k cs)

theorem valid_node_iff {S : Scope} {k : Kind} {cs : List Expr} :
    Valid S (.node k cs) ↔ k.Typed S (cs.map Expr.top?) ∧ ∀ c ∈ cs, Valid (S.enter k) c := by
  constructor
  · intro valid
    cases valid with
    | node typed children => exact ⟨typed, children⟩
  · rintro ⟨typed, children⟩
    exact .node typed children

/-! ## Refinement does not show -/

@[simp] theorem Expr.top?_null : Expr.top? .null = none := rfl

theorem Expr.top?_node (k : Kind) (cs : List Expr) :
    Expr.top? (.node k cs) = some (k.ty (cs.map Expr.ty?)).top := by
  rw [Expr.top?, Expr.ty?_node, Option.map_some]

theorem anyUnreachable_congr {ts us : List (Option Ty)}
    (same : ts.map (Option.map Ty.top) = us.map (Option.map Ty.top)) :
    anyUnreachable ts = anyUnreachable us := by
  have seen : ∀ vs : List (Option Ty), anyUnreachable vs = anyUnreachable (vs.map (Option.map Ty.top)) := by
    intro vs
    induction vs with
    | nil => rfl
    | cons v vs ih =>
      have head : (v = some Ty.unreachable) ↔ (v.map Ty.top = some Ty.unreachable) := by
        cases v <;> simp
      simp only [anyUnreachable, List.map_cons, List.any_cons] at ih ⊢
      rw [ih, decide_eq_decide.mpr head]
  rw [seen ts, seen us, same]

theorem strictTy_congr {declared declared' : Ty} {ts us : List (Option Ty)}
    (top : declared.top = declared'.top)
    (same : ts.map (Option.map Ty.top) = us.map (Option.map Ty.top)) :
    (strictTy declared ts).top = (strictTy declared' us).top := by
  rw [strictTy, strictTy, anyUnreachable_congr same]
  split
  · rfl
  · exact top

private theorem flatMap_expand_congr {ts us : List (Option Ty)}
    (same : ts.map (Option.map Ty.top) = us.map (Option.map Ty.top)) :
    (ts.flatMap fun t => (t.getD Ty.none).expand).map ValTy.top =
      (us.flatMap fun t => (t.getD Ty.none).expand).map ValTy.top := by
  have seen : ∀ vs : List (Option Ty), (vs.flatMap fun t => (t.getD Ty.none).expand).map ValTy.top =
      (vs.map (Option.map Ty.top)).flatMap fun t => (t.getD Ty.none).expand := by
    intro vs
    induction vs with
    | nil => rfl
    | cons v vs ih =>
      simp only [List.flatMap_cons, List.map_append, List.map_cons, ih]
      congr 1
      cases v with
      | none => rfl
      | some t => cases t <;> rfl
  rw [seen ts, seen us, same]

private theorem top_getD_none (t : Option Ty) :
    (t.getD Ty.none).top = (t.map Ty.top).getD Ty.none := by
  cases t <;> rfl

/-- The type of a node up to refinement depends on the types of its children up to
refinement. -/
theorem Kind.ty_congr (k : Kind) {ts us : List (Option Ty)}
    (same : ts.map (Option.map Ty.top) = us.map (Option.map Ty.top)) :
    (k.ty ts).top = (k.ty us).top := by
  have lengths : ts.length = us.length := by simpa using congrArg List.length same
  cases k with
  | if_ =>
    rcases ts with _ | ⟨cond, _ | ⟨a, _ | ⟨b, _ | ⟨_, _⟩⟩⟩⟩ <;>
      rcases us with _ | ⟨cond', _ | ⟨a', _ | ⟨b', _ | ⟨_, _⟩⟩⟩⟩ <;> simp at lengths <;> try rfl
    simp only [List.map_cons, List.cons.injEq, List.map_nil, and_true] at same
    obtain ⟨conds, left, right⟩ := same
    have arms : ((a.getD Ty.none).lub (b.getD Ty.none)).top =
        ((a'.getD Ty.none).lub (b'.getD Ty.none)).top := by
      apply Ty.lub_congr
      · rw [top_getD_none, top_getD_none, left]
      · rw [top_getD_none, top_getD_none, right]
    have absent : (a.getD Ty.none).lub (b.getD Ty.none) = Ty.none ↔
        (a'.getD Ty.none).lub (b'.getD Ty.none) = Ty.none := by
      have none_iff : ∀ t : Ty, t = Ty.none ↔ t.top = Ty.none := fun t => Ty.top_eq_none.symm
      rw [none_iff, arms, ← none_iff]
    have stuck : cond = some .unreachable ↔ cond' = some .unreachable := by
      cases cond <;> cases cond' <;> simp_all [← Ty.top_eq_unreachable]
    simp only [Kind.ty, absent, stuck]
    split
    · rfl
    · exact arms
  | loop name =>
    rcases ts with _ | ⟨a, _ | ⟨_, _⟩⟩ <;> rcases us with _ | ⟨b, _ | ⟨_, _⟩⟩ <;>
      simp at lengths <;> try rfl
    simp only [List.map_cons, List.cons.injEq, List.map_nil, and_true] at same
    rw [Kind.ty, Kind.ty, top_getD_none, top_getD_none, same]
  | break_ target =>
    rcases ts with _ | ⟨a, _ | ⟨_ | c, _ | ⟨_, _⟩⟩⟩ <;>
      rcases us with _ | ⟨b, _ | ⟨_ | d, _ | ⟨_, _⟩⟩⟩ <;> simp at lengths same <;> try rfl
    refine strictTy_congr ?_ (by simp [same])
    rw [top_getD_none, top_getD_none, same.1]
  | tupleMake => exact strictTy_congr (by simpa using flatMap_expand_congr same) same
  | tupleExtract index =>
    refine strictTy_congr ?_ same
    have listed := congrArg (·[index]?.toList) (flatMap_expand_congr same)
    simpa [Option.toList_map] using listed
  | _ => first | rfl | exact strictTy_congr rfl same

theorem Expr.top?_congr (k : Kind) {cs ds : List Expr}
    (same : cs.map Expr.top? = ds.map Expr.top?) :
    Expr.top? (.node k cs) = Expr.top? (.node k ds) := by
  rw [Expr.top?_node, Expr.top?_node, Kind.ty_congr k]
  simp only [List.map_map]
  exact same

/-! ## Members of related lists -/

theorem exists_of_mem_right {α β : Type*} {R : α → β → Prop} {as : List α} {bs : List β}
    (related : List.Forall₂ R as bs) {b : β} (member : b ∈ bs) : ∃ a ∈ as, R a b := by
  induction related with
  | nil => cases member
  | cons head _ ih =>
    rcases List.mem_cons.mp member with rfl | rest
    · exact ⟨_, List.mem_cons_self, head⟩
    · obtain ⟨a, inside, rel⟩ := ih rest
      exact ⟨a, List.mem_cons_of_mem _ inside, rel⟩

theorem exists_of_mem_left {α β : Type*} {R : α → β → Prop} {as : List α} {bs : List β}
    (related : List.Forall₂ R as bs) {a : α} (member : a ∈ as) : ∃ b ∈ bs, R a b :=
  exists_of_mem_right (R := flip R) related.flip member

/-! ## Larger scopes -/

/-- Everything the first signature declares, the second declares as well. -/
structure Signature.Le (sig sig' : Signature) : Prop where
  functions : ∀ {name x}, sig.functions name = some x → sig'.functions name = some x
  globals : ∀ {name x}, sig.globals name = some x → sig'.globals name = some x
  memories : ∀ {name x}, sig.memories name = some x → sig'.memories name = some x
  tables : ∀ {name x}, sig.tables name = some x → sig'.tables name = some x

theorem Signature.Le.refl (sig : Signature) : sig.Le sig :=
  ⟨id, id, id, id⟩

/-- The second scope serves an expression that refers to the given labels at least as
well as the first. -/
structure Scope.Le (S S' : Scope) (targets : List String) : Prop where
  sig : S.sig.Le S'.sig
  locals : ∀ {index : Nat} {t : Ty}, S.locals[index]? = some t → S'.locals[index]? = some t
  results : S'.results = S.results
  labels : ∀ {name t}, name ∈ targets → S.label? name = some t → S'.label? name = some t
  tries : ∀ {name}, name ∈ targets → name ∈ S.tries → name ∈ S'.tries

theorem Scope.label?_enter (S : Scope) (k : Kind) (name : String) :
    (S.enter k).label? name = (k.bound.lookup name).or (S.label? name) := by
  rw [Scope.label?, Scope.enter, List.lookup_append]
  rfl

theorem Scope.Le.weaken {S S' : Scope} {targets fewer : List String} (le : S.Le S' targets)
    (sub : fewer ⊆ targets) : S.Le S' fewer :=
  { le with
    labels := fun member => le.labels (sub member)
    tries := fun member => le.tries (sub member) }

theorem Scope.Le.enter {S S' : Scope} {targets : List String} (le : S.Le S' targets) (k : Kind) :
    (S.enter k).Le (S'.enter k) targets where
  sig := le.sig
  locals := le.locals
  results := le.results
  labels := by
    intro name t member found
    rw [Scope.label?_enter] at found ⊢
    cases own : k.bound.lookup name with
    | some u => simpa [own] using found
    | none =>
      have outer : S.label? name = some t := by simpa [own] using found
      simpa using le.labels member outer
  tries := by
    intro name member found
    rcases List.mem_append.mp found with own | outer
    · exact List.mem_append_left _ own
    · exact List.mem_append_right _ (le.tries member outer)

theorem Kind.operands?_mono {S S' : Scope} {targets : List String} (le : S.Le S' targets)
    {k : Kind} {wants : List Ty} (known : k.operands? S = some wants) :
    k.operands? S' = some wants := by
  cases k with
  | memorySize mem is64 =>
    simp only [Kind.operands?, Option.ite_none_right_eq_some] at known ⊢
    exact ⟨le.sig.memories known.1, known.2⟩
  | memoryGrow mem is64 =>
    simp only [Kind.operands?, Option.ite_none_right_eq_some] at known ⊢
    exact ⟨le.sig.memories known.1, known.2⟩
  | memoryCopy dest source =>
    simp only [Kind.operands?, Option.bind_eq_some_iff, Option.map_eq_some_iff] at known ⊢
    obtain ⟨dest64, first, source64, second, rest⟩ := known
    exact ⟨dest64, le.sig.memories first, source64, le.sig.memories second, rest⟩
  | _ =>
    -- one declaration is looked up, or none
    simp only [Kind.operands?, Option.bind_eq_some_iff, Option.map_eq_some_iff] at known ⊢
    first
    | exact known
    | exact known.imp fun _ found => ⟨le.locals found.1, found.2⟩
    | exact known.imp fun _ found => ⟨le.sig.functions found.1, found.2⟩
    | exact known.imp fun _ found => ⟨le.sig.globals found.1, found.2⟩
    | exact known.imp fun _ found => ⟨le.sig.memories found.1, found.2⟩
    | exact known.imp fun _ found => ⟨le.sig.tables found.1, found.2⟩

theorem Kind.Typed.mono {S S' : Scope} {k : Kind} {ts : List (Option Ty)}
    (le : S.Le S' k.targets) (typed : k.Typed S ts) : k.Typed S' ts := by
  cases k with
  | break_ target =>
    obtain ⟨value, cond, equal, ⟨want, found, carries⟩, taken⟩ := typed
    exact ⟨value, cond, equal, ⟨want, le.labels (List.mem_singleton_self _) found, carries⟩, taken⟩
  | switch targets fallback =>
    obtain ⟨value, cond, equal, each, taken⟩ := typed
    refine ⟨value, cond, equal, ?_, taken⟩
    intro target member
    obtain ⟨want, found, carries⟩ := each target member
    exact ⟨want, le.labels member found, carries⟩
  | return_ =>
    simpa only [Kind.Typed, le.results] using typed
  | try_ name ty tags delegate =>
    obtain ⟨lengths, fits, target⟩ := typed
    refine ⟨lengths, fits, ?_⟩
    intro label member
    refine (target label member).imp_left (le.tries ?_)
    cases name <;> cases member <;> simp [Kind.targets]
  | rethrow target =>
    exact ⟨typed.1, le.tries (List.mem_singleton_self _) typed.2⟩
  | _ =>
    first
    | exact typed
    | exact typed.imp fun _ known => ⟨Kind.operands?_mono le known.1, known.2⟩

/-- A well-typed expression stays so in a larger scope, and in one that differs in
labels it does not refer to. -/
theorem Valid.mono {S S' : Scope} {e : Expr} (le : S.Le S' e.targets) (valid : Valid S e) :
    Valid S' e := by
  induction e generalizing S S' with
  | null => exact .null
  | node k cs ih =>
    obtain ⟨typed, children⟩ := valid_node_iff.mp valid
    rw [Expr.targets_node] at le
    refine .node (typed.mono (le.weaken (List.subset_append_left _ _))) ?_
    intro c member
    refine ih c member ((le.enter k).weaken ?_) (children c member)
    intro label inside
    exact List.mem_append_right _ (List.mem_flatMap.mpr ⟨c, member, inside⟩)

/-! ## Targets are bound -/

/-- The label is one that the scope lets a node refer to. -/
def Scope.Knows (S : Scope) (label : String) : Prop :=
  (S.label? label).isSome ∨ label ∈ S.tries ∨ label = delegateCallerTarget

theorem Kind.Typed.knows {S : Scope} {k : Kind} {ts : List (Option Ty)} (typed : k.Typed S ts)
    {label : String} (member : label ∈ k.targets) : S.Knows label := by
  cases k with
  | break_ target =>
    obtain ⟨_, _, _, ⟨want, found, _⟩, _⟩ := typed
    cases List.mem_singleton.mp member
    exact .inl (by simp [found])
  | switch targets fallback =>
    obtain ⟨_, _, _, each, _⟩ := typed
    obtain ⟨want, found, _⟩ := each label member
    exact .inl (by simp [found])
  | try_ name ty tags delegate =>
    have given : label ∈ delegate := by
      cases name <;> cases delegate <;> simp_all [Kind.targets]
    exact .inr (typed.2.2 label given)
  | rethrow target =>
    cases List.mem_singleton.mp member
    exact .inr (.inl typed.2)
  | _ => cases member

theorem mem_labels_of_bound {k : Kind} {label : String} {ty : Ty}
    (found : k.bound.lookup label = some ty) : label ∈ k.labels := by
  obtain ⟨before, after, equal, _⟩ := List.lookup_eq_some_iff.mp found
  have member : (label, ty) ∈ k.bound := by simp [equal]
  clear found equal
  cases k with
  | block name _ => cases name <;> simp_all [Kind.bound, Kind.labels]
  | loop name => cases name <;> simp_all [Kind.bound, Kind.labels]
  | _ => cases member

private theorem mem_labels_of_boundTries {k : Kind} {label : String} (found : label ∈ k.boundTries) :
    label ∈ k.labels := by
  cases k with
  | try_ name _ _ _ =>
    cases name with
    | none => cases found
    | some name => exact found
  | _ => cases found

theorem Scope.knows_enter {S : Scope} {k : Kind} {label : String}
    (known : (S.enter k).Knows label) : label ∈ k.labels ∨ S.Knows label := by
  rcases known with found | found | caller
  · rw [Scope.label?_enter] at found
    cases own : k.bound.lookup label with
    | some ty => exact .inl (mem_labels_of_bound own)
    | none => exact .inr (.inl (by simpa [own] using found))
  · rcases List.mem_append.mp found with own | outer
    · exact .inl (mem_labels_of_boundTries own)
    · exact .inr (.inr (.inl outer))
  · exact .inr (.inr (.inr caller))

/-- A well-typed expression refers to labels of its own and to labels in scope. -/
theorem Valid.targets {S : Scope} {e : Expr} (valid : Valid S e) {label : String}
    (member : label ∈ e.targets) : label ∈ e.labels ∨ S.Knows label := by
  induction e generalizing S with
  | null => cases member
  | node k cs ih =>
    obtain ⟨typed, children⟩ := valid_node_iff.mp valid
    rw [Expr.targets_node, List.mem_append, List.mem_flatMap] at member
    rw [Expr.labels_node, List.mem_append, List.mem_flatMap]
    rcases member with own | ⟨c, child, inside⟩
    · exact .inr (typed.knows own)
    · rcases ih c child (children c child) inside with bound | known
      · exact .inl (.inr ⟨c, child, bound⟩)
      · exact (Scope.knows_enter known).imp_left .inl

/-! ## Functions -/

/-- The scope of the body of a function. -/
def Func.scope (f : Func) (sig : Signature) : Scope where
  sig := sig
  locals := f.params.expand.map .one ++ f.vars
  results := f.results
  labels := []
  tries := []

/-- The body of a function is well typed, leaves the results of the function, and names
each label once. An imported function has no body. -/
structure Func.Valid (f : Func) (sig : Signature) : Prop where
  typed : Binaryen.Valid (f.scope sig) f.body
  results : f.body = .null ∨ Fits f.body.top? f.results
  labels : f.body.labels.Nodup

def Module.Valid (m : Module) : Prop := ∀ f ∈ m.functions, f.Valid m.signature

end Swam.Binaryen
