import Swam.Recurse

/-!
# Recursive mutation keeps the meaning of a module

Every decision of the walk yields a wrapper that does not show (`Chosen`), every turn
keeps the body a rewriting of the original one (`Sound`), and queued nodes stay where
their paths lead (`Located`). Hence every function is well typed as before and has the
same executions.
-/
namespace Swam

open Binaryen

/-! ## The arm fits -/

/-- A closed expression of a given type in every scope of a module. -/
structure Filler (sig : Signature) (e : Expr) (ty : Ty) : Prop where
  top : e.top? = some ty
  targets : e.targets = []
  labels : e.labels = []
  valid : ∀ S : Scope, S.sig = sig → Valid S e

/-- A childless instruction without labels. -/
theorem Filler.leaf {sig : Signature} {k : Kind} {ty : Ty} (top : (k.ty []).top = ty)
    (targets : k.targets = []) (labels : k.labels = [])
    (typed : ∀ S : Scope, S.sig = sig → k.Typed S []) : Filler sig (.node k []) ty where
  top := by rw [Expr.top?_node, List.map_nil, top]
  targets := by simp [Expr.targets_node, targets]
  labels := by simp [Expr.labels_node, labels]
  valid := fun S same => .node (typed S same) (by simp)

theorem randLiteral_spec {ty : ValTy} (r : Rand) (simple : ty.top = ty) (notExtern : ty ≠ .externref)
    (notFunc : ty ≠ .funcref) : ∃ value r', randLiteral ty r = (some value, r') ∧ value.ty = ty := by
  cases ty with
  | i32 => exact ⟨_, _, rfl, rfl⟩
  | i64 => exact ⟨_, _, rfl, rfl⟩
  | f32 => exact ⟨_, _, rfl, rfl⟩
  | f64 => exact ⟨_, _, rfl, rfl⟩
  | v128 => exact ⟨_, _, rfl, rfl⟩
  | externref => exact absurd rfl notExtern
  | nullExternref => cases simple
  | ref heap nullable => exact absurd simple.symm notFunc

theorem filler_refNull (sig : Signature) {ty : ValTy} (bottom : ValTy) (top : bottom.top = ty)
    (reference : ty = .funcref ∨ ty = .externref) :
    Filler sig (.node (.refNull bottom) []) (.one ty) := by
  refine .leaf (by simp [Kind.ty, Ty.one, top]) rfl rfl ?_
  intro S _
  exact ⟨[], by simp [Kind.operands?, top, reference], .nil⟩

theorem getFunction_of_mem {m : Module} {f : Func} (member : f ∈ m.functions) :
    ∃ g, m.getFunction f.name = some g := by
  refine Option.isSome_iff_exists.mp (List.find?_isSome.mpr ⟨f, member, ?_⟩)
  simp

theorem filler_refFunc {m : Module} {f : Func} (member : f ∈ m.functions) :
    Filler m.signature (.node (.refFunc f.name .funcref) []) (.one .funcref) := by
  refine .leaf rfl rfl rfl ?_
  intro S same
  obtain ⟨g, found⟩ := getFunction_of_mem member
  have known : S.sig.functions f.name = some (g.params, g.results) := by
    simp [same, Module.signature, found]
  exact ⟨[], by simp [Kind.operands?, known, ValTy.funcref, ValTy.top], .nil⟩

section Filling

variable {m : Module}

theorem dummyExpr_spec (inhabited : m.functions ≠ []) {ty : ValTy} (simple : ty.top = ty)
    (r : Rand) :
    ∃ e r', dummyExpr m ty r = some (e, m, r') ∧ Filler m.signature e (.one ty) := by
  unfold dummyExpr
  split
  next isExtern =>
    subst isExtern
    exact ⟨_, _, rfl, filler_refNull _ .nullExternref rfl (.inr rfl)⟩
  next notExtern =>
    split
    next func =>
      subst func
      dsimp only
      split
      · exact ⟨_, _, rfl, filler_refNull _ .nullFuncref rfl (.inl rfl)⟩
      · have bound := randBelow_lt (List.length_pos_of_ne_nil inhabited) (randBelow 2 r).2
        have found := List.getElem?_eq_getElem bound
        refine ⟨_, (randBelow m.functions.length (randBelow 2 r).2).2, ?_,
          filler_refFunc (List.getElem_mem bound)⟩
        simp [wasmGenerateOneSimpleExpr, found]
    next notFunc =>
      obtain ⟨value, r', drawn, typed⟩ := randLiteral_spec r simple notExtern notFunc
      simp only [wasmGenerateOneSimpleExpr, drawn]
      refine ⟨_, _, rfl, .leaf ?_ rfl rfl ?_⟩
      · simp [Kind.ty, typed, simple, Ty.one]
      · intro S _
        exact ⟨[], rfl, .nil⟩

theorem dummyExprs_spec (inhabited : m.functions ≠ []) {types : List ValTy}
    (simple : types.map ValTy.top = types) (r : Rand) :
    ∃ es r', dummyExprs m types r = some (es, m, r') ∧
      List.Forall₂ (fun e ty => Filler m.signature e (.one ty)) es types := by
  induction types generalizing r with
  | nil => exact ⟨[], r, rfl, .nil⟩
  | cons ty types ih =>
    simp only [List.map_cons, List.cons.injEq] at simple
    obtain ⟨e, r', head, fits⟩ := dummyExpr_spec inhabited simple.1 r
    obtain ⟨es, r'', tail, rest⟩ := ih simple.2 r'
    exact ⟨e :: es, r'', by simp [dummyExprs, head, tail], .cons fits rest⟩

private theorem vals_of_top_eq_one {t : Ty} {ty : ValTy} (top : t.top = .one ty) :
    ∃ v, t = .vals [v] ∧ v.top = ty := by
  cases t with
  | unreachable => cases top
  | vals ts =>
    simp only [Ty.top_vals, Ty.one, Ty.vals.injEq, List.map_eq_singleton_iff] at top
    obtain ⟨v, rfl, equal⟩ := top
    exact ⟨v, rfl, equal⟩

/-- The parts of a tuple are single values of the types listed. -/
private theorem parts_vals {sig : Signature} {es : List Expr} {types : List ValTy}
    (parts : List.Forall₂ (fun e ty => Filler sig e (.one ty)) es types) :
    ∃ vs : List ValTy, es.map Expr.ty? = vs.map (fun v => some (.vals [v])) ∧ vs.map ValTy.top = types := by
  induction parts with
  | nil => exact ⟨[], rfl, rfl⟩
  | cons head _ ih =>
    obtain ⟨vs, equal, tops⟩ := ih
    obtain ⟨t, here, top⟩ := Option.map_eq_some_iff.mp head.top
    obtain ⟨v, rfl, same⟩ := vals_of_top_eq_one top
    exact ⟨v :: vs, by simp [here, equal], by simp [same, tops]⟩

theorem filler_tupleMake {sig : Signature} {es : List Expr} {types : List ValTy}
    (several : 2 ≤ types.length)
    (parts : List.Forall₂ (fun e ty => Filler sig e (.one ty)) es types) :
    Filler sig (.node .tupleMake es) (.vals types) := by
  obtain ⟨vs, equal, tops⟩ := parts_vals parts
  have each : ∀ e ∈ es, ∃ ty ∈ types, Filler sig e (.one ty) := fun e member =>
    exists_of_mem_left parts member
  refine ⟨?_, ?_, ?_, ?_⟩
  · have reachable : anyUnreachable (vs.map fun v => some (Ty.vals [v])) = false := by
      simp [anyUnreachable]
    have values : (vs.map fun v => some (Ty.vals [v])).flatMap
        (fun t => (t.getD Ty.none).expand) = vs := by
      simp [List.flatMap_map, Ty.expand]
    rw [Expr.top?_node, equal, Kind.ty, strictTy, reachable, values]
    simp [tops]
  · rw [Expr.targets_node]
    simpa [Kind.targets] using fun e member => (each e member).elim fun _ fits => fits.2.targets
  · rw [Expr.labels_node]
    simpa [Kind.labels] using fun e member => (each e member).elim fun _ fits => fits.2.labels
  · intro S same
    refine .node ⟨?_, ?_⟩ ?_
    · simpa [parts.length_eq] using several
    · intro t member
      obtain ⟨e, child, rfl⟩ := List.mem_map.mp member
      obtain ⟨ty, listed, fits⟩ := each e child
      obtain ⟨v, _, rfl⟩ := List.mem_map.mp (tops ▸ listed)
      exact ⟨v, .inr fits.top⟩
    · intro e member
      obtain ⟨ty, _, fits⟩ := each e member
      exact fits.valid _ same

theorem falseExpr_spec (inhabited : m.functions ≠ []) {ty : Ty} (simple : ty.top = ty)
    (room : Bool) (r : Rand) :
    ∃ arm r', falseExpr m ty room r = some (arm, m, r') ∧
      ∀ e, arm = some e → Filler m.signature e ty := by
  unfold falseExpr
  split
  · refine ⟨_, _, rfl, ?_⟩
    rintro e ⟨⟩
    exact .leaf rfl rfl rfl fun S _ => ⟨[], rfl, .nil⟩
  · refine ⟨_, _, rfl, ?_⟩
    rintro e ⟨⟩
    exact .leaf rfl rfl rfl fun S _ => ⟨[], rfl, .nil⟩
  next types nonempty =>
    have listed : types.map ValTy.top = types := by simpa using simple
    split
    · obtain ⟨es, r', made, parts⟩ := dummyExprs_spec inhabited listed r
      rw [made]
      refine ⟨_, r', rfl, ?_⟩
      rintro e ⟨⟩
      obtain _ | ⟨only, _ | ⟨next, rest⟩⟩ := parts
      · exact absurd rfl nonempty
      · exact only
      · exact filler_tupleMake (by simp) (.cons only (.cons next rest))
    · exact ⟨none, r, rfl, by simp⟩

end Filling

/-! ## What the walk preserves -/

/-- The names a decision takes from the pool. -/
def wrapperLabels (wrapper : Option Wrapper) : List String := wrapper.elim [] Wrapper.labels

/-- What a decision may do: it leaves the module and the body alone, takes new names,
and its wrapper suits the node. -/
structure Chosen (el : Expr) (st : RecurseState) (wrapper : Option Wrapper) (st' : RecurseState) :
    Prop where
  mod : st'.mod = st.mod
  body : st'.body = st.body
  suits : ∀ w ∈ wrapper, w.Suits st.mod.signature el
  fresh : ∀ label ∈ wrapperLabels wrapper,
    (∃ n, label = fuzzName n) ∧ label ∉ st.names.usedNames
  taken : st'.names.usedNames = st.names.usedNames ++ wrapperLabels wrapper

theorem top?_of_isStructured {el : Expr} (structured : isStructured el = true) :
    el.top? = some el.ty.top := by
  cases el with
  | null => cases structured
  | node k cs => rw [Expr.top?_node, Expr.ty_node]

theorem chooseWrapper_spec (room : Nat → Bool) (el : Expr) {st : RecurseState}
    (inhabited : st.mod.functions ≠ []) (closed : ∀ n, fuzzName n ∉ el.targets) :
    ∃ wrapper st', chooseWrapper room el st = some (wrapper, st') ∧ Chosen el st wrapper st' := by
  unfold chooseWrapper
  split
  next structured =>
    have top := top?_of_isStructured structured
    dsimp only
    split
    · split
      · obtain ⟨⟨n, named⟩, unused, taken⟩ := wasmFindAvailableName_spec st.names
        have free : (wasmFindAvailableName st.names).1 ∉ el.targets := named ▸ closed n
        refine ⟨_, _, rfl, rfl, rfl, ?_, ?_, ?_⟩
        · rintro w ⟨⟩
          split
          · exact ⟨free, top⟩
          · exact ⟨free, by simp [top]⟩
        · intro label member
          have equal : label = (wasmFindAvailableName st.names).1 := by
            revert member
            simp only [wrapperLabels, Option.elim_some]
            split <;> exact fun member => List.mem_singleton.mp member
          rw [equal]
          exact ⟨⟨n, named⟩, unused⟩
        · simp only [wrapperLabels, Option.elim_some]
          split <;> exact taken
      · obtain ⟨arm, r', made, fits⟩ := falseExpr_spec inhabited (Ty.top_top el.ty)
          (room st.curCnt) (randBelow 3 (randBelow 8 st.rand).2).2
        rw [made]
        refine ⟨_, _, rfl, rfl, rfl, ?_, ?_, ?_⟩
        · intro w member
          obtain ⟨e, rfl, rfl⟩ := Option.map_eq_some_iff.mp member
          have filler := fits e rfl
          exact ⟨filler.top.trans top.symm, by simp [top], filler.targets, filler.labels,
            filler.valid⟩
        · cases arm <;> simp [wrapperLabels, Wrapper.labels]
        · cases arm <;> simp [wrapperLabels, Wrapper.labels]
    · exact ⟨none, _, rfl, rfl, rfl, by simp, by simp [wrapperLabels], by simp [wrapperLabels]⟩
  · exact ⟨none, _, rfl, rfl, rfl, by simp, by simp [wrapperLabels], by simp [wrapperLabels]⟩

/-- The body stands for the original one, and its labels are distinct, those from the
pool being in use. -/
structure Sound (m : Module) (original : Expr) (st : RecurseState) : Prop where
  mod : st.mod = m
  rewrites : Rewrites m.signature original st.body
  distinct : st.body.labels.Nodup
  used : ∀ n, fuzzName n ∈ st.body.labels → fuzzName n ∈ st.names.usedNames

theorem targets_of_reach? {e x : Expr} {path : List Nat} (here : reach? e path = some x) :
    x.targets ⊆ e.targets := by
  induction path generalizing e with
  | nil =>
    cases here
    exact List.Subset.refl _
  | cons i path ih =>
    obtain ⟨k, cs, c, rfl, _, child, here⟩ := reach?_cons here
    refine List.Subset.trans (ih here) ?_
    intro label inside
    rw [Expr.targets_node]
    exact List.mem_append_right _
      (List.mem_flatMap.mpr ⟨c, List.mem_of_getElem? child, inside⟩)

section Walk

variable {m : Module} {original : Expr} (room : Nat → Bool) {st st' : RecurseState}

theorem Sound.closed (sound : Sound m original st) (closed : ∀ n, fuzzName n ∉ original.targets)
    (path : List Nat) {el : Expr} (here : reach? st.body path = some el) (n : Nat) :
    fuzzName n ∉ el.targets :=
  fun member => closed n (sound.rewrites.targets (targets_of_reach? here member))

/-- A decision alone changes nothing. -/
theorem Sound.chosen (sound : Sound m original st) {el : Expr} {wrapper : Option Wrapper}
    (chosen : Chosen el st wrapper st') : Sound m original st' where
  mod := chosen.mod.trans sound.mod
  rewrites := chosen.body ▸ sound.rewrites
  distinct := chosen.body ▸ sound.distinct
  used := by
    intro n member
    rw [chosen.body] at member
    rw [chosen.taken]
    exact List.mem_append_left _ (sound.used n member)

/-- Carrying a decision out keeps the invariant. -/
theorem Sound.wrapped (sound : Sound m original st) {el : Expr} {w : Wrapper}
    (chosen : Chosen el st (some w) st') (path : List Nat) (here : reach? st.body path = some el) (count : Nat) :
    Sound m original
      { st' with body := st.body.modifyAt path fun _ => w.wrap el, curCnt := count } := by
  have suits : w.Suits m.signature el := sound.mod ▸ chosen.suits w rfl
  have added := labels_modifyAt here suits.labels
  refine ⟨chosen.mod.trans sound.mod, sound.rewrites.trans (.modifyAt here suits.rewrites), ?_, ?_⟩
  · have single : w.labels.Nodup := by cases w <;> simp [Wrapper.labels]
    refine added.nodup_iff.mpr (single.append sound.distinct ?_)
    intro label new old
    obtain ⟨⟨n, rfl⟩, unused⟩ := chosen.fresh label new
    exact unused (sound.used n old)
  · intro n member
    show fuzzName n ∈ st'.names.usedNames
    rw [chosen.taken, List.mem_append]
    rcases List.mem_append.mp (added.mem_iff.mp member) with new | old
    · exact .inr new
    · exact .inl (sound.used n old)

/-- Each queued node is where its path leads, and no path leads through another. -/
structure Located (body : Expr) (queue : List Queued) : Prop where
  here : ∀ q ∈ queue, reach? body q.path = some q.el
  apart : queue.Pairwise fun p q => Apart p.path q.path

/-- What the loop over the children from position `ind` on does: it keeps the invariant,
changes nothing but those children, and queues them. -/
structure Visited (m : Module) (original : Expr) (path : List Nat) (ind : Nat) (st : RecurseState)
    (queued : List Queued) (st' : RecurseState) : Prop where
  sound : Sound m original st'
  used : st.names.usedNames ⊆ st'.names.usedNames
  frame : ∀ q, (∀ j, ind ≤ j → Apart (path ++ [j]) q) → reach? st'.body q = reach? st.body q
  located : Located st'.body queued
  below : ∀ q ∈ queued, ∃ j s, ind ≤ j ∧ q.path = path ++ j :: s

/-- The loop goes on after a child has been queued. -/
theorem Visited.cons {path : List Nat} {ind : Nat} {st₀ st₁ : RecurseState} {el : Expr}
    {s : List Nat} {queued : List Queued} (rest : Visited m original path (ind + 1) st₁ queued st')
    (used : st₀.names.usedNames ⊆ st₁.names.usedNames)
    (frame : ∀ q, Apart (path ++ [ind]) q → reach? st₁.body q = reach? st₀.body q)
    (here : reach? st₁.body (path ++ ind :: s) = some el) :
    Visited m original path ind st₀ (⟨path ++ ind :: s, el⟩ :: queued) st' where
  sound := rest.sound
  used := List.Subset.trans used rest.used
  frame := by
    intro q apart
    rw [rest.frame q fun j le => apart j (by omega), frame q (apart ind (Nat.le_refl _))]
  located := by
    refine ⟨?_, List.pairwise_cons.mpr ⟨?_, rest.located.apart⟩⟩
    · intro q member
      rcases List.mem_cons.mp member with rfl | later
      · rw [← here]
        exact rest.frame _ fun j le => Apart.siblings path (by omega) [] s
      · exact rest.located.here q later
    · intro q later
      obtain ⟨j, t, le, equal⟩ := rest.below q later
      rw [equal]
      exact Apart.siblings path (by omega) s t
  below := by
    intro q member
    rcases List.mem_cons.mp member with rfl | later
    · exact ⟨ind, s, Nat.le_refl _, rfl⟩
    · obtain ⟨j, t, le, equal⟩ := rest.below q later
      exact ⟨j, t, by omega, equal⟩

theorem visitChildren_spec (inhabited : m.functions ≠ [])
    (closed : ∀ n, fuzzName n ∉ original.targets) (path : List Nat) (children : List Expr)
    (ind : Nat) (sound : Sound m original st)
    (here : ∀ (j : Nat) c, children[j]? = some c → reach? st.body (path ++ [ind + j]) = some c) :
    ∃ queued st', visitChildren room path children ind st = some (queued, st') ∧
      Visited m original path ind st queued st' := by
  induction children generalizing ind st with
  | nil =>
    exact ⟨[], st, rfl, sound, List.Subset.refl _, fun _ _ => rfl, ⟨by simp, .nil⟩, by simp⟩
  | cons child rest ih =>
    have first : reach? st.body (path ++ [ind]) = some child := here 0 child rfl
    have others : ∀ (j : Nat) c, rest[j]? = some c →
        reach? st.body (path ++ [ind + 1 + j]) = some c := by
      intro j c found
      have := here (j + 1) c found
      rwa [show ind + 1 + j = ind + (j + 1) by omega]
    rw [visitChildren]
    split
    · obtain ⟨queued, st', visited, spec⟩ := ih (ind + 1) sound others
      exact ⟨queued, st', visited, spec.sound, spec.used,
        fun q apart => spec.frame q fun j le => apart j (by omega), spec.located,
        fun q member => (spec.below q member).imp fun j => Exists.imp fun s h => ⟨by omega, h.2⟩⟩
    · obtain ⟨wrapper, st₁, chose, chosen⟩ := chooseWrapper_spec room child
        (sound.mod ▸ inhabited) (sound.closed closed _ first)
      have grown : st.names.usedNames ⊆ st₁.names.usedNames := by
        rw [chosen.taken]
        exact List.subset_append_left _ _
      rw [chose, Option.bind_some]
      dsimp only
      split
      · refine ⟨[], st₁, rfl, sound.chosen chosen, grown, ?_, ⟨by simp, .nil⟩, by simp⟩
        intro q _
        rw [chosen.body]
      · cases wrapper with
        | none =>
          obtain ⟨queued, st', visited, spec⟩ := ih (ind + 1) (sound.chosen chosen) (chosen.body ▸ others)
          refine ⟨_, _, by rw [visited]; rfl, spec.cons grown ?_ (chosen.body ▸ first)⟩
          intro q _
          rw [chosen.body]
        | some w =>
          have placed : st₁.body.modifyAt path (wasmSetChildrenExpr · (w.wrap child) ind) =
              st.body.modifyAt (path ++ [ind]) fun _ => w.wrap child := by
            rw [chosen.body]
            exact modifyAt_setChild _ first
          have frame : ∀ q, Apart (path ++ [ind]) q →
              reach? (st.body.modifyAt (path ++ [ind]) fun _ => w.wrap child) q =
                reach? st.body q := fun q apart => reach?_modifyAt_apart apart _ _
          dsimp only
          rw [placed]
          obtain ⟨queued, st', visited, spec⟩ :=
            ih (ind + 1) (sound.wrapped chosen _ first (st₁.curCnt + 1)) (by
              intro j c found
              rw [← others j c found]
              exact frame _ (Apart.siblings path (by omega) [] []))
          refine ⟨_, _, by rw [visited]; rfl, spec.cons grown frame ?_⟩
          have moved := reach?_modifyAt (fun _ => w.wrap child) first
          have split : path ++ [ind, w.position] = (path ++ [ind]) ++ [w.position] := by simp
          rw [split, reach?_append, moved]
          exact w.reach?_wrap child

/-- One turn of the walk. -/
theorem visit_spec (inhabited : m.functions ≠ []) (closed : ∀ n, fuzzName n ∉ original.targets)
    {path : List Nat} {el : Expr} {rest : List Queued} (sound : Sound m original st)
    (located : Located st.body (⟨path, el⟩ :: rest)) :
    ∃ queued st', visitChildren room path (wasmGetChildrenExpr el) 0 st = some (queued, st') ∧
      Sound m original st' ∧ st.names.usedNames ⊆ st'.names.usedNames ∧
      Located st'.body (rest ++ queued) := by
  obtain ⟨away, apart⟩ := List.pairwise_cons.mp located.apart
  have here : reach? st.body path = some el := located.here _ List.mem_cons_self
  obtain ⟨queued, st', visited, spec⟩ := visitChildren_spec room inhabited
    closed path (wasmGetChildrenExpr el) 0 sound (by
      intro j c found
      rw [Nat.zero_add, reach?_append, here]
      simp [reach?, found])
  refine ⟨queued, st', visited, spec.sound, spec.used, ?_, List.pairwise_append.mpr
    ⟨apart, spec.located.apart, ?_⟩⟩
  · intro q member
    rcases List.mem_append.mp member with old | new
    · rw [spec.frame q.path fun j _ => (away q old).append [j]]
      exact located.here q (List.mem_cons_of_mem _ old)
    · exact spec.located.here q new
  · intro p old q new
    obtain ⟨j, s, _, equal⟩ := spec.below q new
    rw [equal]
    exact ((away p old).append (j :: s)).symm

theorem walk_spec (inhabited : m.functions ≠ []) (closed : ∀ n, fuzzName n ∉ original.targets)
    (maxCnt : Nat) {queue : List Queued} (sound : Sound m original st)
    (located : Located st.body queue) :
    ∃ st', walk room maxCnt queue st = some st' ∧ Sound m original st' ∧
      st.names.usedNames ⊆ st'.names.usedNames := by
  induction queue, st using walk.induct room maxCnt with
  | case1 st => exact ⟨st, by rw [walk], sound, List.Subset.refl _⟩
  | case2 st path el rest failed =>
    obtain ⟨_, _, visited, _⟩ := visit_spec room inhabited closed sound located
    cases failed.symm.trans visited
  | case3 st path el rest queued st₁ visited stopped =>
    obtain ⟨_, _, again, sound', used, _⟩ := visit_spec room inhabited closed sound located
    cases visited.symm.trans again
    exact ⟨st₁, by rw [walk, visited]; simp [stopped], sound', used⟩
  | case4 st path el rest queued st₁ visited going full =>
    obtain ⟨_, _, again, sound', used, _⟩ := visit_spec room inhabited closed sound located
    cases visited.symm.trans again
    refine ⟨{ st₁ with stopped := true }, by rw [walk, visited]; simp [going, full], ?_, used⟩
    exact ⟨sound'.mod, sound'.rewrites, sound'.distinct, sound'.used⟩
  | case5 st path el rest queued st₁ visited going more ih =>
    obtain ⟨_, _, again, sound', used, located'⟩ := visit_spec room inhabited closed sound located
    cases visited.symm.trans again
    obtain ⟨st', walked, sound'', used'⟩ := ih sound' located'
    refine ⟨st', ?_, sound'', List.Subset.trans used used'⟩
    rw [walk, visited]
    simp [going, more, walked]

theorem located_single {body el : Expr} (path : List Nat) (here : reach? body path = some el) :
    Located body [⟨path, el⟩] where
  here := by
    intro q member
    cases List.mem_singleton.mp member
    exact here
  apart := List.pairwise_singleton _ _

theorem mutateBody_spec (inhabited : m.functions ≠ [])
    (closed : ∀ n, fuzzName n ∉ original.targets) (maxCnt : Nat) (sound : Sound m original st) :
    ∃ st', mutateBody room maxCnt st = some st' ∧ Sound m original st' ∧
      st.names.usedNames ⊆ st'.names.usedNames := by
  obtain ⟨wrapper, st₁, chose, chosen⟩ := chooseWrapper_spec room st.body
    (sound.mod ▸ inhabited) (sound.closed closed [] rfl)
  have grown : st.names.usedNames ⊆ st₁.names.usedNames := by
    rw [chosen.taken]
    exact List.subset_append_left _ _
  unfold mutateBody
  dsimp only
  rw [chose, Option.bind_some]
  dsimp only
  split
  · exact ⟨st₁, rfl, sound.chosen chosen, grown⟩
  · cases wrapper with
    | none =>
      obtain ⟨st', walked, sound', used⟩ := walk_spec room inhabited closed maxCnt
        (sound.chosen chosen) (located_single [] (congrArg some chosen.body))
      exact ⟨st', walked, sound', List.Subset.trans grown used⟩
    | some w =>
      obtain ⟨st', walked, sound', used⟩ := walk_spec room inhabited closed maxCnt
        (sound.wrapped chosen [] rfl (st₁.curCnt + 1))
        (located_single _ (w.reach?_wrap st.body))
      exact ⟨st', walked, sound', List.Subset.trans grown used⟩

end Walk

/-! ## Whole modules -/

/-- The function is the original one up to its body, which stands for the original body
and names its labels as the pool allows. -/
structure Mutated (sig : Signature) (names : NameGroup) (f f' : Func) : Prop where
  same : f' = { f with body := f'.body }
  rewrites : Rewrites sig f.body f'.body
  distinct : f'.body.labels.Nodup
  used : ∀ n, fuzzName n ∈ f'.body.labels → fuzzName n ∈ names.usedNames

theorem Mutated.mono {sig : Signature} {names names' : NameGroup} {f f' : Func}
    (mutated : Mutated sig names f f') (used : names.usedNames ⊆ names'.usedNames) :
    Mutated sig names' f f' :=
  { mutated with used := fun n member => used (mutated.used n member) }

structure MutatedModule (m : Module) (names : NameGroup) (m' : Module) : Prop where
  same : m' = { m with functions := m'.functions }
  functions : List.Forall₂ (Mutated m.signature names) m.functions m'.functions

namespace MutatedModule

variable {m m' : Module} {names names' : NameGroup}

/-- Signatures do not depend on bodies. -/
theorem signature (mutated : MutatedModule m names m') : m'.signature = m.signature := by
  have lookup : ∀ {fs fs' : List Func} (name : String),
      List.Forall₂ (Mutated m.signature names) fs fs' →
      (fs'.find? (·.name = name)).map (fun f => (f.params, f.results)) =
        (fs.find? (·.name = name)).map fun f => (f.params, f.results) := by
    intro fs fs' name related
    induction related with
    | nil => rfl
    | @cons f f' _ _ head _ ih =>
      have named : f'.name = f.name := by rw [head.same]
      have params : f'.params = f.params := by rw [head.same]
      have results : f'.results = f.results := by rw [head.same]
      simp only [List.find?_cons, named]
      split
      · simp [params, results]
      · exact ih
  have functions := funext fun name => lookup name mutated.functions
  rw [Module.signature, Module.signature]
  simp only [Module.getFunction, functions]
  rw [mutated.same]
  rfl

/-- A function gets a body that stands for its original body. -/
theorem setBody (mutated : MutatedModule m names m') {idx : Nat} {body : Expr}
    (used : names.usedNames ⊆ names'.usedNames)
    (new : ∀ f f', m.functions[idx]? = some f → m'.functions[idx]? = some f' →
      Mutated m.signature names' f { f' with body }) :
    MutatedModule m names' (m'.setBody idx body) where
  same := by
    rw [mutated.same]
    rfl
  functions := by
    have lengths := mutated.functions.length_eq
    refine List.forall₂_iff_get.mpr ⟨by simp [Module.setBody, lengths], ?_⟩
    intro i before after
    simp only [Module.setBody, List.get_eq_getElem, List.getElem_modify]
    have bound : i < m'.functions.length := lengths ▸ before
    split
    next same =>
      subst same
      exact new _ _ (List.getElem?_eq_getElem before) (List.getElem?_eq_getElem bound)
    · exact (mutated.functions.get before bound).mono used

end MutatedModule

theorem mutateFunctions_spec {m : Module} (room : Nat → Bool) (maxCnt : Nat)
    (closed : ∀ f ∈ m.functions, ∀ n, fuzzName n ∉ f.body.targets) {order : List Nat}
    (bounded : ∀ idx ∈ order, idx < m.functions.length) {m₁ : Module} {names : NameGroup}
    (mutated : MutatedModule m names m₁) (r : Rand) (curCnt : Nat) :
    ∃ cnt m' names' r', mutateFunctions room maxCnt order m₁ names r curCnt =
      some (cnt, m', names', r') ∧ MutatedModule m names' m' := by
  induction order generalizing m₁ names r curCnt with
  | nil => exact ⟨curCnt, m₁, names, r, rfl, mutated⟩
  | cons idx rest ih =>
    have later : ∀ idx ∈ rest, idx < m.functions.length := fun i member =>
      bounded i (List.mem_cons_of_mem _ member)
    have before := bounded idx List.mem_cons_self
    have bound : idx < m₁.functions.length := mutated.functions.length_eq ▸ before
    have related : Mutated m.signature names m.functions[idx] m₁.functions[idx] :=
      mutated.functions.get before bound
    have inhabited : m₁.functions ≠ [] := List.ne_nil_of_length_pos (by omega)
    have start : Sound m₁ m.functions[idx].body
        ⟨m₁, m₁.functions[idx].body, names, r, curCnt, false⟩ :=
      ⟨rfl, mutated.signature ▸ related.rewrites, related.distinct, related.used⟩
    rw [mutateFunctions, List.getElem?_eq_getElem bound, Option.bind_some]
    split
    · exact ih later mutated r curCnt
    · obtain ⟨st, ran, sound, used⟩ := mutateBody_spec room inhabited
        (closed _ (List.getElem_mem before)) maxCnt start
      have next : MutatedModule m st.names (st.mod.setBody idx st.body) := by
        rw [sound.mod]
        refine mutated.setBody used ?_
        intro f f' found found'
        cases (List.getElem?_eq_getElem before).symm.trans found
        cases (List.getElem?_eq_getElem bound).symm.trans found'
        refine ⟨?_, mutated.signature ▸ sound.rewrites, sound.distinct, sound.used⟩
        rw [related.same]
      rw [ran, Option.bind_some]
      dsimp only
      split
      · exact ⟨_, _, _, _, rfl, next⟩
      · exact ih later next st.rand st.curCnt

private theorem fisherYatesFrom_lt {n : Nat} (positive : 0 < n) (i : Nat) {arr : List Nat} (r : Rand)
    (bounded : ∀ x ∈ arr, x < n) : ∀ x ∈ (fisherYatesFrom i arr r).1, x < n := by
  induction i generalizing arr r with
  | zero => exact bounded
  | succ i ih =>
    have read : ∀ j, arr.getD j 0 < n := by
      intro j
      rw [List.getD_eq_getElem?_getD]
      cases found : arr[j]? with
      | none => exact positive
      | some x => exact bounded x (List.mem_of_getElem? found)
    rw [fisherYatesFrom]
    refine ih _ ?_
    intro x member
    rcases List.mem_or_eq_of_mem_set member with inside | rfl
    · rcases List.mem_or_eq_of_mem_set inside with old | rfl
      · exact bounded x old
      · exact read _
    · exact read _

/-- Shuffled indices are indices. -/
theorem fisherYatesShuffle_lt {n : Nat} (r : Rand) :
    ∀ x ∈ (fisherYatesShuffle (List.range n) r).1, x < n := by
  cases n with
  | zero => simp [fisherYatesShuffle, fisherYatesFrom]
  | succ n => exact fisherYatesFrom_lt (Nat.succ_pos n) _ r fun x => List.mem_range.mp

/-- A well-typed function refers to names of the pool only if it binds them. -/
theorem fuzzName_not_target {f : Func} {sig : Signature} (valid : f.Valid sig)
    (disjoint : ∀ n, fuzzName n ∉ f.body.labels) (n : Nat) : fuzzName n ∉ f.body.targets := by
  intro member
  rcases valid.typed.targets member with bound | found | found | caller
  · exact disjoint n bound
  · cases found
  · cases found
  · have first := congrArg (fun s : String => s.toList.head?) caller
    simp [fuzzName, delegateCallerTarget] at first

/-- Every function has the signature, the type and the executions it had, and nothing
but function bodies changed. -/
structure SameMeaning (m m' : Module) : Prop where
  rest : m' = { m with functions := m'.functions }
  functions : List.Forall₂ (fun f f' => f' = { f with body := f'.body } ∧
    f'.body.top? = f.body.top? ∧ Equivalent f.body f'.body) m.functions m'.functions

theorem Mutated.valid {sig : Signature} {names : NameGroup} {f f' : Func}
    (mutated : Mutated sig names f f') (valid : f.Valid sig) : f'.Valid sig := by
  have scope : f'.scope sig = f.scope sig := by
    rw [mutated.same]
    rfl
  refine ⟨?_, ?_, mutated.distinct⟩
  · rw [scope]
    exact mutated.rewrites.valid _ rfl valid.typed
  · have results : f'.results = f.results := by rw [mutated.same]
    rw [mutated.rewrites.top, results]
    refine valid.results.imp_left ?_
    intro absent
    have top := mutated.rewrites.top
    rw [absent] at top
    cases body : f'.body with
    | null => rfl
    | node k cs => simp [body, Expr.top?_node] at top

theorem MutatedModule.start {m : Module} (valid : m.Valid)
    (disjoint : ∀ f ∈ m.functions, ∀ n, fuzzName n ∉ f.body.labels) (names : NameGroup) :
    MutatedModule m names m where
  same := rfl
  functions := by
    refine List.forall₂_same.mpr ?_
    intro f member
    exact ⟨rfl, .refl _, (valid f member).labels, fun n inside => absurd inside (disjoint f member n)⟩

/-- Recursive mutation of a well-typed module that does not use the names of the pool
yields a well-typed module with the same meaning. -/
theorem wasmRecursiveMutate_sameMeaning (shuffle : Bool) (room : Nat → Bool) {m : Module}
    (names : NameGroup) (r : Rand) (valid : m.Valid)
    (disjoint : ∀ f ∈ m.functions, ∀ n, fuzzName n ∉ f.body.labels) :
    ∃ cnt m' names' r', wasmRecursiveMutate shuffle room m names r = some (cnt, m', names', r') ∧
      m'.Valid ∧ SameMeaning m m' := by
  have closed : ∀ f ∈ m.functions, ∀ n, fuzzName n ∉ f.body.targets := fun f member n =>
    fuzzName_not_target (valid f member) (disjoint f member) n
  obtain ⟨r₁, order, start, bounded, run⟩ : ∃ r₁ order start,
      (∀ idx ∈ order, idx < m.functions.length) ∧
      wasmRecursiveMutate shuffle room m names r =
        mutateFunctions room (start + 1) order m names r₁ 0 := by
    unfold wasmRecursiveMutate
    cases shuffle with
    | false => exact ⟨_, _, _, fun x => List.mem_range.mp, rfl⟩
    | true => exact ⟨_, _, _, fisherYatesShuffle_lt _, rfl⟩
  obtain ⟨cnt, m', names', r', ran, mutated⟩ := mutateFunctions_spec room _ closed bounded
    (.start valid disjoint names) r₁ 0
  refine ⟨cnt, m', names', r', run.trans ran, ?_, mutated.same, ?_⟩
  · intro f' member
    obtain ⟨f, original, related⟩ := exists_of_mem_right mutated.functions member
    rw [mutated.signature]
    exact related.valid (valid f original)
  · exact mutated.functions.imp fun f f' related =>
      ⟨related.same, related.rewrites.top, related.rewrites.equivalent⟩

/-- A function that leaves a block by a branch in an arm of an `if`. -/
def branchingModule : Module where
  functions := [{
    name := "f"
    params := Ty.i32
    results := Ty.i32
    vars := []
    body := .node (.block (some "outer") Ty.i32)
      [.node .if_ [.node (.localGet 0 Ty.i32) [],
        .node (.break_ "outer") [.node (.const (.i32 7)) [], .null],
        .node (.const (.i32 8)) []]] }]
  globals := []
  exports := []
  memories := []
  segments := []
  tables := []
  features := []

theorem branchingModule_valid : branchingModule.Valid := by
  intro f member
  cases List.mem_singleton.mp member
  refine ⟨.node ?_ ?_, .inr (.inr rfl), by decide⟩
  · exact Wrapper.blockTyped_single Ty.i32
  · simp only [List.forall_mem_singleton]
    refine .node ⟨_, _, _, rfl, .inr rfl, .unreachable, rfl, .inl rfl⟩ ?_
    simp only [List.forall_mem_cons]
    refine ⟨.node ⟨[], rfl, .nil⟩ (by simp), .node ?_ ?_, .node ⟨[], rfl, .nil⟩ (by simp), by simp⟩
    · exact ⟨_, _, rfl, ⟨Ty.i32, rfl, .inr ⟨by decide, .inr rfl⟩⟩, .inl rfl⟩
    · simp only [List.forall_mem_cons]
      exact ⟨.node ⟨[], rfl, .nil⟩ (by simp), .null, by simp⟩

theorem wasmRecursiveMutate_branchingModule :
    branchingModule.Valid ∧ (∀ f ∈ branchingModule.functions, ∀ n, fuzzName n ∉ f.body.labels) ∧
      ∃ cnt m' names' r', wasmRecursiveMutate true (fun _ => true) branchingModule wasmInitNameGrp
          ⟨fun _ => 0, 0⟩ = some (cnt, m', names', r') ∧ m'.Valid ∧ SameMeaning branchingModule m' := by
  have disjoint : ∀ f ∈ branchingModule.functions, ∀ n, fuzzName n ∉ f.body.labels := by
    intro f member n inside
    cases List.mem_singleton.mp member
    have equal : fuzzName n = "outer" := by
      simpa [Expr.labels_node, Kind.labels] using inside
    have first := congrArg (fun s : String => s.toList.head?) equal
    simp [fuzzName] at first
  exact ⟨branchingModule_valid, disjoint,
    wasmRecursiveMutate_sameMeaning true _ _ _ branchingModule_valid disjoint⟩

end Swam
