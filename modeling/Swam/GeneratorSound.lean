import Swam.VariableTyping

/-!
# Generated code is well typed

Each generator is followed from the operands it asks for to the node it builds. The base case
does this by induction on the depth, the top level around it likewise. Only the base case at
depth zero has nothing to offer for a tuple; at any other depth the values of a tuple are asked
for one by one.
-/
namespace Swam

open Binaryen Gen Lib

variable {mems : List String}

/-! ## Control transfer and calls -/

private theorem selectLabels_yields (labelType : Ty) (labels : List LabelCxt) (s : GenState) :
    Yields mems (selectLabels labelType labels) s fun names _ =>
      ∀ name ∈ names, ∃ el ∈ labels, el.labelName = name ∧ el.labelType = labelType := by
  induction labels generalizing s with
  | nil => exact .pure nofun
  | cons el rest ih =>
    apply Yields.ite
    · intro same
      apply Yields.bind (coin_yields s)
      intro taken t _ _ _
      apply Yields.bind (ih t)
      intro names u _ _ among
      apply Yields.pure
      intro name listed
      have later : name ∈ names → ∃ x ∈ el :: rest, x.labelName = name ∧ x.labelType = labelType := by
        intro inside
        obtain ⟨x, member, right⟩ := among name inside
        exact ⟨x, List.mem_cons_of_mem _ member, right⟩
      split at listed
      · rcases List.mem_cons.mp listed with rfl | inside
        · exact ⟨el, List.mem_cons_self, rfl, same⟩
        · exact later inside
      · exact later listed
    · intro _
      apply (ih s).mono
      intro names _ _ among name listed
      obtain ⟨x, member, right⟩ := among name listed
      exact ⟨x, List.mem_cons_of_mem _ member, right⟩

theorem unreachable_typed (ty : Ty) (s : GenState) :
    Typed mems ty (.node .unreachable []) s :=
  .node (.inl rfl) (fun _ _ => ⟨[], rfl, .nil⟩) (fun _ _ _ child => nomatch child) fun _ => rfl

section Transfer

variable {gen : Ty → Gen Expr} (values : YieldsValues mems gen)
include values

theorem controlTransfer_yields (result : Ty) (s : GenState) :
    Yields mems (wasmGenerateOneControlTransfer gen result) s (MayBe mems result) := by
  apply Yields.bind (below_yields 4 s)
  intro selected t _ _ _
  apply Yields.get_bind
  intro ready
  apply Yields.ite <;> intro _
  · apply Yields.bind (choose_yields _ t)
    rintro (_ | el) u _ before ⟨among, _⟩
    · exact .pure (.inl rfl)
    · have member := among el rfl
      apply Yields.bind (genCarried_yields values (ready.labels el member).1 u)
      intro value v _ after carrying
      have there : el ∈ v.labelCxt := (before.trans after).labels ▸ member
      exact .pure (.inr (break_typed there carrying (.inl rfl) (.inl rfl)))
  apply Yields.ite <;> intro _
  · apply Yields.bind (choose_yields _ t)
    rintro (_ | el) u _ before ⟨among, _⟩
    · exact .pure (.inl rfl)
    · obtain ⟨member, same⟩ := List.mem_filter.mp (among el rfl)
      have equal : el.labelType = result := of_decide_eq_true same
      rw [← equal]
      apply Yields.bind (genCarried_yields values (ready.labels el member).1 u)
      intro value v _ between carrying
      apply Yields.bind (values .i32 v)
      intro cond w _ after typed
      have there : el ∈ w.labelCxt := ((before.trans between).trans after).labels ▸ member
      exact .pure (.inr (break_typed there (carrying.mono after) (.inr typed) (.inr rfl)))
  apply Yields.ite <;> intro _
  · apply Yields.bind (choose_yields _ t)
    rintro (_ | el) u _ before ⟨among, _⟩
    · exact .pure (.inl rfl)
    · have member := among el rfl
      apply Yields.bind (selectLabels_yields _ _ u)
      intro names v _ first listed
      apply Yields.bind (genCarried_yields values (ready.labels el member).1 v)
      intro value w _ second carrying
      apply Yields.bind (values .i32 w)
      intro cond x _ after typed
      have same : x.labelCxt = t.labelCxt := (((before.trans first).trans second).trans after).labels
      refine .pure (.inr (switch_typed ?_ (carrying.mono after) typed))
      intro name target
      rw [same]
      rcases List.mem_cons.mp target with rfl | inside
      · exact ⟨el, member, rfl, rfl⟩
      · exact listed name inside
  · exact .pure (.inr (unreachable_typed result t))

theorem call_yields (result : Ty) (s : GenState) :
    Yields mems (wasmGenerateOneCall gen result) s (MayBe mems result) := by
  apply Yields.get_bind
  intro _
  apply Yields.bind (pick_yields _ s)
  rintro (_ | target) t _ before ⟨among, _⟩
  · exact .pure (.inl rfl)
  · obtain ⟨member, right⟩ := List.mem_filter.mp (among target rfl)
    have returns : target.results.top = result := by simpa using right
    apply Yields.bind (genAll_yields values _ t)
    intro operands u ready after typed
    have there : target ∈ u.mod.functions := (before.trans after).mod.functions ▸ member
    refine .pure (.inr (.node (fits_strictTy _ _) ?_ (fun S covers => typed.valid covers) fun _ => rfl))
    intro S covers
    have known := covers.sig.function ready.names there
    exact ⟨_, by simp [Kind.operands?, known, ← returns], typed.fits⟩

theorem callIndirect_yields (result : Ty) (s : GenState) :
    Yields mems (wasmGenerateOneCallIndirect gen result) s (Typed mems result) := by
  apply Yields.bind (below_yields 5 s)
  intro numParams t _ _ _
  apply Yields.bind (genRandom_yields values _ t)
  rintro ⟨params, operands⟩ u _ _ typed
  have found : Yields mems (Gen.request (fun m r => findTable m .funcref r) fun _ => .nameInUse) u
      fun table v => table ∈ v.mod.tables ∧ table.ty = .funcref := by
    intro ready
    obtain ⟨table, m, r, here, supplied, member, right⟩ :=
      findTable_supplied ready.names ready.memory .funcref u.rand
    rw [ends_request, here]
    exact ⟨⟨ready.names.adds supplied.adds, supplied.memory, ready.locals, ready.labels⟩,
      ⟨supplied.grown, List.prefix_rfl, rfl, List.Subset.refl _⟩, member, right⟩
  apply Yields.bind found
  rintro table v _ first ⟨member, right⟩
  apply Yields.bind (values .i32 v)
  intro index w ready second one
  have all := (typed.mono (first.trans second))
  have there := second.mod.tables.subset member
  refine .pure (.node (fits_strictTy _ _) ?_ ?_ fun _ => rfl)
  · intro S covers
    have known := covers.sig.table ready.names there
    refine ⟨_, by simp only [Kind.operands?, known, right]; rfl, ?_⟩
    rw [List.map_append, FitsAll]
    exact List.rel_append all.fits (.cons one.fits .nil)
  · intro S covers c child
    rcases List.mem_append.mp child with inside | last
    · exact all.valid covers c inside
    · cases List.mem_singleton.mp last
      exact one.valid S covers

end Transfer

/-! ## The base case -/

theorem groups_nonempty : ∀ grp ∈ wasmInitInstrGrps, grp.groups ≠ [] := by
  decide +kernel

/-- Each simplified value type, and nothing, is what some group without operands produces. -/
private theorem leaf_exists {types : List ValTy} (simple : types.map ValTy.top = types)
    (few : types.length ≤ 1) : ∃ grp ∈ wasmInitInstrGrps,
      grp.required.length = 0 ∧ grp.produces (.vals types) = true := by
  have nothing : ∃ grp ∈ wasmInitInstrGrps, grp.required.length = 0 ∧
      grp.produces (.vals []) = true := by decide +kernel
  have each : ∀ v ∈ [ValTy.i32, .i64, .f32, .f64, .funcref, .externref, .v128],
      ∃ grp ∈ wasmInitInstrGrps, grp.required.length = 0 ∧ grp.produces (.vals [v]) = true := by
    decide +kernel
  match types with
  | [] => exact nothing
  | [v] =>
    apply each v
    have top : v.top = v := List.head_eq_of_cons_eq simple
    cases v with
    | nullExternref => cases top
    | ref heap nullable =>
      rw [← top]
      simp [ValTy.top]
    | _ => simp
  | _ :: _ :: _ => simp at few

theorem InstrGrp.produced_eq {grp : InstrGrp} {types : List ValTy} (few : types.length ≤ 1)
    (right : grp.produces (.vals types) = true) : grp.produced = types := by
  rw [InstrGrp.produces, Bool.and_eq_true] at right
  have length : grp.produced.length = types.length := of_decide_eq_true right.1
  have head := right.2
  match types with
  | [] => exact List.length_eq_zero_iff.mp length
  | [v] =>
    match produced : grp.produced with
    | [w] => simpa [produced, Ty.one, Ty.arity] using head
    | [] => simp [produced] at length
    | _ :: _ :: _ => simp [produced] at length
  | _ :: _ :: _ => simp at few

theorem simpleExpr_yields {grp : InstrGrp} (known : grp ∈ wasmInitInstrGrps) {inst : InstrTy}
    (member : inst ∈ grp.groups) {child : List Expr} {s : GenState}
    (operands : AllTyped mems grp.required child s) :
    Yields mems (simpleExpr inst child) s (Typed mems (.vals grp.produced)) := by
  intro ready
  obtain ⟨required, produced, suits⟩ := groups_typed grp known inst member
  have length : child.length = inst.operandCount :=
    operands.length_eq.trans (groups_operands grp known inst member).symm
  obtain ⟨e, m, r, built, supplied, code⟩ := wasmGenerateOneSimpleExpr_built ready.names ready.memory
    suits length (required ▸ operands.fits) s.rand
  rw [simpleExpr, ends_request, built]
  have grown : GenExtends s { s with mod := m, rand := r } :=
    ⟨supplied.grown, List.prefix_rfl, rfl, List.Subset.refl _⟩
  refine ⟨⟨ready.names.adds supplied.adds, supplied.memory, ready.locals, ready.labels⟩, grown, ?_⟩
  refine ⟨produced ▸ code.fits, ?_⟩
  intro S covers
  exact code.valid S covers.sig ((operands.mono grown).valid covers)

theorem oneOfGroups_yields {gen : Ty → Gen Expr} {grps : List InstrGrp} {types : List ValTy}
    (values : ∀ grp ∈ grps, ∀ s, Yields mems (genAll gen grp.required) s (AllTyped mems grp.required))
    (known : ∀ grp ∈ grps, grp ∈ wasmInitInstrGrps ∧ grp.produced = types) (filled : grps ≠ [])
    (s : GenState) : Yields mems (oneOfGroups gen grps) s (Typed mems (.vals types)) := by
  apply Yields.bind (choose_yields grps s)
  rintro (_ | grp) t _ _ ⟨among, there⟩
  · cases there filled
  · have member := among grp rfl
    obtain ⟨listed, produced⟩ := known grp member
    apply Yields.bind (pick_yields grp.groups t)
    rintro (_ | inst) u _ _ ⟨inside, some_⟩
    · cases some_ (groups_nonempty grp listed)
    · apply Yields.bind (values grp member u)
      intro child v _ _ operands
      exact produced ▸ simpleExpr_yields listed (inside inst rfl) operands

section Base

variable {types : List ValTy} (simple : types.map ValTy.top = types)
include simple

theorem leaf_yields (few : types.length ≤ 1) (s : GenState) :
    Yields mems (instrSeqsLeaf (.vals types)) s (Typed mems (.vals types)) := by
  have instruction : ∀ s : GenState,
      Yields mems (instrSeqsLeaf.instruction (.vals types)) s (Typed mems (.vals types)) := by
    intro s
    apply oneOfGroups_yields
    · intro grp member t
      have kept := (List.mem_filter.mp member).2
      rw [Bool.and_eq_true, decide_eq_true_eq, List.length_eq_zero_iff] at kept
      rw [kept.1]
      exact .pure .nil
    · intro grp member
      obtain ⟨listed, kept⟩ := List.mem_filter.mp member
      rw [Bool.and_eq_true] at kept
      exact ⟨listed, InstrGrp.produced_eq few kept.2⟩
    · obtain ⟨grp, listed, required, produces⟩ := leaf_exists simple few
      exact List.ne_nil_of_mem (List.mem_filter.mpr ⟨listed, by simp [required, produces]⟩)
  apply Yields.bind (.ite (fun _ => coin_yields s) fun _ => .pure trivial)
  intro useVariable t _ _ _
  apply Yields.ite <;> intro _
  · apply Yields.bind (coin_yields t)
    intro useLocal u _ _ _
    apply Yields.bind (localGlobalGet_yields _ _ u)
    intro expr v _ _ maybe
    apply Yields.ite
    · exact fun _ => instruction v
    · intro present
      refine .pure (maybe.resolve_left ?_)
      rintro rfl
      exact present rfl
  · exact instruction t

omit simple in
theorem tryFirst_yields {chances : Nat} {ty : Ty} {first otherwise : Gen Expr}
    (one : ∀ s, Yields mems first s (MayBe mems ty)) (other : ∀ s, Yields mems otherwise s (Typed mems ty))
    (s : GenState) : Yields mems (tryFirst chances first otherwise) s (Typed mems ty) := by
  apply Yields.bind (oneIn_yields chances s)
  intro chosen t _ _ _
  apply Yields.ite <;> intro _
  · apply Yields.bind (one t)
    intro expr u _ _ maybe
    apply Yields.ite
    · exact fun _ => other u
    · intro present
      refine .pure (maybe.resolve_left ?_)
      rintro rfl
      exact present rfl
  · exact other t

section

variable {gen : Ty → Gen Expr} (values : YieldsValues mems gen)
include values

theorem tree_yields (s : GenState) :
    Yields mems (instrSeqsNode.tree gen (.vals types)) s (Typed mems (.vals types)) := by
  apply Yields.ite
  · intro several
    apply Yields.bind (genAll_yields values types s)
    intro exprs t _ _ typed
    exact .pure (tupleMake_typed several typed)
  · intro few
    have single : types.length ≤ 1 := Nat.le_of_lt_succ (Nat.not_le.mp few)
    apply oneOfGroups_yields
    · exact fun grp _ t => genAll_yields values grp.required t
    · intro grp member
      obtain ⟨listed, kept⟩ := List.mem_filter.mp member
      exact ⟨listed, InstrGrp.produced_eq single kept⟩
    · obtain ⟨grp, listed, _, produces⟩ := leaf_exists simple single
      exact List.ne_nil_of_mem (List.mem_filter.mpr ⟨listed, produces⟩)

theorem node_yields
    (same : GeneratesValues (fun s t => t.mod.globals = s.mod.globals) (fun _ _ _ => True) gen)
    (s : GenState) : Yields mems (instrSeqsNode gen (.vals types)) s (Typed mems (.vals types)) := by
  apply tryFirst_yields (call_yields values _)
  intro s
  apply Yields.bind (oneIn_yields 5 s)
  intro indirect t _ _ _
  apply Yields.ite <;> intro _
  · exact callIndirect_yields values _ t
  refine tryFirst_yields (controlTransfer_yields values _) ?_ t
  intro s
  apply Yields.ite
  · intro some_
    refine tryFirst_yields ?_ ?_ s
    · intro s
      apply Yields.bind (coin_yields s)
      exact fun useLocal t _ _ _ => localGlobalGet_yields _ useLocal t
    · exact tryFirst_yields (localTee_yields values nofun some_) (tree_yields simple values)
  · intro nothing
    have empty : types = [] := List.length_eq_zero_iff.mp (Nat.lt_one_iff.mp (Nat.not_le.mp nothing))
    have set : ∀ useLocal t, Yields mems (wasmGenerateOneLocalGlobalSet gen useLocal) t
        (MayBe mems (.vals types)) := by
      rw [empty]
      exact fun useLocal t => localGlobalSet_yields values same useLocal t
    refine tryFirst_yields ?_ (tree_yields simple values) s
    intro s
    apply Yields.bind (coin_yields s)
    exact fun useLocal t _ _ _ => set useLocal t

end

end Base

private theorem simple_top (types : List ValTy) :
    (types.map ValTy.top).map ValTy.top = types.map ValTy.top := by
  rw [List.map_map]
  exact List.map_congr_left fun v _ => v.top_top

/-- The base case leaves the values that are asked for; at depth zero it must not be asked for a
tuple. -/
theorem baseCase_yields (depth : Nat) (types : List ValTy) (enough : 0 < depth ∨ types.length ≤ 1)
    (s : GenState) :
    Yields mems (wasmGenerateInstrSeqsBaseCase depth (.vals types)) s (Typed mems (.vals types)) := by
  induction depth generalizing types s with
  | zero =>
    have few : (types.map ValTy.top).length ≤ 1 := by simpa using enough
    exact (leaf_yields (simple_top types) few s).mono fun _ _ _ typed => typed.of_top
  | succ depth ih =>
    have values : YieldsValues mems (wasmGenerateInstrSeqsBaseCase depth) :=
      fun v t => ih [v] (.inr (Nat.le_refl _)) t
    exact (node_yields (simple_top types) values (sameGlobals.baseCase depth) s).mono
      fun _ _ _ typed => typed.of_top

/-! ## Labels -/

/-- The state inside of a construct that binds a label. -/
def GenState.push (s : GenState) (label : LabelCxt) : GenState :=
  { s with labelCxt := s.labelCxt ++ [label] }

theorem freshName_yields (s : GenState) :
    Yields mems freshName s fun name t => name ∈ t.names.usedNames ∧
      ∀ el ∈ t.labelCxt, el.labelName ≠ name := by
  intro ready
  obtain ⟨⟨n, number⟩, unused, taken⟩ := wasmFindAvailableName_spec s.names
  have kept : s.names.usedNames ⊆ (wasmFindAvailableName s.names).2.usedNames := by
    rw [taken]
    exact List.subset_append_left _ _
  refine ⟨⟨ready.names, ready.memory, ready.locals, ?_⟩, ⟨.refl _, List.prefix_rfl, rfl, kept⟩, ?_, ?_⟩
  · intro el member
    obtain ⟨value, used⟩ := ready.labels el member
    exact ⟨value, fun k equal => kept (used k equal)⟩
  · show _ ∈ (wasmFindAvailableName s.names).2.usedNames
    rw [taken]
    exact List.mem_append_right _ (List.mem_singleton_self _)
  · intro el member equal
    apply unused
    have used := (ready.labels el member).2 n (equal.trans number)
    rwa [show el.labelName = (wasmFindAvailableName s.names).1 from equal] at used

/-- The label is there for the body, and gone when the body is done. -/
theorem withLabel_yields {α : Type} {label : LabelCxt} {body : Gen α} {s : GenState}
    {done : α → GenState → Prop} (value : label.labelType ≠ .unreachable)
    (used : label.labelName ∈ s.names.usedNames) (inside : Yields mems body (s.push label) done) :
    Yields mems (withLabel label body) s fun a t => done a (t.push label) := by
  intro ready
  have pushed : Ready mems (s.push label) := by
    refine ⟨ready.names, ready.memory, ready.locals, ?_⟩
    intro el member
    rcases List.mem_append.mp member with old | new
    · exact ready.labels el old
    · rw [List.mem_singleton.mp new]
      exact ⟨value, fun _ _ => used⟩
  rw [withLabel, ends_bind, ends_get, ends_bind, ends_modify, ends_bind]
  apply (inside pushed).mono
  · rintro a t ⟨ready', grown, holds⟩
    have labels : t.labelCxt = s.labelCxt ++ [label] := grown.labels
    have erased : t.labelCxt.eraseIdx s.labelCxt.length = s.labelCxt := by
      rw [labels, List.eraseIdx_append_of_length_le (Nat.le_refl _)]
      simp
    have whole : GenState.push { t with labelCxt := s.labelCxt } label = t := by
      rw [GenState.push, ← labels]
    rw [ends_bind, ends_modify, ends_pure, erased]
    rw [← whole] at holds
    refine ⟨⟨ready'.names, ready'.memory, ready'.locals, ?_⟩,
      ⟨grown.mod, grown.locals, rfl, grown.names⟩, holds⟩
    intro el member
    exact ready'.labels el (labels ▸ List.mem_append_left _ member)
  · exact fun _ _ endless => endless

/-- The scope inside of a construct covers the state with its label. -/
theorem Covers.enter {S : Scope} {s : GenState} (covers : Covers mems S s) {k : Kind}
    {label : LabelCxt} (bound : k.bound = [(label.labelName, label.labelType)])
    (apart : ∀ el ∈ s.labelCxt, el.labelName ≠ label.labelName) :
    Covers mems (S.enter k) (s.push label) where
  sig := covers.sig
  locals := covers.locals
  labels := by
    intro el member
    rw [Scope.label?_enter, bound]
    rcases List.mem_append.mp member with old | new
    · obtain ⟨ty, found, same⟩ := covers.labels el old
      refine ⟨ty, ?_, same⟩
      have other : (el.labelName == label.labelName) = false := beq_false_of_ne (apart el old)
      simp [List.lookup_cons, other, found]
    · rw [List.mem_singleton.mp new]
      exact ⟨label.labelType, by simp, rfl⟩

/-! ## The top level -/

section Structured

variable {s : GenState}

theorem loop_typed {ty : Ty} {e : Expr} {name : String}
    (apart : ∀ el ∈ s.labelCxt, el.labelName ≠ name)
    (typed : Typed mems ty e (s.push ⟨name, Ty.none⟩)) :
    Typed mems ty (.node (.loop (some name)) [e]) s := by
  have present := typed.fits
  cases e with
  | null => cases typed.fits.present
  | node k cs =>
    refine ⟨?_, ?_⟩
    · rw [Expr.top?_node, List.map_singleton, Expr.ty?_node]
      rw [Expr.top?_node] at present
      exact present
    · intro S covers
      refine .node ⟨_, by rw [List.map_singleton, Expr.top?_node]⟩ ?_
      intro c child
      cases List.mem_singleton.mp child
      exact typed.valid _ (covers.enter rfl apart)

/-- Both arms of an `if` give the type, and so does the `if`. -/
theorem if_typed {ty : Ty} {cond ifTrue ifFalse : Expr} (condTyped : Typed mems Ty.i32 cond s)
    (left : Typed mems ty ifTrue s) (right : Typed mems ty ifFalse s) :
    Typed mems ty (.node .if_ [cond, ifTrue, ifFalse]) s := by
  obtain ⟨a, here⟩ : ∃ a, ifTrue.ty? = some a := by
    cases ifTrue with
    | null => cases left.fits.present
    | node k cs => exact ⟨_, Expr.ty?_node k cs⟩
  obtain ⟨b, there⟩ : ∃ b, ifFalse.ty? = some b := by
    cases ifFalse with
    | null => cases right.fits.present
    | node k cs => exact ⟨_, Expr.ty?_node k cs⟩
  have fitsLeft : a = .unreachable ∨ a.top = ty.top := by
    simpa [Fits, Expr.top?, here] using left.fits
  have fitsRight : b = .unreachable ∨ b.top = ty.top := by
    simpa [Fits, Expr.top?, there] using right.fits
  have join : a.lub b = .unreachable ∨ (a.lub b).top = ty.top := by
    rcases fitsLeft with rfl | first
    · exact fitsRight
    · rcases fitsRight with rfl | second
      · cases a with
        | unreachable => exact .inl rfl
        | vals _ => exact .inr first
      · exact .inr ((Ty.lub_top (first.trans second.symm)).trans first)
  refine .node ?_ ?_ ?_ fun _ => rfl
  · simp only [List.map_cons, List.map_nil, here, there, Kind.ty, Option.getD_some]
    split
    · exact .inl rfl
    · rcases join with stuck | value
      · exact .inl (by rw [stuck]; rfl)
      · exact .inr (congrArg some value)
  · intro S _
    refine ⟨_, _, _, rfl, condTyped.fits, ?_⟩
    rw [Expr.top?, Expr.top?, here, there]
    refine ⟨a.top, rfl, ?_⟩
    rcases fitsLeft with rfl | first
    · exact .inl rfl
    · rcases fitsRight with rfl | second
      · exact .inr (.inl rfl)
      · exact .inr (.inr (first.trans second.symm))
  · intro S covers c child
    simp only [List.mem_cons, List.not_mem_nil, or_false] at child
    rcases child with rfl | rfl | rfl
    · exact condTyped.valid S covers
    · exact left.valid S covers
    · exact right.valid S covers

/-- Instructions of which only the last one leaves values. -/
structure BlockCode (mems : List String) (result : Ty) (exprs : List Expr) (s : GenState) : Prop where
  filled : exprs ≠ []
  before : ∀ e ∈ exprs.dropLast, Typed mems Ty.none e s
  last : ∀ e ∈ exprs.getLast?, Typed mems result e s

theorem BlockCode.valid {result : Ty} {exprs : List Expr} (code : BlockCode mems result exprs s)
    {S : Scope} (covers : Covers mems S s) : ∀ e ∈ exprs, Valid S e := by
  intro e member
  rw [← List.dropLast_append_getLast code.filled] at member
  rcases List.mem_append.mp member with early | late
  · exact (code.before e early).valid S covers
  · refine (code.last e ?_).valid S covers
    rw [List.getLast?_eq_some_getLast code.filled, List.mem_singleton.mp late]
    rfl

theorem block_typed {types : List ValTy} {exprs : List Expr} {name : String}
    (apart : ∀ el ∈ s.labelCxt, el.labelName ≠ name)
    (code : BlockCode mems (.vals types) exprs (s.push ⟨name, .vals types⟩)) :
    Typed mems (.vals types) (.node (.block (some name) (.vals types)) exprs) s := by
  refine ⟨.inr (Expr.top?_node _ _), ?_⟩
  intro S covers
  refine .node ⟨?_, ?_, nofun, ?_⟩ (code.valid (covers.enter rfl apart))
  · intro t member
    rw [← List.map_dropLast] at member
    obtain ⟨e, early, rfl⟩ := List.mem_map.mp member
    exact (code.before e early).fits
  · intro t member
    rw [List.getLast?_map] at member
    obtain ⟨e, late, rfl⟩ := Option.map_eq_some_iff.mp member
    exact (code.last e late).fits
  · intro empty
    exact absurd (List.map_eq_nil_iff.mp empty) code.filled

end Structured

/-- A variable and its type stand for values of these types. -/
theorem getLocal_typed {tmp : Nat × Ty} {s : GenState} (at_ : LocalAt tmp.1 tmp.2 s)
    {types : List ValTy} (equal : tmp.2 = .vals types) (filled : types ≠ []) :
    AllTyped mems types (getLocal tmp) s := by
  obtain ⟨localIdx, ty⟩ := tmp
  obtain ⟨el, member, rfl, same⟩ := at_
  dsimp only at equal same
  subst equal
  have typed : Typed mems (.vals types) (.node (.localGet el.localIdx (.vals types)) []) s :=
    same ▸ localGet_typed member
  unfold getLocal
  split
  · -- a tuple is read once for each of its components
    rw [AllTyped, List.forall₂_iff_get]
    refine ⟨by simp [Ty.arity], ?_⟩
    intro i inside bound
    have component : (Ty.vals types).expand[i]? = some types[i] := List.getElem?_eq_getElem bound
    simpa using tupleExtract_typed typed component
  next few =>
    rcases types with _ | ⟨v, _ | ⟨w, rest⟩⟩
    · exact absurd rfl filled
    · exact .cons typed .nil
    · simp [Ty.arity] at few

section TopLevel

variable {sub : Ty → Gen Expr}
  (codes : ∀ types s, Yields mems (sub (.vals types)) s (Typed mems (.vals types)))
include codes

theorem oneConstructor_yields (types : List ValTy) (s : GenState) :
    Yields mems (oneConstructor sub (.vals types)) s (Typed mems (.vals types)) := by
  apply Yields.bind (below_yields 3 s)
  intro selected t _ _ _
  apply Yields.ite <;> intro _
  · exact codes types t
  apply Yields.ite <;> intro _
  · apply Yields.bind (freshName_yields t)
    rintro subLabel u _ _ ⟨used, apart⟩
    have value : Ty.none ≠ .unreachable := nofun
    apply Yields.bind (withLabel_yields value used (codes types _))
    intro expr v _ grown typed
    exact .pure (loop_typed (grown.labels ▸ apart) typed)
  · apply Yields.bind (codes [.i32] t)
    intro cond u _ _ first
    apply Yields.bind (codes types u)
    intro trueExpr v _ grown second
    apply Yields.bind (codes types v)
    intro falseExpr w _ further third
    exact .pure (if_typed (first.mono (grown.trans further)) (second.mono further) third)

/-- What the portions of a result come to: code that saves each portion in a local of its own. -/
structure Saved (mems : List String) (results : List ValTy)
    (answer : List Expr × List (Nat × Ty)) (s : GenState) : Prop where
  sets : ∀ e ∈ answer.1, Typed mems Ty.none e s
  gets : AllTyped mems results (answer.2.flatMap getLocal) s

theorem subBlocks_yields (n : Nat) (results : List ValTy) (enough : results.length ≤ n)
    (s : GenState) : Yields mems (subBlocks sub n results) s (Saved mems results) := by
  induction n generalizing results s with
  | zero =>
    cases List.length_eq_zero_iff.mp (Nat.le_zero.mp enough)
    exact .pure ⟨nofun, .nil⟩
  | succ n ih =>
    cases results with
    | nil => exact .pure ⟨nofun, .nil⟩
    | cons ty rest =>
      apply Yields.bind (below_yields _ s)
      intro moveSteps t _ _ _
      have value : Ty.vals ((ty :: rest).take (moveSteps + 1)) ≠ .unreachable := nofun
      apply Yields.bind (declareLocal_yields value t)
      intro localIdx u _ _ at_
      apply Yields.bind (oneConstructor_yields codes _ u)
      intro expr v _ first typed
      have shorter : ((ty :: rest).drop (moveSteps + 1)).length ≤ n := by
        rw [List.length_drop]
        omega
      apply Yields.bind (ih _ shorter v)
      rintro ⟨exprs, tmpLocals⟩ w _ second ⟨sets, gets⟩
      have at' := at_.mono (first.trans second)
      refine .pure ⟨?_, ?_⟩
      · intro e member
        rcases List.mem_cons.mp member with rfl | later
        · exact localSet_typed at' (typed.mono second)
        · exact sets e later
      · have filled : (ty :: rest).take (moveSteps + 1) ≠ [] := List.cons_ne_nil _ _
        have here : AllTyped mems ((ty :: rest).take (moveSteps + 1))
            (getLocal (localIdx, .vals ((ty :: rest).take (moveSteps + 1)))) w :=
          getLocal_typed at' rfl filled
        have both := here.append gets
        rw [List.take_append_drop] at both
        exact both

theorem blockExprs_yields (types : List ValTy) (s : GenState) :
    Yields mems (blockExprs sub (.vals types)) s (BlockCode mems (.vals types)) := by
  apply Yields.ite
  · intro some_
    apply Yields.bind (subBlocks_yields codes _ types (Nat.le_refl _) s)
    rintro ⟨exprs, tmpLocals⟩ t _ _ ⟨sets, gets⟩
    have filled : types ≠ [] := List.ne_nil_of_length_pos some_
    refine .pure ⟨by simp, ?_, ?_⟩
    · rw [List.dropLast_concat]
      exact sets
    · intro e member
      rw [List.getLast?_concat] at member
      cases member
      exact tupleOf_typed filled gets
  · intro nothing
    have empty : types = [] := List.length_eq_zero_iff.mp (Nat.lt_one_iff.mp (Nat.not_le.mp nothing))
    rw [empty]
    apply Yields.bind (oneConstructor_yields codes [] s)
    intro expr t _ _ typed
    refine .pure ⟨nofun, nofun, ?_⟩
    rintro e ⟨⟩
    exact typed

end TopLevel

theorem topLevel_yields (depth : Nat) (types : List ValTy) (s : GenState) :
    Yields mems (wasmGenerateInstrSeqsTopLevel depth (.vals types)) s (Typed mems (.vals types)) := by
  induction depth generalizing types s with
  | zero =>
    exact (baseCase_yields 3 (types.map ValTy.top) (.inl (by decide)) s).mono
      fun _ _ _ typed => typed.of_top
  | succ depth ih =>
    apply Yields.bind (freshName_yields s)
    rintro topLabel t _ _ ⟨used, apart⟩
    have value : Ty.vals (types.map ValTy.top) ≠ .unreachable := nofun
    apply Yields.bind (withLabel_yields value used (blockExprs_yields ih _ _))
    intro exprs u _ grown code
    exact .pure (block_typed (grown.labels ▸ apart) code).of_top

/-! ## Calls from outside -/

/-- What a caller of the generators provides: a 32-bit memory or none, locals under their own
positions, and labels that are not made up a second time. Names are unambiguous, and those that
the generators give next are free. -/
structure Callable (s : GenState) : Prop where
  names : NamesReady s.mod
  sole : s.mod.memories.length ≤ 1
  memory32 : ∀ mem ∈ s.mod.memories, mem.is64 = false
  copyable : s.mod.memories = [] → (copySegments s.mod).isSome
  indexed : Indexed s.localCxt
  locals : ∀ el ∈ s.localCxt, el.localType ≠ .unreachable
  labels : ∀ el ∈ s.labelCxt, el.labelType ≠ .unreachable ∧
    ∀ n, el.labelName = fuzzName n → el.labelName ∈ s.names.usedNames

/-- The scope of generated code: what the final state declares, and the labels of the caller. The
memory is known under the name it had and under the one it gets. -/
structure Serves (s t : GenState) (S : Scope) : Prop where
  functions : S.sig.functions = t.mod.signature.functions
  globals : S.sig.globals = t.mod.signature.globals
  tables : S.sig.tables = t.mod.signature.tables
  memories : ∀ name ∈ ["0", memoryName s.mod], S.sig.memories name = some false
  locals : S.locals = t.localCxt.map (·.localType)
  labels : ∀ el ∈ s.labelCxt, S.label? el.labelName = some el.labelType

/-- Code that leaves the values asked for, in contexts that are the caller's but for new locals
at the end. -/
structure Generated (types : List ValTy) (s : GenState) (e : Expr) (t : GenState) : Prop where
  present : e.isNull = false
  fits : Fits e.top? (.vals types)
  localCxt : s.localCxt <+: t.localCxt ∧ Indexed t.localCxt
  labelCxt : t.labelCxt = s.labelCxt
  valid : ∀ S : Scope, Serves s t S → Valid S e

theorem Callable.ready {s : GenState} (callable : Callable s) :
    Ready ["0", memoryName s.mod] s where
  names := callable.names
  memory := by
    refine ⟨callable.sole, ?_, fun _ => List.mem_cons_self, callable.copyable⟩
    intro mem member
    refine ⟨?_, callable.memory32 mem member⟩
    have sole := callable.sole
    match memories : s.mod.memories with
    | [only] =>
      rw [memories] at member
      rw [List.mem_singleton.mp member]
      simp [memoryName, soleMemory, memories]
    | [] =>
      rw [memories] at member
      cases member
    | _ :: _ :: _ =>
      rw [memories] at sole
      simp at sole
  locals := callable.locals
  labels := callable.labels

theorem Serves.covers {s t : GenState} {S : Scope} (serves : Serves s t S)
    (indexed : Indexed t.localCxt) (labels : t.labelCxt = s.labelCxt) :
    Covers ["0", memoryName s.mod] S t where
  sig := ⟨fun known => serves.functions ▸ known, fun known => serves.globals ▸ known,
    fun known => serves.tables ▸ known, fun _ => serves.memories⟩
  locals := by
    intro el member
    obtain ⟨i, found⟩ := List.mem_iff_getElem?.mp member
    refine ⟨el.localType, ?_, rfl⟩
    rw [indexed i el found, serves.locals, List.getElem?_map, found]
    rfl
  labels := fun el member => ⟨el.labelType, serves.labels el (labels ▸ member), rfl⟩

private theorem generated_of_yields {s : GenState} (callable : Callable s) {types : List ValTy}
    {x : Gen Expr}
    (yields : Yields ["0", memoryName s.mod] x s (Typed ["0", memoryName s.mod] (.vals types)))
    (grows : Keeps (fun s t => Grows s.localCxt t.localCxt) (fun _ _ _ => True) x) :
    Ends x s (Generated types s) fun e _ => e = .endless := by
  apply ((yields.keeps grows) callable.ready).mono
  · rintro e t ⟨_, grown, typed, locals⟩
    have indexed := locals.indexed callable.indexed
    exact ⟨typed.fits.present, typed.fits, ⟨grown.locals, indexed⟩, grown.labels,
      fun S serves => typed.valid S (serves.covers indexed grown.labels)⟩
  · exact fun _ _ endless => endless

private theorem grows_anyStop {x : Gen Expr} (generates : Generates x) :
    Keeps (fun s t => Grows s.localCxt t.localCxt) (fun _ _ _ => True) x := by
  intro s
  exact (generates _ _ growsRule s).mono (fun _ _ grows => grows) fun _ _ _ => trivial

/-- Whatever is asked for, and at any depth, the generators give well-typed code for it, unless
the drawing of a mutable global goes on forever. The base case wants a depth above zero for more
than one value. -/
theorem generated_wellTyped {s : GenState} (callable : Callable s) (types : List ValTy)
    (depth : Nat) :
    Ends (wasmGenerateInstrSeqsTopLevel depth (.vals types)) s (Generated types s)
        (fun e _ => e = .endless) ∧
      (0 < depth ∨ types.length ≤ 1 →
        Ends (wasmGenerateInstrSeqsBaseCase depth (.vals types)) s (Generated types s)
          fun e _ => e = .endless) := by
  constructor
  · exact generated_of_yields callable (topLevel_yields depth types s)
      (grows_anyStop (GenCall.topLevel (.vals types) depth).generates)
  · intro enough
    exact generated_of_yields callable (baseCase_yields depth types enough s)
      (grows_anyStop (GenCall.baseCase (.vals types) depth).generates)

/-- A call from a function with one parameter and one block, in a module with one function and
one global. The first random numbers are given, all further ones are zero. -/
def seedState (draws : List Nat) : GenState where
  mod := loneCaller.mod
  names := wasmInitNameGrp
  rand := ⟨fun n => draws.getD n 0, 0⟩
  patience := 10
  localCxt := [⟨true, Ty.i32, 0⟩]
  labelCxt := [⟨"out", Ty.i32⟩]

/-- The same call in a module that differs. -/
def seedState.within (draws : List Nat) (change : Module → Module) : GenState :=
  { seedState draws with mod := change loneCaller.mod }

section
-- without this the statement is checked by running the generators
attribute [local irreducible] wasmGenerateInstrSeqsTopLevel wasmGenerateInstrSeqsBaseCase

theorem generated_wellTyped_seedState :
    Callable (seedState []) ∧
    Ends (wasmGenerateInstrSeqsTopLevel 2 (.vals [.i32, .funcref])) (seedState [])
        (Generated [.i32, .funcref] (seedState [])) (fun e _ => e = .endless) ∧
      (0 < 2 ∨ [ValTy.i32, .funcref].length ≤ 1 →
        Ends (wasmGenerateInstrSeqsBaseCase 2 (.vals [.i32, .funcref])) (seedState [])
          (Generated [.i32, .funcref] (seedState [])) fun e _ => e = .endless) := by
  have zero : NumeralsBelow ["0"] := by
    intro n member
    have equal : toString n = toString 0 := List.mem_singleton.mp member
    cases toString_nat_injective equal
    decide
  have callable : Callable (seedState []) := by
    refine ⟨⟨nofun, by decide, by decide, by decide, zero, fun _ => nofun, ?_⟩, by decide, nofun,
      fun _ => rfl, ?_, ?_, ?_⟩
    · intro g member
      cases List.mem_singleton.mp member
      nofun
    · intro i el found
      match i with
      | 0 =>
        cases found
        rfl
    · intro el member
      cases List.mem_singleton.mp member
      nofun
    · intro el member
      cases List.mem_singleton.mp member
      refine ⟨nofun, fun n equal => ?_⟩
      have listed := congrArg String.toList equal
      simp [fuzzName] at listed
  exact ⟨callable, generated_wellTyped callable _ 2⟩

end

/-- At depth zero the base case has nothing for two values. Without a function, with data
segments but no memory to copy them into, or with the next table or global name in use, the
process ends. And no draw need hit a mutable global. -/
theorem generators_give_up :
    (∃ t, wasmGenerateInstrSeqsBaseCase 0 (.vals [.i32, .i32]) (seedState []) = .ok .null t) ∧
    stop? (wasmGenerateInstrSeqsBaseCase 0 (.vals [.funcref]))
      (seedState.within [0, 1] fun m => { m with functions := [] }) = some .fatal ∧
    stop? (wasmGenerateInstrSeqsBaseCase 0 (.vals [.i32]))
      (seedState.within [0, 2] fun m => { m with segments := [⟨"data", true, none, []⟩] }) =
        some .fatal ∧
    stop? (wasmGenerateInstrSeqsBaseCase 1 (.vals []))
      (seedState.within [1, 0] fun m => { m with tables := [⟨"1", 0, none, .externref⟩] }) =
        some .nameInUse ∧
    stop? (wasmGenerateInstrSeqsBaseCase 1 (.vals []))
      (seedState.within [1, 1, 1] fun m => { m with globals := [⟨"1", Ty.i32, false, .null⟩] }) =
        some .nameInUse ∧
    stop? (wasmGenerateInstrSeqsBaseCase 1 (.vals []))
      (seedState.within [1, 1, 1, 0, 0, 1] fun m =>
        { m with globals := [⟨"0", Ty.i32, false, .null⟩, ⟨"1", Ty.i32, true, .null⟩] }) =
        some .endless := by
  refine ⟨⟨_, rfl⟩, ?_, ?_, ?_, ?_, ?_⟩ <;> decide +kernel

end Swam
