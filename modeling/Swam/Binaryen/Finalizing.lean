import Mathlib.Data.List.Forall2
import Mathlib.Data.List.Nodup
import Swam.Binaryen.Validity

/-!
# Types that blocks get from their contents

`BinaryenExpressionFinalize` gives a block the type of what its last child and the branches to
it leave behind. A block declared with a value type may lose it, for it may turn out that it
never completes. Such a loss is harmless wherever the block stands, and this is the order
that `Refines` and `Better` say.
-/
namespace Swam.Binaryen

/-! ## What branches send -/

/-- The values a node sends to a label, given the types of its children. -/
def Kind.sends (label : String) : Kind → List (Option Ty) → List (Option Ty)
  | .break_ target, value :: _ => if target = label then [value] else []
  | .switch targets fallback, value :: _ => if label ∈ fallback :: targets then [value] else []
  | _, _ => []

namespace Expr

def ownSends (label : String) : Expr → List (Option Ty)
  | .null => []
  | .node k cs => k.sends label (cs.map ty?)

/-- Types of the values that branches in an expression send to a label, `none` for a branch
without a value. -/
def sends (label : String) (e : Expr) : List (Option Ty) := e.nodes.flatMap (ownSends label)

/-- The same up to refinement. -/
def sentTops (label : String) (e : Expr) : List (Option Ty) :=
  (e.sends label).map (Option.map Ty.top)

end Expr

theorem Kind.sends_map (label : String) (k : Kind) (ts : List (Option Ty)) :
    (k.sends label ts).map (Option.map Ty.top) = k.sends label (ts.map (Option.map Ty.top)) := by
  cases k with
  | break_ target =>
    cases ts with
    | nil => rfl
    | cons value _ =>
      simp only [Kind.sends, List.map_cons]
      split <;> rfl
  | switch targets fallback =>
    cases ts with
    | nil => rfl
    | cons value _ =>
      simp only [Kind.sends, List.map_cons]
      split <;> rfl
  | _ => rfl

@[simp] theorem Expr.sentTops_null (label : String) : Expr.sentTops label .null = [] := rfl

theorem Expr.sentTops_node (label : String) (k : Kind) (cs : List Expr) :
    Expr.sentTops label (.node k cs) =
      k.sends label (cs.map Expr.top?) ++ cs.flatMap (Expr.sentTops label) := by
  have listed : Expr.sends label (.node k cs) =
      k.sends label (cs.map Expr.ty?) ++ cs.flatMap (Expr.sends label) := by
    simp only [sends, nodes_node, List.flatMap_cons, List.flatMap_assoc]
    rfl
  rw [sentTops, listed, List.map_append, Kind.sends_map, List.map_map, List.map_flatMap]
  rfl

/-- The label of a block, if it has one, with the values sent to it from its children. -/
def sentTo (name : Option String) (cs : List Expr) : List (Option Ty) :=
  name.elim [] fun label => cs.flatMap (Expr.sends label)

/-- The type of a block from its contents: what its last child and the branches to it have in
common. Where nothing branches to it and no value flows out, one child that never completes is
enough. -/
def blockTy (name : Option String) (cs : List Expr) : Ty :=
  match cs.getLast? with
  | none => Ty.none
  | some last =>
    let sent := (sentTo name cs).map (·.getD Ty.none)
    if sent ≠ [] then sent.foldl Ty.lub last.ty
    else if last.ty = Ty.none ∧ cs.any (·.ty = .unreachable) then .unreachable
    else last.ty

/-- A block said never to complete is found not to. Binaryen's validator rejects one whose
contents say otherwise. -/
def Expr.Settled (e : Expr) : Prop :=
  ∀ name cs, .node (.block name .unreachable) cs ∈ e.nodes → blockTy name cs = .unreachable

theorem Expr.Settled.child {k : Kind} {cs : List Expr} {c : Expr}
    (settled : Expr.Settled (.node k cs)) (member : c ∈ cs) : c.Settled :=
  fun name ds inside => settled name ds (Expr.mem_nodes_child member inside)

theorem Expr.settled_node_iff {k : Kind} {cs : List Expr} :
    Expr.Settled (.node k cs) ↔
      (∀ name, k = .block name .unreachable → blockTy name cs = .unreachable) ∧
        ∀ c ∈ cs, c.Settled := by
  constructor
  · intro settled
    refine ⟨?_, fun c member => settled.child member⟩
    rintro name rfl
    exact settled name cs (Expr.mem_nodes_self _ _)
  · rintro ⟨own, children⟩ name ds member
    rw [Expr.nodes_node, List.mem_cons, List.mem_flatMap] at member
    rcases member with same | ⟨c, child, inside⟩
    · obtain ⟨rfl, rfl⟩ := Expr.node.inj same
      exact own name rfl
    · exact children c child name ds inside

/-! ## Least upper bounds -/

theorem Ty.lub_eq_unreachable {s t : Ty} :
    s.lub t = .unreachable ↔ s = .unreachable ∧ t = .unreachable := by
  cases s with
  | unreachable => simp [Ty.lub]
  | vals ss =>
    cases t with
    | unreachable => simp [Ty.lub]
    | vals ts =>
      simp only [Ty.lub]
      split <;> simp [Ty.none]

theorem foldl_lub_eq_unreachable {ts : List Ty} {t : Ty} :
    ts.foldl Ty.lub t = .unreachable ↔ t = .unreachable ∧ ∀ u ∈ ts, u = .unreachable := by
  induction ts generalizing t with
  | nil => simp
  | cons u ts ih =>
    rw [List.foldl_cons, ih, Ty.lub_eq_unreachable, List.forall_mem_cons, and_assoc]

/-- Of a type or never completing. -/
def OrStuck (want t : Ty) : Prop := t = .unreachable ∨ t.top = want.top

theorem OrStuck.lub {want s t : Ty} (hs : OrStuck want s) (ht : OrStuck want t) :
    OrStuck want (s.lub t) := by
  rcases hs with rfl | hs
  · exact ht
  · rcases ht with rfl | ht
    · refine .inr ?_
      rw [← hs]
      cases s <;> rfl
    · exact .inr ((Ty.lub_top (hs.trans ht.symm)).trans hs)

theorem OrStuck.foldl {want t : Ty} {ts : List Ty} (ht : OrStuck want t)
    (hts : ∀ u ∈ ts, OrStuck want u) : OrStuck want (ts.foldl Ty.lub t) := by
  induction ts generalizing t with
  | nil => exact ht
  | cons u ts ih =>
    have ⟨head, tail⟩ := List.forall_mem_cons.mp hts
    exact ih (ht.lub head) tail

/-! ## Refined operands -/

/-- The same type, or no completion in its place. -/
def Refines (t t' : Option Ty) : Prop := t' = t ∨ (t.isSome ∧ t' = some .unreachable)

theorem Refines.refl (t : Option Ty) : Refines t t := .inl rfl

theorem Refines.trans {t u v : Option Ty} (first : Refines t u) (second : Refines u v) :
    Refines t v := by
  rcases second with rfl | ⟨present, rfl⟩
  · exact first
  · rcases first with rfl | ⟨there, _⟩
    · exact .inr ⟨present, rfl⟩
    · exact .inr ⟨there, rfl⟩

theorem Refines.unreachable {t : Option Ty} (refines : Refines (some .unreachable) t) :
    t = some .unreachable := by
  rcases refines with rfl | ⟨_, rfl⟩ <;> rfl

theorem Refines.none_iff {t t' : Option Ty} (refines : Refines t t') : t' = none ↔ t = none := by
  rcases refines with rfl | ⟨present, rfl⟩
  · rfl
  · cases t <;> simp_all

theorem Fits.refines {t t' : Option Ty} {want : Ty} (fits : Fits t want) (refines : Refines t t') :
    Fits t' want := by
  rcases refines with rfl | ⟨_, rfl⟩
  · exact fits
  · exact .inl rfl

theorem Carries.refines {t t' : Option Ty} {want : Ty} (carries : Carries t want)
    (refines : Refines t t') : Carries t' want := by
  rcases refines with rfl | ⟨_, rfl⟩
  · exact carries
  · exact .inr ⟨by decide, .inl rfl⟩

abbrev RefinesAll (ts us : List (Option Ty)) : Prop := List.Forall₂ Refines ts us

theorem RefinesAll.refl (ts : List (Option Ty)) : RefinesAll ts ts :=
  List.forall₂_same.mpr fun t _ => .refl t

theorem RefinesAll.trans {ts us vs : List (Option Ty)} (first : RefinesAll ts us)
    (second : RefinesAll us vs) : RefinesAll ts vs := by
  induction first generalizing vs with
  | nil => exact second
  | cons head _ ih =>
    cases second with
    | cons head' tail' => exact .cons (head.trans head') (ih tail')

theorem RefinesAll.mem_unreachable {ts us : List (Option Ty)} (refines : RefinesAll ts us)
    (member : some Ty.unreachable ∈ ts) : some Ty.unreachable ∈ us := by
  induction refines with
  | nil => cases member
  | cons head _ ih =>
    rcases List.mem_cons.mp member with rfl | member
    · rw [head.unreachable]
      exact List.mem_cons_self
    · exact List.mem_cons_of_mem _ (ih member)

/-- What every operand satisfies, every refined operand does. -/
theorem RefinesAll.forall {ts us : List (Option Ty)} {P : Option Ty → Prop}
    (kept : ∀ {t t'}, P t → Refines t t' → P t') (refines : RefinesAll ts us)
    (each : ∀ t ∈ ts, P t) : ∀ t ∈ us, P t := by
  induction refines with
  | nil => exact each
  | cons head _ ih =>
    have ⟨first, rest⟩ := List.forall_mem_cons.mp each
    exact List.forall_mem_cons.mpr ⟨kept first head, ih rest⟩

theorem RefinesAll.dropLast {ts us : List (Option Ty)} (refines : RefinesAll ts us) :
    RefinesAll ts.dropLast us.dropLast := by
  induction refines with
  | nil => exact .nil
  | cons head tail ih =>
    cases tail with
    | nil => exact .nil
    | cons second rest => exact .cons head ih

theorem RefinesAll.getLast? {ts us : List (Option Ty)} (refines : RefinesAll ts us) {u : Option Ty}
    (last : us.getLast? = some u) : ∃ t, ts.getLast? = some t ∧ Refines t u := by
  induction refines with
  | nil => cases last
  | cons head tail ih =>
    cases tail with
    | nil =>
      cases last
      exact ⟨_, rfl, head⟩
    | cons second rest =>
      rw [List.getLast?_cons_cons] at last ⊢
      exact ih last

/-- Either nothing changed or some operand never completes. -/
theorem RefinesAll.same_or_stuck {ts us : List (Option Ty)} (refines : RefinesAll ts us) :
    us = ts ∨ some Ty.unreachable ∈ us := by
  induction refines with
  | nil => exact .inl rfl
  | cons head _ ih =>
    rcases head with rfl | ⟨_, rfl⟩
    · rcases ih with rfl | stuck
      · exact .inl rfl
      · exact .inr (List.mem_cons_of_mem _ stuck)
    · exact .inr List.mem_cons_self

theorem anyUnreachable_iff {ts : List (Option Ty)} :
    anyUnreachable ts = true ↔ some Ty.unreachable ∈ ts := by
  simp [anyUnreachable]

theorem FitsAll.refines {ts us : List (Option Ty)} {wants : List Ty} (fits : FitsAll ts wants)
    (refines : RefinesAll ts us) : FitsAll us wants := by
  induction refines generalizing wants with
  | nil => exact fits
  | cons head _ ih =>
    cases fits with
    | cons first rest => exact .cons (first.refines head) (ih rest)

theorem Single.refines {t t' : Option Ty} (single : Single t) (refines : Refines t t') :
    Single t' :=
  single.imp fun _ fits => fits.refines refines

theorem BlockTyped.refines {ty : Ty} {ts us : List (Option Ty)} (typed : BlockTyped ty ts)
    (refines : RefinesAll ts us) : BlockTyped ty us := by
  obtain ⟨front, last, stuck, empty⟩ := typed
  refine ⟨refines.dropLast.forall Fits.refines front, ?_, fun same => ?_, fun same => ?_⟩
  · intro u member
    obtain ⟨t, here, kept⟩ := refines.getLast? member
    exact (last t here).refines kept
  · exact refines.mem_unreachable (stuck same)
  · subst same
    cases refines
    exact empty rfl

theorem ArmsTyped.refines {ifTrue ifFalse ifTrue' ifFalse' : Option Ty}
    (typed : ArmsTyped ifTrue ifFalse) (first : Refines ifTrue ifTrue')
    (second : Refines ifFalse ifFalse') : ArmsTyped ifTrue' ifFalse' := by
  cases ifFalse with
  | none =>
    rw [second.none_iff.mpr rfl]
    exact Fits.refines typed first
  | some f =>
    obtain ⟨t, rfl, agree⟩ := typed
    rcases first with rfl | ⟨_, rfl⟩ <;> rcases second with rfl | ⟨_, rfl⟩
    · exact ⟨t, rfl, agree⟩
    · exact ⟨t, rfl, .inr (.inl rfl)⟩
    · exact ⟨_, rfl, .inl rfl⟩
    · exact ⟨_, rfl, .inl rfl⟩

/-- Operands that no longer complete keep a node well typed. -/
theorem Kind.Typed.refines {S : Scope} {k : Kind} {ts us : List (Option Ty)}
    (typed : k.Typed S ts) (refines : RefinesAll ts us) : k.Typed S us := by
  cases k with
  | block name ty => exact BlockTyped.refines typed refines
  | if_ =>
    obtain ⟨cond, ifTrue, ifFalse, rfl, fits, arms⟩ := typed
    rcases refines with _ | ⟨first, _ | ⟨second, _ | ⟨third, ⟨⟩⟩⟩⟩
    exact ⟨_, _, _, rfl, fits.refines first, arms.refines second third⟩
  | loop name =>
    obtain ⟨t, rfl⟩ := typed
    rcases refines with _ | ⟨rfl | ⟨_, rfl⟩, ⟨⟩⟩
    · exact ⟨t, rfl⟩
    · exact ⟨_, rfl⟩
  | break_ target =>
    obtain ⟨value, cond, rfl, ⟨want, found, carries⟩, taken⟩ := typed
    rcases refines with _ | ⟨first, _ | ⟨second, ⟨⟩⟩⟩
    exact ⟨_, _, rfl, ⟨want, found, carries.refines first⟩,
      taken.imp second.none_iff.mpr (·.refines second)⟩
  | switch targets fallback =>
    obtain ⟨value, cond, rfl, each, taken⟩ := typed
    rcases refines with _ | ⟨first, _ | ⟨second, ⟨⟩⟩⟩
    refine ⟨_, _, rfl, fun target member => ?_, taken.refines second⟩
    obtain ⟨want, found, carries⟩ := each target member
    exact ⟨want, found, carries.refines first⟩
  | select ty =>
    obtain ⟨ifTrue, ifFalse, cond, rfl, left, right, fits, agree⟩ := typed
    have stuck := refines.same_or_stuck
    rcases refines with _ | ⟨first, _ | ⟨second, _ | ⟨third, ⟨⟩⟩⟩⟩
    refine ⟨_, _, _, rfl, left.refines first, right.refines second, fits.refines third, ?_⟩
    intro completes
    rcases stuck with same | stuck
    · cases same
      exact agree completes
    · rw [anyUnreachable_iff.mpr stuck] at completes
      cases completes
  | drop =>
    obtain ⟨t, rfl, value⟩ := typed
    rcases refines with _ | ⟨rfl | ⟨_, rfl⟩, ⟨⟩⟩
    · exact ⟨t, rfl, value⟩
    · exact ⟨_, rfl, by decide⟩
  | return_ =>
    obtain ⟨value, rfl, carries⟩ := typed
    rcases refines with _ | ⟨first, ⟨⟩⟩
    exact ⟨_, rfl, carries.refines first⟩
  | refIsNull =>
    obtain ⟨t, rfl, fits⟩ := typed
    rcases refines with _ | ⟨first, ⟨⟩⟩
    exact ⟨_, rfl, fits.imp (·.refines first) (·.refines first)⟩
  | tupleMake =>
    obtain ⟨count, each⟩ := typed
    exact ⟨refines.length_eq ▸ count, refines.forall Single.refines each⟩
  | tupleExtract index =>
    obtain ⟨t, rfl, inside⟩ := typed
    rcases refines with _ | ⟨rfl | ⟨_, rfl⟩, ⟨⟩⟩
    · exact ⟨t, rfl, inside⟩
    · exact ⟨_, rfl, .inl rfl⟩
  | try_ name ty tags delegate =>
    obtain ⟨lengths, fits, target⟩ := typed
    exact ⟨by rwa [← refines.length_eq], refines.forall Fits.refines fits, target⟩
  | throw tag =>
    refine refines.forall ?_ typed
    rintro t t' present (rfl | ⟨_, rfl⟩)
    · exact present
    · rfl
  | rethrow target =>
    obtain ⟨rfl, known⟩ := typed
    cases refines
    exact ⟨rfl, known⟩
  | pop ty =>
    cases typed
    cases refines
    rfl
  | other name ty => trivial
  | _ =>
    obtain ⟨wants, known, fits⟩ := typed
    exact ⟨wants, known, FitsAll.refines fits refines⟩

theorem Ty.lub_unreachable (t : Ty) : t.lub .unreachable = t := by
  cases t <;> rfl

private theorem arms_refine {a b a' b' : Option Ty} (typed : ArmsTyped a b) (first : Refines a a')
    (second : Refines b b') :
    Refines (some ((a.getD Ty.none).lub (b.getD Ty.none)).top)
      (some ((a'.getD Ty.none).lub (b'.getD Ty.none)).top) := by
  cases b with
  | none =>
    rw [second.none_iff.mpr rfl]
    -- without an else arm the type is none, whether or not the arm completes
    rcases typed with rfl | rfl <;> rcases first with rfl | ⟨_, rfl⟩ <;> exact .inl rfl
  | some f =>
    obtain ⟨t, rfl, agree⟩ := typed
    rcases first with rfl | ⟨_, rfl⟩ <;> rcases second with rfl | ⟨_, rfl⟩
    · exact .refl _
    · simp only [Option.getD_some, Ty.lub_unreachable]
      rcases agree with rfl | rfl | rfl
      · exact .inr ⟨rfl, rfl⟩
      · rw [Ty.lub_unreachable]
        exact .refl _
      · rw [Ty.lub_top rfl]
        exact .refl _
    · rcases agree with rfl | rfl | rfl
      · exact .refl _
      · exact .inr ⟨rfl, rfl⟩
      · rw [Option.getD_some, Ty.lub_top rfl]
        exact .refl _
    · exact .inr ⟨rfl, rfl⟩

private theorem if_top (cond ifTrue ifFalse : Option Ty) :
    (Kind.if_.ty [cond, ifTrue, ifFalse]).top =
      if ((ifTrue.getD Ty.none).lub (ifFalse.getD Ty.none)).top = Ty.none ∧
        cond = some .unreachable then .unreachable
      else ((ifTrue.getD Ty.none).lub (ifFalse.getD Ty.none)).top := by
  have absent (t : Ty) : t.top = Ty.none ↔ t = Ty.none := Ty.top_eq_none
  simp only [absent]
  exact apply_ite Ty.top _ _ _

/-- An instruction with an operand that never completes does not complete either, and the type of
a control flow construct moves along with those of its arms. -/
theorem Kind.Typed.ty_refines {S : Scope} {k : Kind} {ts us : List (Option Ty)}
    (typed : k.Typed S ts) (refines : RefinesAll ts us) :
    Refines (some (k.ty ts).top) (some (k.ty us).top) := by
  rcases refines.same_or_stuck with rfl | stuck
  · exact .refl _
  have strict (declared : Ty) : strictTy declared us = .unreachable := by
    rw [strictTy, if_pos (anyUnreachable_iff.mpr stuck)]
  cases k with
  | if_ =>
    obtain ⟨cond, ifTrue, ifFalse, rfl, -, arms⟩ := typed
    rcases refines with _ | ⟨first, _ | ⟨second, _ | ⟨third, ⟨⟩⟩⟩⟩
    rw [if_top, if_top]
    rcases arms_refine arms second third with same | ⟨_, lost⟩
    · rw [Option.some.inj same]
      rcases first with rfl | ⟨_, rfl⟩
      · exact .refl _
      · split
        next => exact .inr ⟨rfl, by simp_all⟩
        next =>
          by_cases absent : ((ifTrue.getD Ty.none).lub (ifFalse.getD Ty.none)).top = Ty.none
          · exact .inr ⟨rfl, by simp [absent]⟩
          · exact .inl (by simp [absent])
    · rw [Option.some.inj lost]
      exact .inr ⟨rfl, by simp [Ty.none]⟩
  | loop name =>
    obtain ⟨t, rfl⟩ := typed
    rcases refines with _ | ⟨rfl | ⟨_, rfl⟩, ⟨⟩⟩
    · exact .refl _
    · exact .inr ⟨rfl, rfl⟩
  | break_ target =>
    obtain ⟨value, cond, rfl, -, -⟩ := typed
    rcases refines with _ | ⟨first, _ | ⟨second, ⟨⟩⟩⟩
    cases cond with
    | none =>
      rw [second.none_iff.mpr rfl]
      exact .refl _
    | some c =>
      rcases second with rfl | ⟨_, rfl⟩ <;>
        exact .inr ⟨rfl, congrArg (some ∘ Ty.top) (strict _)⟩
  | _ =>
    first
    | exact .inl rfl
    | exact .inr ⟨rfl, congrArg (some ∘ Ty.top) (strict _)⟩

/-! ## Replacing a part of an expression -/

/-- An expression that can stand for another one wherever the scope is the given one. -/
structure Better (S : Scope) (e e' : Expr) : Prop where
  valid : Valid S e'
  settled : e'.Settled
  type : Refines e.top? e'.top?
  sends : ∀ label, RefinesAll (e.sentTops label) (e'.sentTops label)
  labels : e'.labels.Perm e.labels

theorem Better.refl {S : Scope} {e : Expr} (valid : Valid S e) (settled : e.Settled) :
    Better S e e :=
  ⟨valid, settled, .refl _, fun _ => .refl _, .refl _⟩

theorem Better.trans {S : Scope} {e f g : Expr} (first : Better S e f) (second : Better S f g) :
    Better S e g where
  valid := second.valid
  settled := second.settled
  type := first.type.trans second.type
  sends := fun label => (first.sends label).trans (second.sends label)
  labels := second.labels.trans first.labels

theorem Kind.sends_refines {label : String} {k : Kind} {ts us : List (Option Ty)}
    (refines : RefinesAll ts us) : RefinesAll (k.sends label ts) (k.sends label us) := by
  cases refines with
  | nil => cases k <;> exact .nil
  | cons head _ =>
    cases k <;> simp only [Kind.sends] <;>
      first
      | exact .nil
      | (split
         · exact .cons head .nil
         · exact .nil)

/-! ## Finalizing -/

/-- What is sent to a block, up to refinement. -/
def sentTopsTo (name : Option String) (cs : List Expr) : List (Option Ty) :=
  name.elim [] fun label => cs.flatMap (Expr.sentTops label)

theorem sentTo_tops (name : Option String) (cs : List Expr) :
    (sentTo name cs).map (Option.map Ty.top) = sentTopsTo name cs := by
  cases name with
  | none => rfl
  | some label => exact List.map_flatMap

private theorem getD_eq_unreachable {v : Option Ty} :
    v.getD Ty.none = .unreachable ↔ v.map Ty.top = some .unreachable := by
  cases v <;> simp [Ty.none]

private theorem ty_eq_unreachable {e : Expr} :
    e.ty = .unreachable ↔ e.top? = some .unreachable := getD_eq_unreachable

/-- A block is found never to complete when nothing its end and the branches to it give
completes, and when nothing branches to it, no value flows out and some child never completes. -/
theorem blockTy_eq_unreachable {name : Option String} {cs : List Expr} :
    blockTy name cs = .unreachable ↔ ∃ last, cs.getLast? = some last ∧
      ((last.top? = some .unreachable ∧ ∀ v ∈ sentTopsTo name cs, v = some .unreachable) ∨
        (last.ty = Ty.none ∧ sentTopsTo name cs = [] ∧
          some Ty.unreachable ∈ cs.map Expr.top?)) := by
  unfold blockTy
  cases cs.getLast? with
  | none => simp [Ty.none]
  | some last =>
    have stuck : cs.any (·.ty = .unreachable) = true ↔
        some Ty.unreachable ∈ cs.map Expr.top? := by
      simp [ty_eq_unreachable]
    simp only [Option.some.injEq, exists_eq_left', ← sentTo_tops, List.map_eq_nil_iff,
      List.forall_mem_map, ← ty_eq_unreachable, ← stuck, ne_eq]
    by_cases alone : sentTo name cs = []
    · by_cases flows : last.ty = Ty.none
      · by_cases inside : cs.any (·.ty = .unreachable) = true <;>
          simp [alone, flows, inside, Ty.none]
      · simp [alone, flows]
    · simp [alone, foldl_lub_eq_unreachable, getD_eq_unreachable]

/-- Where all that a block is given agrees on a type, the block has it or never completes. -/
theorem blockTy_orStuck {want : Ty} {name : Option String} {cs : List Expr} {last : Expr}
    (end_ : cs.getLast? = some last) (flow : OrStuck want last.ty)
    (sent : ∀ v ∈ sentTo name cs, OrStuck want (v.getD Ty.none)) :
    OrStuck want (blockTy name cs) := by
  unfold blockTy
  rw [end_]
  dsimp only
  split
  · exact flow.foldl (List.forall_mem_map.mpr sent)
  · split
    · exact .inl rfl
    · exact flow

/-- Better children cannot make a block complete. -/
theorem blockTy_refines {name : Option String} {cs ds : List Expr}
    (types : RefinesAll (cs.map Expr.top?) (ds.map Expr.top?))
    (sends : RefinesAll (sentTopsTo name cs) (sentTopsTo name ds))
    (stuck : blockTy name cs = .unreachable) : blockTy name ds = .unreachable := by
  obtain ⟨last, end_, cases_⟩ := blockTy_eq_unreachable.mp stuck
  obtain ⟨last', end_'⟩ : ∃ last', ds.getLast? = some last' := by
    refine Option.isSome_iff_exists.mp ?_
    have lengths := types.length_eq
    cases cs <;> cases ds <;> simp_all
  obtain ⟨_, same, kept⟩ := types.getLast? (u := last'.top?) (by rw [List.getLast?_map, end_']; rfl)
  rw [List.getLast?_map, end_] at same
  cases same
  refine blockTy_eq_unreachable.mpr ⟨last', end_', ?_⟩
  rcases cases_ with ⟨flow, sent⟩ | ⟨flow, alone, inside⟩
  · rw [flow] at kept
    refine .inl ⟨kept.unreachable, sends.forall ?_ sent⟩
    rintro t t' rfl refines
    exact refines.unreachable
  · rw [alone] at sends
    have alone' := List.forall₂_nil_left_iff.mp sends
    rcases kept with same | ⟨_, lost⟩
    · refine .inr ⟨?_, alone', types.mem_unreachable inside⟩
      have absent (e : Expr) : e.ty = Ty.none ↔ e.top? = none ∨ e.top? = some Ty.none := by
        rw [Expr.ty, Expr.top?]
        cases e.ty? <;> simp [Ty.none]
      rw [absent, same, ← absent]
      exact flow
    · exact .inl ⟨lost, by simp [alone']⟩

/-- Expressions that can stand for the children of a node can do so in it. -/
theorem Better.node {S : Scope} {k : Kind} {cs ds : List Expr} (valid : Valid S (.node k cs))
    (settled : Expr.Settled (.node k cs)) (children : List.Forall₂ (Better (S.enter k)) cs ds) :
    Better S (.node k cs) (.node k ds) := by
  obtain ⟨typed, -⟩ := valid_node_iff.mp valid
  obtain ⟨own, -⟩ := Expr.settled_node_iff.mp settled
  have types : RefinesAll (cs.map Expr.top?) (ds.map Expr.top?) := by
    rw [RefinesAll, List.forall₂_map_left_iff, List.forall₂_map_right_iff]
    exact children.imp fun _ _ better => better.type
  have sends (label : String) :
      RefinesAll (cs.flatMap (Expr.sentTops label)) (ds.flatMap (Expr.sentTops label)) := by
    clear valid settled typed own types
    induction children with
    | nil => exact .nil
    | cons head _ ih => exact List.rel_append (head.sends label) ih
  have each : ∀ d ∈ ds, Valid (S.enter k) d ∧ d.Settled := by
    clear valid settled typed own types sends
    induction children with
    | nil => simp
    | cons head _ ih => exact List.forall_mem_cons.mpr ⟨⟨head.valid, head.settled⟩, ih⟩
  refine ⟨?_, ?_, ?_, fun label => ?_, ?_⟩
  · exact .node (typed.refines types) fun d member => (each d member).1
  · refine Expr.settled_node_iff.mpr ⟨?_, fun d member => (each d member).2⟩
    rintro name rfl
    refine blockTy_refines types ?_ (own name rfl)
    cases name with
    | none => exact .nil
    | some label => exact sends label
  · have tops (cs : List Expr) : Expr.top? (.node k cs) = some (k.ty (cs.map Expr.top?)).top := by
      rw [Expr.top?_node, Kind.ty_congr k]
      simp only [List.map_map, Function.comp_def, Expr.top?, Option.map_map, Ty.top_top]
    rw [tops, tops]
    exact typed.ty_refines types
  · rw [Expr.sentTops_node, Expr.sentTops_node]
    exact List.rel_append (Kind.sends_refines types) (sends label)
  · rw [Expr.labels_node, Expr.labels_node]
    refine List.Perm.append_left _ ?_
    clear valid settled typed own types sends each
    induction children with
    | nil => exact .refl _
    | cons head _ ih =>
      rw [List.flatMap_cons, List.flatMap_cons]
      exact head.labels.append ih

/-- Induction along the path: what is better in place is better for the whole. -/
theorem Better.modifyAt {P : Scope → Prop} (enter : ∀ {S k}, P S → P (S.enter k)) {x : Expr}
    {f : Expr → Expr}
    (here : ∀ {S}, P S → Valid S x → x.Settled → x.labels.Nodup → Better S x (f x))
    {S : Scope} (scope : P S) {e : Expr} (valid : Valid S e) (settled : e.Settled)
    (distinct : e.labels.Nodup) {path : List Nat} (at_ : e.at? path = some x) :
    Better S e (e.modifyAt path f) := by
  induction path generalizing S e with
  | nil =>
    cases at_
    exact here scope valid settled distinct
  | cons i path ih =>
    cases e with
    | null => cases at_
    | node k cs =>
      simp only [Expr.at?, Option.bind_eq_some_iff] at at_
      obtain ⟨c, child, below⟩ := at_
      have inside := (valid_node_iff.mp valid).2
      rw [Expr.labels_node] at distinct
      refine Better.node valid settled (List.forall₂_iff_get.mpr ⟨by simp, ?_⟩)
      intro n bound _
      have member : cs.get ⟨n, bound⟩ ∈ cs := List.get_mem _ _
      have own := (List.nodup_flatMap.mp distinct.of_append_right).1 _ member
      simp only [List.get_eq_getElem, List.getElem_modify] at member own ⊢
      split
      next same =>
        subst same
        obtain ⟨_, equal⟩ := List.getElem?_eq_some_iff.mp child
        exact ih (enter scope) (inside _ member) (settled.child member) own (equal ▸ below)
      · exact .refl (inside _ member) (settled.child member)

/-! ## Another type for a label -/

theorem Carries.congr {v : Option Ty} {want want' : Ty} (carries : Carries v want)
    (top : want'.top = want.top) : Carries v want' := by
  rcases carries with ⟨absent, rfl⟩ | ⟨value, fits⟩
  · exact .inl ⟨absent, Ty.top_eq_none.mp top⟩
  · exact .inr ⟨value, by rwa [Fits, top]⟩

theorem Fits.orStuck {v : Option Ty} {want : Ty} (fits : Fits (v.map Ty.top) want) :
    OrStuck want (v.getD Ty.none) := by
  cases v with
  | none => rcases fits with absent | absent <;> cases absent
  | some t =>
    rcases fits with stuck | same
    · exact .inl (Ty.top_eq_unreachable.mp (Option.some.inj stuck))
    · exact .inr (Option.some.inj same)

theorem Carries.orStuck {v : Option Ty} {want : Ty} (carries : Carries (v.map Ty.top) want) :
    OrStuck want (v.getD Ty.none) := by
  rcases carries with ⟨absent, rfl⟩ | ⟨-, fits⟩
  · rw [Option.map_eq_none_iff.mp absent]
    exact .inr rfl
  · exact fits.orStuck

/-- What is sent to a label in scope is what it carries. -/
theorem Valid.sends {S : Scope} {e : Expr} (valid : Valid S e) {label : String} {want : Ty}
    (known : S.label? label = some want) (apart : label ∉ e.labels) {v : Option Ty}
    (member : v ∈ e.sentTops label) : Carries v want := by
  induction e generalizing S with
  | null => cases member
  | node k cs ih =>
    obtain ⟨typed, children⟩ := valid_node_iff.mp valid
    rw [Expr.labels_node, List.mem_append, List.mem_flatMap, not_or] at apart
    rw [Expr.sentTops_node, List.mem_append, List.mem_flatMap] at member
    rcases member with own | ⟨c, child, inside⟩
    · cases k with
      | break_ target =>
        obtain ⟨value, cond, equal, ⟨want', found, carries⟩, -⟩ := typed
        rw [equal, Kind.sends] at own
        split at own
        next same =>
          subst same
          rw [known] at found
          cases found
          exact List.mem_singleton.mp own ▸ carries
        next => cases own
      | switch targets fallback =>
        obtain ⟨value, cond, equal, each, -⟩ := typed
        rw [equal, Kind.sends] at own
        split at own
        next named =>
          obtain ⟨want', found, carries⟩ := each label named
          rw [known] at found
          cases found
          exact List.mem_singleton.mp own ▸ carries
        next => cases own
      | _ => cases own
    · refine ih c child (children c child) ?_ (fun bound => apart.2 ⟨c, child, bound⟩) inside
      rw [Scope.label?_enter]
      cases bound : k.bound.lookup label with
      | some ty => exact absurd (mem_labels_of_bound bound) apart.1
      | none => exact known

/-- A label is looked up as before, unless it is the one with the new type. -/
private theorem lookup_relabel {inner outer : List (String × Ty)} {label name : String}
    {ty ty' want : Ty} (found : (inner ++ (label, ty) :: outer).lookup name = some want) :
    (inner ++ (label, ty') :: outer).lookup name = some want ∨
      (name = label ∧ want = ty ∧ (inner ++ (label, ty') :: outer).lookup name = some ty') := by
  induction inner with
  | nil =>
    by_cases same : name = label
    · subst same
      refine .inr ⟨rfl, ?_, List.lookup_cons_self⟩
      rw [List.nil_append, List.lookup_cons_self] at found
      exact (Option.some.inj found).symm
    · have apart : (name == label) = false := by simpa using same
      simp only [List.nil_append, List.lookup_cons, apart] at found ⊢
      exact .inl found
  | cons entry inner ih =>
    obtain ⟨first, t⟩ := entry
    simp only [List.cons_append, List.lookup_cons] at found ⊢
    cases hit : name == first with
    | true => exact .inl (by simpa only [hit] using found)
    | false => exact ih (by simpa only [hit] using found)

/-- A label may be given a type that all values sent to it fit. -/
theorem Valid.relabel {S : Scope} {e : Expr} (valid : Valid S e) {label : String} {ty ty' : Ty}
    {inner outer : List (String × Ty)} (listed : S.labels = inner ++ (label, ty) :: outer)
    (carries : ∀ v ∈ e.sentTops label, Carries v ty → Carries v ty') :
    Valid { S with labels := inner ++ (label, ty') :: outer } e := by
  induction e generalizing S inner with
  | null => exact .null
  | node k cs ih =>
    obtain ⟨typed, children⟩ := valid_node_iff.mp valid
    rw [Expr.sentTops_node, List.forall_mem_append, List.forall_mem_flatMap] at carries
    obtain ⟨own, below⟩ := carries
    -- a target is looked up as before, unless it is the label itself
    have target {name : String} {want : Ty} (found : S.label? name = some want) :=
      @lookup_relabel inner outer label name ty ty' want (by rwa [← listed])
    refine .node ?_ fun c member => ?_
    · cases k with
      | break_ name =>
        obtain ⟨value, cond, equal, ⟨want, found, sent⟩, taken⟩ := typed
        refine ⟨value, cond, equal, ?_, taken⟩
        rcases target found with found' | ⟨rfl, rfl, found'⟩
        · exact ⟨want, found', sent⟩
        · refine ⟨ty', found', own value ?_ sent⟩
          rw [equal, Kind.sends, if_pos rfl]
          exact List.mem_singleton_self _
      | switch names fallback =>
        obtain ⟨value, cond, equal, each, taken⟩ := typed
        refine ⟨value, cond, equal, fun name named => ?_, taken⟩
        obtain ⟨want, found, sent⟩ := each name named
        rcases target found with found' | ⟨rfl, rfl, found'⟩
        · exact ⟨want, found', sent⟩
        · refine ⟨ty', found', own value ?_ sent⟩
          rw [equal, Kind.sends, if_pos named]
          exact List.mem_singleton_self _
      | _ => exact typed
    · have entered : (S.enter k).labels = (k.bound ++ inner) ++ (label, ty) :: outer := by
        rw [Scope.enter, listed, List.append_assoc]
      have := ih c member (children c member) entered (below c member)
      rwa [List.append_assoc] at this

theorem BlockTyped.congr {ty ty' : Ty} {ts : List (Option Ty)} (typed : BlockTyped ty ts)
    (completes : ty ≠ .unreachable) (top : ty'.top = ty.top) : BlockTyped ty' ts := by
  obtain ⟨front, end_, -, empty⟩ := typed
  have completes' : ty' ≠ .unreachable := by
    rwa [ne_eq, ← Ty.top_eq_unreachable, top, Ty.top_eq_unreachable]
  rw [if_neg completes] at end_
  refine ⟨front, fun t member => ?_, fun lost => absurd lost completes', fun none => ?_⟩
  · rw [if_neg completes', Fits, top]
    exact end_ t member
  · rw [empty none] at top
    exact Ty.top_eq_none.mp top

/-- A block found never to complete is well typed as one. -/
theorem BlockTyped.lose {ty : Ty} {name : Option String} {cs : List Expr}
    (typed : BlockTyped ty (cs.map Expr.top?)) (lost : blockTy name cs = .unreachable) :
    BlockTyped .unreachable (cs.map Expr.top?) := by
  obtain ⟨last, last_, cause⟩ := blockTy_eq_unreachable.mp lost
  have member : last.top? ∈ cs.map Expr.top? := List.mem_map_of_mem (List.mem_of_getLast? last_)
  refine ⟨typed.1, fun t end_ => ?_, fun _ => ?_, fun empty => ?_⟩
  · rw [List.getLast?_map, last_] at end_
    cases end_
    rw [if_pos rfl]
    rcases cause with ⟨flow, -⟩ | ⟨flow, -, -⟩
    · exact .inl flow
    · have present := typed.2.1 last.top? (by rw [List.getLast?_map, last_]; rfl)
      cases given : last.ty? with
      | none => rcases present with absent | absent <;> simp [Expr.top?, given] at absent
      | some t =>
        rw [Expr.ty, given, Option.getD_some] at flow
        exact .inr (by rw [Expr.top?, given, flow]; rfl)
  · rcases cause with ⟨flow, -⟩ | ⟨-, -, inside⟩
    · exact flow ▸ member
    · exact inside
  · rw [empty] at member
    cases member

/-- A block may be finalized where it stands. -/
theorem Valid.finalize {S : Scope} {name : Option String} {ty : Ty} {cs : List Expr}
    (valid : Valid S (.node (.block name ty) cs)) (settled : Expr.Settled (.node (.block name ty) cs))
    (distinct : (Expr.labels (.node (.block name ty) cs)).Nodup) :
    Better S (.node (.block name ty) cs) (.node (.block name (blockTy name cs)) cs) := by
  obtain ⟨typed, children⟩ := valid_node_iff.mp valid
  obtain ⟨own, each⟩ := Expr.settled_node_iff.mp settled
  by_cases same : blockTy name cs = ty
  · rw [same]
    exact .refl valid settled
  have completes : ty ≠ .unreachable := by
    rintro rfl
    exact same (own name rfl)
  obtain ⟨last, last_⟩ : ∃ last, cs.getLast? = some last := by
    cases cs with
    | nil => exact absurd (typed.2.2.2 rfl).symm same
    | cons c cs => exact ⟨_, List.getLast?_cons⟩
  have end_ := typed.2.1
  rw [if_neg completes] at end_
  -- everything that reaches the block is of its type or never completes
  have sent : ∀ v ∈ sentTopsTo name cs, Carries v ty := by
    cases name with
    | none => simp [sentTopsTo]
    | some label =>
      intro v member
      obtain ⟨c, child, inside⟩ := List.mem_flatMap.mp member
      refine (children c child).sends ?_ (fun bound => ?_) inside
      · rw [Scope.label?_enter]
        simp [Kind.bound]
      · rw [Expr.labels_node] at distinct
        exact (List.nodup_cons.mp distinct).1 (List.mem_flatMap.mpr ⟨c, child, bound⟩)
  have agrees : OrStuck ty (blockTy name cs) := by
    refine blockTy_orStuck last_ ?_ fun v member => ?_
    · exact (end_ last.top? (by rw [List.getLast?_map, last_]; rfl)).orStuck
    · exact (sent _ (sentTo_tops name cs ▸ List.mem_map_of_mem member)).orStuck
  have typed' : BlockTyped (blockTy name cs) (cs.map Expr.top?) := by
    rcases agrees with lost | top
    · rw [lost]
      exact typed.lose lost
    · exact typed.congr completes top
  have carries : ∀ v ∈ sentTopsTo name cs, Carries v ty → Carries v (blockTy name cs) := by
    rcases agrees with lost | top
    · obtain ⟨_, _, cause⟩ := blockTy_eq_unreachable.mp lost
      intro v member _
      have stuck : v = some .unreachable := by
        rcases cause with ⟨-, all⟩ | ⟨-, alone, -⟩
        · exact all v member
        · rw [alone] at member
          cases member
      rw [lost, stuck]
      exact .inr ⟨by decide, .inl rfl⟩
    · exact fun v _ carried => carried.congr top
  refine ⟨.node typed' fun c child => ?_, ?_, ?_, fun label => ?_, ?_⟩
  · cases name with
    | none => exact children c child
    | some label =>
      exact @Valid.relabel (S.enter (.block (some label) ty)) c (children c child) label ty
        (blockTy (some label) cs) [] S.labels rfl fun v inside =>
          carries v (List.mem_flatMap.mpr ⟨c, child, inside⟩)
  · refine Expr.settled_node_iff.mpr ⟨fun name' equal => ?_, each⟩
    obtain ⟨rfl, lost⟩ := Kind.block.inj equal
    exact lost
  · rw [Expr.top?_node, Expr.top?_node]
    rcases agrees with lost | top
    · exact .inr ⟨rfl, congrArg (some ∘ Ty.top) lost⟩
    · exact .inl (congrArg some top)
  · rw [Expr.sentTops_node, Expr.sentTops_node]
    exact .refl _
  · rw [Expr.labels_node, Expr.labels_node]
    cases name <;> exact .refl _

/-! ## One more child -/

/-- No label is bound or branched to, and no block is wrong about its end. -/
structure Expr.Quiet (e : Expr) : Prop where
  settled : e.Settled
  labels : e.labels = []
  sends : ∀ label, e.sentTops label = []

/-- An expression of that kind that leaves nothing behind. -/
structure Expr.Closed (e : Expr) : Prop extends e.Quiet where
  type : e.top? = some Ty.none

/-- Such a child may be put before others, and after all of them where no value is expected. -/
theorem BlockTyped.insert {ty : Ty} {front back : List (Option Ty)}
    (typed : BlockTyped ty (front ++ back)) (keeps : ty ≠ Ty.none → back ≠ []) :
    BlockTyped ty (front ++ some Ty.none :: back) := by
  obtain ⟨before, end_, stuck, -⟩ := typed
  have fits : Fits (some Ty.none) Ty.none := .inr rfl
  have more {t : Option Ty} (member : t ∈ front ++ back) : t ∈ front ++ some Ty.none :: back := by
    rcases List.mem_append.mp member with left | right
    · exact List.mem_append_left _ left
    · exact List.mem_append_right _ (List.mem_cons_of_mem _ right)
  cases back with
  | nil =>
    -- what was the last child must have left nothing behind
    have none : ty = Ty.none := by_contra fun value => keeps value rfl
    subst none
    rw [List.append_nil] at before end_ more
    refine ⟨fun t member => ?_, fun t member => ?_, fun lost => ?_, fun empty => ?_⟩
    · rw [List.dropLast_concat] at member
      by_cases last : t ∈ front.getLast?
      · exact end_ t last
      · exact before t (List.mem_dropLast_of_mem_of_ne_getLast? member (Ne.symm last))
    · rw [List.getLast?_concat] at member
      cases member
      exact fits
    · cases lost
    · simp at empty
  | cons b back =>
    rw [List.dropLast_append_of_ne_nil (by simp)] at before
    refine ⟨fun t member => ?_, fun t member => ?_, fun lost => more (stuck lost), fun empty => ?_⟩
    · rw [List.dropLast_append_of_ne_nil (by simp), List.dropLast_cons_cons, List.mem_append,
        List.mem_cons] at member
      rcases member with left | rfl | right
      · exact before t (List.mem_append_left _ left)
      · exact fits
      · exact before t (List.mem_append_right _ right)
    · refine end_ t ?_
      rw [List.getLast?_append_of_ne_nil _ (by simp)] at member ⊢
      rwa [List.getLast?_cons_cons] at member
    · simp at empty

/-- An insertion that keeps the last child of a block with a type keeps the block well typed. -/
theorem Valid.insert {S : Scope} {name : Option String} {ty : Ty} {front back : List Expr}
    {child : Expr} (valid : Valid S (.node (.block name ty) (front ++ back)))
    (settled : Expr.Settled (.node (.block name ty) (front ++ back))) (closed : child.Closed)
    (fits : Valid (S.enter (.block name ty)) child) (keeps : ty ≠ Ty.none → back ≠ []) :
    Better S (.node (.block name ty) (front ++ back))
      (.node (.block name ty) (front ++ child :: back)) := by
  obtain ⟨typed, children⟩ := valid_node_iff.mp valid
  obtain ⟨own, each⟩ := Expr.settled_node_iff.mp settled
  have sends (label : String) : (front ++ child :: back).flatMap (Expr.sentTops label) =
      (front ++ back).flatMap (Expr.sentTops label) := by
    simp [closed.sends]
  have all {P : Expr → Prop} (here : P child) (others : ∀ c ∈ front ++ back, P c) :
      ∀ c ∈ front ++ child :: back, P c := by
    rw [List.forall_mem_append] at others ⊢
    exact ⟨others.1, List.forall_mem_cons.mpr ⟨here, others.2⟩⟩
  refine ⟨.node ?_ (all fits children), Expr.settled_node_iff.mpr ⟨?_, all closed.settled each⟩,
    .inl rfl, fun label => ?_, ?_⟩
  · rw [List.map_append] at typed
    have inserted := BlockTyped.insert typed fun value => by simpa using keeps value
    rwa [← closed.type, ← List.map_cons, ← List.map_append] at inserted
  · rintro name' equal
    obtain ⟨rfl, rfl⟩ := Kind.block.inj equal
    obtain ⟨last, last_, cause⟩ := blockTy_eq_unreachable.mp (own name rfl)
    have kept : back ≠ [] := keeps (by decide)
    refine blockTy_eq_unreachable.mpr ⟨last, ?_, ?_⟩
    · rwa [List.getLast?_append_of_ne_nil _ kept, ← List.getLast?_append_of_ne_nil (front ++ [child]) kept,
        List.append_assoc] at last_
    · have sent : sentTopsTo name (front ++ child :: back) = sentTopsTo name (front ++ back) := by
        cases name with
        | none => rfl
        | some label => exact sends label
      rw [sent]
      refine cause.imp_right fun ⟨flow, alone, inside⟩ => ⟨flow, alone, ?_⟩
      simp only [List.map_append, List.map_cons, List.mem_append, List.mem_cons] at inside ⊢
      exact inside.imp_right .inr
  · rw [Expr.sentTops_node, Expr.sentTops_node, sends]
    exact .refl _
  · rw [Expr.labels_node, Expr.labels_node]
    simp [closed.labels]

end Swam.Binaryen
