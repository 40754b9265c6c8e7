import Swam.Generator

/-!
# What the generators can do

A relation that holds across each primitive step of the generators holds across a whole call
of one of them, at any depth and for any random stream. The operands of an instruction have
value types, and code of a value type adds no global; so the name of a new global, chosen
before its operands are generated, is still the number of globals when it is added.
-/
namespace Swam

open Binaryen Gen Lib

variable {R : GenState → GenState → Prop} {E : GenState → Stop → GenState → Prop}

theorem ends_request {α : Type} {call : Module → Rand → Option (α × Module × Rand)}
    {why : Module → Stop} {s : GenState} {done : α → GenState → Prop}
    {stopped : Stop → GenState → Prop} :
    Ends (Gen.request call why) s done stopped ↔
      match call s.mod s.rand with
      | some (a, mod, rand) => done a { s with mod, rand }
      | none => stopped (why s.mod) s := by
  unfold Ends Gen.request
  cases call s.mod s.rand <;> rfl

/-! ## What is drawn -/

theorem choose_mem {α : Type} (xs : List α) (selected : Option α) :
    Returns (Gen.choose xs selected) fun chosen => ∀ x ∈ chosen, x ∈ xs ∨ x ∈ selected := by
  induction xs generalizing selected with
  | nil =>
    cases selected with
    | none => exact .pure fun _ here => .inr here
    | some y => exact .pure fun _ here => .inr here
  | cons x rest ih =>
    cases selected with
    | none =>
      intro s
      apply (ih (some x) s).mono _ fun _ _ _ => trivial
      intro chosen _ among y here
      rcases among y here with later | first
      · exact .inl (List.mem_cons_of_mem _ later)
      · cases first
        exact .inl List.mem_cons_self
    | some z =>
      apply Returns.bind .any
      intro other _ s
      apply (ih _ s).mono _ fun _ _ _ => trivial
      intro chosen _ among y here
      rcases among y here with later | first
      · exact .inl (List.mem_cons_of_mem _ later)
      · cases other with
        | true =>
          cases first
          exact .inl List.mem_cons_self
        | false => exact .inr first

/-! ## Rules -/

/-- The steps of a generator of values. -/
structure ValueRule (R : GenState → GenState → Prop) (E : GenState → Stop → GenState → Prop) : Prop
    extends Chains R E where
  rand : ∀ s r, R s { s with rand := r }
  instr : ∀ {s inst child e m r}, wasmGenerateOneSimpleExpr s.mod inst child s.rand = some (e, m, r) →
    R s { s with mod := m, rand := r }
  table : ∀ {s table m r}, findTable s.mod .funcref s.rand = some (table, m, r) →
    R s { s with mod := m, rand := r }
  newLocal : ∀ s ty, R s { s with localCxt := s.localCxt ++ [⟨false, ty, s.localCxt.length⟩] }
  fatal : ∀ s, E s .fatal s
  tableTaken : ∀ s, tableNameTaken s.mod = true → E s .nameInUse s

/-- The steps of a generator without loops that have no bound of their own. -/
structure DrawRule (R : GenState → GenState → Prop) (E : GenState → Stop → GenState → Prop) : Prop
    extends ValueRule R E where
  newGlobal : ∀ s g, g.name = toString s.mod.globals.length → R s { s with mod := s.mod.addGlobal g }
  globalTaken : ∀ s, s.mod.globals.any (·.name = toString s.mod.globals.length) = true →
    E s .nameInUse s
  newName : ∀ s, R s { s with names := (wasmFindAvailableName s.names).2 }
  label : ∀ {s t} l, R { s with labelCxt := s.labelCxt ++ [l] } t →
    R s { t with labelCxt := t.labelCxt.eraseIdx s.labelCxt.length }
  labelStop : ∀ {s e t} l, E { s with labelCxt := s.labelCxt ++ [l] } e t → E s e t

/-- The steps of any generator. -/
structure GenRule (R : GenState → GenState → Prop) (E : GenState → Stop → GenState → Prop) : Prop
    extends DrawRule R E where
  endless : ∀ s, E s .endless s

/-- A type that is asked for when a value is needed. -/
def Binaryen.Ty.IsValue (ty : Ty) : Prop := 1 ≤ ty.arity

theorem isValue_one (ty : ValTy) : (Ty.one ty).IsValue := Nat.le_refl _

@[simp] theorem arity_top (ty : Ty) : ty.top.arity = ty.arity := by
  cases ty <;> simp [Ty.arity]

/-- A generator of operands. -/
def GeneratesValues (R : GenState → GenState → Prop) (E : GenState → Stop → GenState → Prop)
    (gen : Ty → Gen Expr) : Prop :=
  ∀ ty : Ty, ty.IsValue → Keeps R E (gen ty)

theorem findTable_none {m : Module} {ty : ValTy} {r : Rand} (missing : findTable m ty r = none) :
    tableNameTaken m = true := by
  unfold findTable at missing
  split at missing
  · cases missing
  · simp only [addNumberedTable, Option.map_eq_none_iff, ite_eq_left_iff, reduceCtorEq,
      imp_false, not_not] at missing
    exact missing

/-! ## What an instruction adds -/

/-- Functions and globals are the same, and there is at most one more table, under a number
that no table had as its name. -/
structure AddsTable (m m' : Module) : Prop where
  functions : m'.functions = m.functions
  globals : m'.globals = m.globals
  tables : m'.tables = m.tables ∨
    ∃ t : Table, t.name = toString m.tables.length ∧ (∀ u ∈ m.tables, u.name ≠ t.name) ∧
      m'.tables = m.tables ++ [t]

theorem AddsTable.refl (m : Module) : AddsTable m m := ⟨rfl, rfl, .inl rfl⟩

theorem wasmSetMemory_adds {m m' : Module} {addSeg : Bool} {r r' : Rand}
    (set : wasmSetMemory m addSeg r = some (m', r')) : AddsTable m m' := by
  simp only [wasmSetMemory, Option.bind_eq_some_iff] at set
  obtain ⟨settings, _, set⟩ := set
  split at set
  · obtain ⟨_, _, equal⟩ := Option.map_eq_some_iff.mp set
    cases equal
    exact ⟨rfl, rfl, .inl rfl⟩
  · split at set <;> cases set <;> exact ⟨rfl, rfl, .inl rfl⟩

theorem ensureMemory_adds {m m' : Module} {r r' : Rand} (ensured : ensureMemory m r = some (m', r')) :
    AddsTable m m' := by
  unfold ensureMemory at ensured
  split at ensured
  · cases ensured
    exact .refl m
  · exact wasmSetMemory_adds ensured

theorem addNumberedTable_adds {m m' : Module} {ty : ValTy} {table : Table}
    (added : addNumberedTable m ty = some (table, m')) : AddsTable m m' := by
  simp only [addNumberedTable] at added
  split at added
  · cases added
  next fresh =>
    cases added
    refine ⟨rfl, rfl, .inr ⟨_, rfl, ?_, rfl⟩⟩
    intro u member equal
    apply fresh
    rw [List.any_eq_true]
    exact ⟨u, member, by simp [equal]⟩

theorem findTable_adds {m m' : Module} {ty : ValTy} {table : Table} {r r' : Rand}
    (found : findTable m ty r = some (table, m', r')) : AddsTable m m' := by
  unfold findTable at found
  split at found
  · cases found
    exact .refl m
  · obtain ⟨added, here, equal⟩ := Option.map_eq_some_iff.mp found
    cases equal
    exact addNumberedTable_adds here

theorem anyTable_adds {m m' : Module} {table : Table} {r r' : Rand}
    (found : anyTable m r = some (table, m', r')) : AddsTable m m' := by
  unfold anyTable at found
  split at found
  · obtain ⟨added, here, equal⟩ := Option.map_eq_some_iff.mp found
    cases equal
    exact addNumberedTable_adds here
  · obtain ⟨_, _, equal⟩ := Option.map_eq_some_iff.mp found
    cases equal
    exact .refl m

theorem wasmGenerateOneSimpleExpr_adds {m m' : Module} {inst : InstrTy} {child : List Expr} {e : Expr}
    {r r' : Rand} (built : wasmGenerateOneSimpleExpr m inst child r = some (e, m', r')) :
    AddsTable m m' := by
  cases inst with
  | memoryInit =>
    obtain ⟨set, here, equal⟩ := Option.map_eq_some_iff.mp built
    cases equal
    split at here
    · exact wasmSetMemory_adds here
    · cases here
      exact .refl m
  | dataDrop =>
    obtain ⟨set, here, equal⟩ := Option.map_eq_some_iff.mp built
    cases equal
    split at here
    · exact wasmSetMemory_adds here
    · cases here
      exact .refl m
  | const ty | refFunc =>
    obtain ⟨_, _, equal⟩ := Option.map_eq_some_iff.mp built
    cases equal
    exact .refl m
  | tableSize =>
    obtain ⟨_, here, equal⟩ := Option.map_eq_some_iff.mp built
    cases equal
    exact anyTable_adds here
  | tableGet ty | tableSet ty | tableGrow ty =>
    obtain ⟨_, here, equal⟩ := Option.map_eq_some_iff.mp built
    cases equal
    exact findTable_adds here
  | load | store | memorySize | memoryGrow | simdLoad | simdLoadStoreLane | memoryCopy | memoryFill =>
    obtain ⟨_, here, equal⟩ := Option.map_eq_some_iff.mp built
    cases equal
    exact ensureMemory_adds here
  | _ =>
    cases built
    exact .refl m

/-! ## Primitive steps -/

namespace ValueRule

variable (rule : ValueRule R E)
include rule

theorem below (limit : Nat) : Keeps R E (below limit) := fun s => rule.rand s _

theorem coin : Keeps R E coin := .bind rule.toChains (rule.below 2) fun _ => .pure rule.toChains _

theorem oneIn (chances : Nat) : Keeps R E (oneIn chances) :=
  .bind rule.toChains (rule.below chances) fun _ => .pure rule.toChains _

theorem pick {α : Type} (xs : List α) : Keeps R E (pick xs) :=
  .bind rule.toChains (rule.below _) fun _ => .pure rule.toChains _

theorem choose {α : Type} (xs : List α) (selected : Option α) : Keeps R E (choose xs selected) := by
  induction xs generalizing selected with
  | nil => exact .pure rule.toChains _
  | cons x rest ih =>
    cases selected with
    | none => exact ih (some x)
    | some y => exact .bind rule.toChains rule.coin fun _ => ih _

omit rule in
theorem request {α : Type} {call : Module → Rand → Option (α × Module × Rand)} {why : Module → Stop}
    (answered : ∀ s a m r, call s.mod s.rand = some (a, m, r) → R s { s with mod := m, rand := r })
    (refused : ∀ s, call s.mod s.rand = none → E s (why s.mod) s) :
    Keeps R E (request call why) := by
  intro s
  unfold Ends Gen.request
  cases outcome : call s.mod s.rand with
  | none => exact refused s outcome
  | some answer => exact answered s _ _ _ outcome

theorem simpleExpr (inst : InstrTy) (child : List Expr) : Keeps R E (simpleExpr inst child) := by
  apply ValueRule.request
  · intro s e m r built
    exact rule.instr built
  · intro s _
    split
    next taken => exact rule.tableTaken s taken
    next => exact rule.fatal s

theorem funcTable :
    Keeps R E (Gen.request (fun m r => findTable m .funcref r) fun _ => .nameInUse) := by
  apply ValueRule.request
  · intro s table m r found
    exact rule.table found
  · intro s missing
    exact rule.tableTaken s (findTable_none missing)

theorem initExpr (ty : ValTy) :
    Keeps R E (Gen.request (fun m r => dummyExpr m ty r) fun _ => .fatal) := by
  apply ValueRule.request
  · intro s e m r built
    unfold dummyExpr at built
    split at built
    · exact rule.instr built
    · split at built
      · -- the coin is drawn before the instruction is built
        have drawn := rule.rand s (randBelow 2 s.rand).2
        exact rule.trans drawn
          (@ValueRule.instr R E rule { s with rand := (randBelow 2 s.rand).2 } _ _ _ _ _ built)
      · exact rule.instr built
  · intro s _
    exact rule.fatal s

theorem randType : Keeps R E randType :=
  .bind rule.toChains (rule.below 7) fun _ => .pure rule.toChains _

theorem randTypes (n : Nat) : Keeps R E (randTypes n) := by
  induction n with
  | zero => exact .pure rule.toChains _
  | succ n ih =>
    apply Keeps.bind rule.toChains rule.randType
    intro ty
    exact .bind rule.toChains ih fun _ => .pure rule.toChains _

/-! ## Generators of values -/

section
variable {gen : Ty → Gen Expr} (values : GeneratesValues R E gen)
include values

theorem genAll (types : List ValTy) : Keeps R E (genAll gen types) := by
  induction types with
  | nil => exact .pure rule.toChains _
  | cons ty rest ih =>
    apply Keeps.bind rule.toChains (values _ (isValue_one ty))
    intro expr
    exact .bind rule.toChains ih fun _ => .pure rule.toChains _

theorem genCarried (labelType : Ty) : Keeps R E (genCarried gen labelType) :=
  .bind rule.toChains (rule.genAll values _) fun _ => .pure rule.toChains _

theorem genRandom (n : Nat) : Keeps R E (genRandom gen n) := by
  induction n with
  | zero => exact .pure rule.toChains _
  | succ n ih =>
    apply Keeps.bind rule.toChains rule.randType
    intro ty
    apply Keeps.bind rule.toChains (values _ (isValue_one ty))
    intro expr
    exact .bind rule.toChains ih fun _ => .pure rule.toChains _

theorem genGlobal (n : Nat) : Keeps R E (genGlobal gen n) := by
  induction n with
  | zero => exact .pure rule.toChains _
  | succ n ih =>
    apply Keeps.bind rule.toChains rule.randType
    intro ty
    apply Keeps.bind rule.toChains (values _ (isValue_one ty))
    intro expr
    apply Keeps.bind rule.toChains (rule.initExpr ty)
    intro init
    exact .bind rule.toChains ih fun _ => .pure rule.toChains _

end

theorem selectLabels (labelType : Ty) (labels : List LabelCxt) :
    Keeps R E (selectLabels labelType labels) := by
  induction labels with
  | nil => exact .pure rule.toChains _
  | cons el rest ih =>
    apply Keeps.ite
    · intro _
      apply Keeps.bind rule.toChains rule.coin
      intro taken
      exact .bind rule.toChains ih fun _ => .pure rule.toChains _
    · exact fun _ => ih

theorem localGlobalGet (result : Ty) (useLocal : Bool) :
    Keeps R E (wasmGenerateOneLocalGlobalGet result useLocal) := by
  apply Keeps.bind rule.toChains (.get rule.toChains)
  intro s
  repeat'
    first
    | apply Keeps.ite <;> intro _
    | apply Keeps.bind rule.toChains (rule.choose _ _)
      intro chosen
      cases chosen <;> exact .pure rule.toChains _

theorem declareLocal (ty : Ty) : Keeps R E (declareLocal ty) := fun s => rule.newLocal s ty

section
variable {gen : Ty → Gen Expr} (values : GeneratesValues R E gen)
include values

theorem localTee (result : Ty) : Keeps R E (wasmGenerateOneLocalTee gen result) := by
  apply Keeps.bind rule.toChains (.get rule.toChains)
  intro s
  apply Keeps.bind rule.toChains (rule.choose _ _)
  intro found
  cases found with
  | some el => exact .bind rule.toChains (rule.genAll values _) fun _ => .pure rule.toChains _
  | none =>
    apply Keeps.bind rule.toChains rule.coin
    intro new
    apply Keeps.ite
    · intro _
      apply Keeps.bind rule.toChains (rule.declareLocal result)
      intro localIdx
      exact .bind rule.toChains (rule.genAll values _) fun _ => .pure rule.toChains _
    · exact fun _ => .pure rule.toChains _

theorem controlTransfer (result : Ty) : Keeps R E (wasmGenerateOneControlTransfer gen result) := by
  apply Keeps.bind rule.toChains (rule.below 4)
  intro selected
  apply Keeps.bind rule.toChains (.get rule.toChains)
  intro s
  apply Keeps.ite <;> intro _
  · apply Keeps.bind rule.toChains (rule.choose _ _)
    rintro (_ | el)
    · exact .pure rule.toChains _
    · exact .bind rule.toChains (rule.genCarried values _) fun _ => .pure rule.toChains _
  apply Keeps.ite <;> intro _
  · apply Keeps.bind rule.toChains (rule.choose _ _)
    rintro (_ | el)
    · exact .pure rule.toChains _
    · apply Keeps.bind rule.toChains (rule.genCarried values _)
      intro value
      exact .bind rule.toChains (values _ (isValue_one .i32)) fun _ => .pure rule.toChains _
  apply Keeps.ite <;> intro _
  · apply Keeps.bind rule.toChains (rule.choose _ _)
    rintro (_ | el)
    · exact .pure rule.toChains _
    · apply Keeps.bind rule.toChains (rule.selectLabels _ _)
      intro names
      apply Keeps.bind rule.toChains (rule.genCarried values _)
      intro value
      exact .bind rule.toChains (values _ (isValue_one .i32)) fun _ => .pure rule.toChains _
  · exact .pure rule.toChains _

theorem call (result : Ty) : Keeps R E (wasmGenerateOneCall gen result) := by
  apply Keeps.bind rule.toChains (.get rule.toChains)
  intro s
  apply Keeps.bind rule.toChains (rule.pick _)
  rintro (_ | target)
  · exact .pure rule.toChains _
  · exact .bind rule.toChains (rule.genAll values _) fun _ => .pure rule.toChains _

theorem callIndirect (result : Ty) : Keeps R E (wasmGenerateOneCallIndirect gen result) := by
  apply Keeps.bind rule.toChains (rule.below 5)
  intro numParams
  apply Keeps.bind rule.toChains (rule.genRandom values _)
  intro drawn
  apply Keeps.bind rule.toChains rule.funcTable
  intro table
  exact .bind rule.toChains (values _ (isValue_one .i32)) fun _ => .pure rule.toChains _

theorem oneOfGroups (grps : List InstrGrp) : Keeps R E (oneOfGroups gen grps) := by
  apply Keeps.bind rule.toChains (rule.choose _ _)
  rintro (_ | grp)
  · exact .pure rule.toChains _
  · apply Keeps.bind rule.toChains (rule.pick _)
    rintro (_ | inst)
    · exact fun s => rule.fatal s
    · exact .bind rule.toChains (rule.genAll values _) fun _ => rule.simpleExpr _ _

theorem tree (result : Ty) : Keeps R E (instrSeqsNode.tree gen result) := by
  apply Keeps.ite <;> intro _
  · exact .bind rule.toChains (rule.genAll values _) fun _ => .pure rule.toChains _
  · exact rule.oneOfGroups values _

end

theorem tryFirst {chances : Nat} {first otherwise : Gen Expr} (one : Keeps R E first)
    (other : Keeps R E otherwise) : Keeps R E (tryFirst chances first otherwise) := by
  apply Keeps.bind rule.toChains (rule.oneIn chances)
  intro chosen
  apply Keeps.ite <;> intro _
  · apply Keeps.bind rule.toChains one
    intro expr
    exact .ite (fun _ => other) fun _ => .pure rule.toChains _
  · exact other

theorem leaf (result : Ty) : Keeps R E (instrSeqsLeaf result) := by
  have instruction : Keeps R E (instrSeqsLeaf.instruction result) :=
    rule.oneOfGroups (fun _ _ => .pure rule.toChains _) _
  apply Keeps.bind rule.toChains
  · exact .ite (fun _ => rule.coin) fun _ => .pure rule.toChains _
  intro useVariable
  apply Keeps.ite <;> intro _
  · apply Keeps.bind rule.toChains rule.coin
    intro useLocal
    apply Keeps.bind rule.toChains (rule.localGlobalGet _ _)
    intro expr
    exact .ite (fun _ => instruction) fun _ => .pure rule.toChains _
  · exact instruction

/-- The base case, up to what it does when nothing is asked for. -/
theorem node {gen : Ty → Gen Expr} (values : GeneratesValues R E gen) {result : Ty}
    (set : ¬ 1 ≤ result.arity → ∀ useLocal, Keeps R E (wasmGenerateOneLocalGlobalSet gen useLocal)) :
    Keeps R E (instrSeqsNode gen result) := by
  apply rule.tryFirst (rule.call values result)
  apply Keeps.bind rule.toChains (rule.oneIn 5)
  intro indirect
  apply Keeps.ite <;> intro _
  · exact rule.callIndirect values result
  apply rule.tryFirst (rule.controlTransfer values result)
  apply Keeps.ite
  · intro _
    apply rule.tryFirst
    · exact .bind rule.toChains rule.coin fun useLocal => rule.localGlobalGet result useLocal
    · exact rule.tryFirst (rule.localTee values result) (rule.tree values result)
  · intro nothing
    apply rule.tryFirst
    · exact .bind rule.toChains rule.coin fun useLocal => set nothing useLocal
    · exact rule.tree values result

theorem baseCase (depth : Nat) : GeneratesValues R E (wasmGenerateInstrSeqsBaseCase depth) := by
  induction depth with
  | zero =>
    intro ty _
    exact rule.leaf ty.top
  | succ depth ih =>
    intro ty value
    apply rule.node ih
    intro nothing
    rw [arity_top] at nothing
    exact absurd value nothing

end ValueRule

/-! ## Code that leaves nothing -/

/-- The globals are the same, with no condition on a stop. -/
theorem sameGlobals : ValueRule (fun s t => t.mod.globals = s.mod.globals) fun _ _ _ => True where
  refl := fun _ => rfl
  trans := fun first second => second.trans first
  stop := fun _ _ => trivial
  rand := fun _ _ => rfl
  instr := fun built => (wasmGenerateOneSimpleExpr_adds built).globals
  table := fun found => (findTable_adds found).globals
  newLocal := fun _ _ => rfl
  fatal := fun _ => trivial
  tableTaken := fun _ _ => trivial

theorem randTypes_ends (n : Nat) (s : GenState) :
    Ends (randTypes n) s (fun _ t => ∃ r, t = { s with rand := r }) fun _ _ => False := by
  induction n generalizing s with
  | zero => exact ⟨s.rand, rfl⟩
  | succ n ih =>
    rw [randTypes, ends_bind]
    change Ends _ { s with rand := (randBelow 7 s.rand).2 } _ _
    rw [ends_bind]
    apply (ih _).mono
    · rintro types t ⟨r, rfl⟩
      exact ⟨r, rfl⟩
    · exact fun _ _ impossible => impossible

theorem DrawRule.freshName (rule : DrawRule R E) : Keeps R E freshName := fun s => rule.newName s

namespace GenRule

variable (rule : GenRule R E)
include rule

theorem drawMutable (globals : List Global) (n : Nat) : Keeps R E (drawMutable globals n) := by
  induction n with
  | zero => exact fun s => rule.endless s
  | succ n ih =>
    apply Keeps.bind rule.toChains (rule.pick globals)
    intro drawn
    cases drawn with
    | none => exact fun s => rule.fatal s
    | some g => exact .ite (fun _ => .pure rule.toChains _) fun _ => ih

private theorem setNewLocal {gen : Ty → Gen Expr} (values : GeneratesValues R E gen) :
    Keeps R E (Swam.setNewLocal gen) := by
  intro s
  rw [Swam.setNewLocal, ends_bind, ends_get, ends_bind]
  change Ends _ { s with rand := (randBelow 3 s.rand).2 } _ _
  rw [ends_bind]
  apply (randTypes_ends _ _).mono
  · rintro types _ ⟨r, rfl⟩
    -- the types are drawn between the reading of the index and its use
    have declared := rule.trans (rule.rand s r) (rule.newLocal { s with rand := r } (.vals types))
    rw [ends_bind, appendLocal, ends_modify]
    apply Ends.bind_keeps (rule.genAll values types)
    · intro exprs t onward
      exact rule.trans declared onward
    · intro e t stopped
      exact rule.stop declared stopped
  · exact fun _ _ impossible => impossible.elim

private theorem setNewGlobal {gen : Ty → Gen Expr} (values : GeneratesValues R E gen)
    (same : GeneratesValues (fun s t => t.mod.globals = s.mod.globals) (fun _ _ _ => True) gen) :
    Keeps R E (Swam.setNewGlobal gen) := by
  intro s
  rw [Swam.setNewGlobal, ends_bind, ends_get, ends_bind]
  change Ends _ { s with rand := (randBelow 3 s.rand).2 } _ _
  have drawn := rule.rand s (randBelow 3 s.rand).2
  rw [ends_bind]
  apply ((rule.genGlobal values _ _).and (sameGlobals.genGlobal same _ _)).mono
  · rintro ⟨types, exprs, inits⟩ t ⟨onward, globals⟩
    have here := rule.trans drawn onward
    have number : t.mod.globals.length = s.mod.globals.length := congrArg List.length globals
    rw [ends_bind]
    dsimp only [Ends, addGlobal]
    split
    next added =>
      split at added
      · cases added
      next free =>
        cases added
        apply rule.trans here
        apply rule.newGlobal
        rw [number]
    next refused =>
      split at refused
      next taken =>
        cases refused
        apply rule.stop here
        apply rule.globalTaken
        rw [number]
        exact taken
      · cases refused
  · rintro e t ⟨stopped, _⟩
    exact rule.stop drawn stopped

theorem localGlobalSet {gen : Ty → Gen Expr} (values : GeneratesValues R E gen)
    (same : GeneratesValues (fun s t => t.mod.globals = s.mod.globals) (fun _ _ _ => True) gen)
    (useLocal : Bool) : Keeps R E (wasmGenerateOneLocalGlobalSet gen useLocal) := by
  have chains := rule.toChains
  apply Keeps.bind chains (.get chains)
  intro s
  apply Keeps.ite <;> intro _
  · apply Keeps.bind chains (.ite (fun _ => .pure chains _) fun _ => rule.oneIn 5)
    intro fresh
    apply Keeps.ite <;> intro _
    · exact rule.setNewLocal values
    · apply Keeps.bind chains (rule.choose _ _)
      rintro (_ | el)
      · exact .pure chains _
      · apply Keeps.ite <;> intro _
        · exact .pure chains _
        · exact .bind chains (rule.genAll values _) fun _ => .pure chains _
  · apply Keeps.bind chains (.ite (fun _ => rule.oneIn 5) fun _ => .pure chains _)
    intro fresh
    apply Keeps.ite <;> intro _
    · exact rule.setNewGlobal values same
    · apply Keeps.bind chains (rule.drawMutable _ _)
      intro g
      apply Keeps.ite <;> intro _
      · exact .pure chains _
      · exact .bind chains (rule.genAll values _) fun _ => .pure chains _

/-- The base case at any type. -/
theorem anyBaseCase (depth : Nat) (result : Ty) :
    Keeps R E (wasmGenerateInstrSeqsBaseCase depth result) := by
  cases depth with
  | zero => exact rule.leaf _
  | succ depth =>
    apply rule.node (rule.baseCase depth)
    intro _ useLocal
    exact rule.localGlobalSet (rule.baseCase depth) (sameGlobals.baseCase depth) useLocal

/-! ## The top level -/

theorem withLabel {α : Type} (label : LabelCxt) {body : Gen α} (kept : Keeps R E body) :
    Keeps R E (withLabel label body) := by
  intro s
  unfold Gen.withLabel
  rw [ends_bind, ends_get, ends_bind, ends_modify, ends_bind]
  apply (kept _).mono
  · intro result t inside
    exact rule.label label inside
  · intro e t stopped
    exact rule.labelStop label stopped

section
variable {sub : Ty → Gen Expr} (kept : ∀ ty, Keeps R E (sub ty))
include kept

theorem oneConstructor (subType : Ty) : Keeps R E (oneConstructor sub subType) := by
  have chains := rule.toChains
  apply Keeps.bind chains (rule.below 3)
  intro selected
  apply Keeps.ite <;> intro _
  · exact kept subType
  apply Keeps.ite <;> intro _
  · apply Keeps.bind chains rule.freshName
    intro subLabel
    exact .bind chains (rule.withLabel _ (kept subType)) fun _ => .pure chains _
  · apply Keeps.bind chains (kept _)
    intro cond
    apply Keeps.bind chains (kept _)
    intro trueExpr
    exact .bind chains (kept _) fun _ => .pure chains _

theorem subBlocks (n : Nat) (results : List ValTy) : Keeps R E (subBlocks sub n results) := by
  have chains := rule.toChains
  induction n generalizing results with
  | zero => exact .pure chains _
  | succ n ih =>
    cases results with
    | nil => exact .pure chains _
    | cons ty rest =>
      apply Keeps.bind chains (rule.below _)
      intro moveSteps
      apply Keeps.bind chains (rule.declareLocal _)
      intro localIdx
      apply Keeps.bind chains (rule.oneConstructor kept _)
      intro expr
      exact .bind chains (ih _) fun _ => .pure chains _

theorem blockExprs (result : Ty) : Keeps R E (blockExprs sub result) := by
  have chains := rule.toChains
  apply Keeps.ite <;> intro _
  · exact .bind chains (rule.subBlocks kept _ _) fun _ => .pure chains _
  · exact .bind chains (rule.oneConstructor kept _) fun _ => .pure chains _

end

theorem topLevel (depth : Nat) (result : Ty) :
    Keeps R E (wasmGenerateInstrSeqsTopLevel depth result) := by
  have chains := rule.toChains
  induction depth generalizing result with
  | zero => exact rule.anyBaseCase 3 _
  | succ depth ih =>
    apply Keeps.bind chains rule.freshName
    intro topLabel
    exact .bind chains (rule.withLabel _ (rule.blockExprs ih _)) fun _ => .pure chains _

end GenRule

end Swam
