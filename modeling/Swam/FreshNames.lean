import Mathlib.Data.List.Induction
import Mathlib.Data.List.Perm.Subperm
import Swam.ModuleRules

/-!
# Names of new entities

A function, global or table that a mutator adds gets the number of entities of its kind as its
name. When a name is chosen before the entity is there, what happens in between adds none of
its kind. So names that are numerals stay below the number of entities, and no name is ever
given twice.
-/
namespace Swam

open Binaryen Mut Lib

/-! ## Numbered names -/

/-- Every name that is a numeral is below the number of names. -/
def NumeralsBelow (names : List String) : Prop := ∀ n : Nat, toString n ∈ names → n < names.length

/-- Each name added is not among those before it. -/
def AddedFresh (old new : List String) : Prop :=
  old <+: new ∧ ∀ (i : Nat) (name : String), old.length ≤ i → new[i]? = some name →
    name ∉ new.take i

/-- Names were added one after another, each the number of names before it. -/
def NumbersAdded (old new : List String) : Prop :=
  ∃ k, new = old ++ (List.range' old.length k).map toString

namespace NumbersAdded

variable {old new newer : List String}

theorem refl (names : List String) : NumbersAdded names names := ⟨0, by simp⟩

theorem of_eq (equal : new = old) : NumbersAdded old new := equal ▸ refl old

theorem trans (first : NumbersAdded old new) (second : NumbersAdded new newer) :
    NumbersAdded old newer := by
  obtain ⟨k, rfl⟩ := first
  obtain ⟨l, rfl⟩ := second
  refine ⟨k + l, ?_⟩
  rw [List.append_assoc, ← List.map_append, List.length_append, List.length_map, List.length_range',
    List.range'_append_1]

theorem append (names : List String) : NumbersAdded names (names ++ [toString names.length]) :=
  ⟨1, rfl⟩

/-- The new part of the list holds exactly the numbers of its positions. -/
theorem getElem? (added : NumbersAdded old new) {i : Nat} {name : String} (late : old.length ≤ i)
    (found : new[i]? = some name) : name = toString i := by
  obtain ⟨k, rfl⟩ := added
  rw [List.getElem?_append_right late, List.getElem?_map, Option.map_eq_some_iff] at found
  obtain ⟨n, here, rfl⟩ := found
  rw [List.getElem?_eq_some_iff] at here
  obtain ⟨bound, equal⟩ := here
  rw [List.getElem_range'] at equal
  congr 1
  omega

theorem length_le (added : NumbersAdded old new) : old.length ≤ new.length := by
  obtain ⟨k, rfl⟩ := added
  simp

theorem below (added : NumbersAdded old new) (below : NumeralsBelow old) : NumeralsBelow new := by
  intro n member
  obtain ⟨i, found⟩ := List.mem_iff_getElem?.mp member
  have bound : i < new.length := by
    by_contra beyond
    rw [List.getElem?_eq_none (by omega)] at found
    cases found
  by_cases late : old.length ≤ i
  · have := toString_nat_injective (added.getElem? late found)
    omega
  · have grown := added.length_le
    obtain ⟨k, rfl⟩ := added
    rw [List.getElem?_append_left (by omega)] at found
    have := below n (List.mem_of_getElem? found)
    omega

/-- A position is not yet a name where the names before it are bounded. -/
theorem fresh (added : NumbersAdded old new) (bounded : NumeralsBelow old) : AddedFresh old new := by
  refine ⟨?_, ?_⟩
  · obtain ⟨k, rfl⟩ := added
    exact List.prefix_append _ _
  · intro i name late found taken
    cases added.getElem? late found
    obtain ⟨j, here⟩ := List.mem_iff_getElem?.mp taken
    rw [List.getElem?_take] at here
    split at here
    next before =>
      by_cases old_ : j < old.length
      · obtain ⟨k, rfl⟩ := added
        rw [List.getElem?_append_left old_] at here
        have := bounded i (List.mem_of_getElem? here)
        omega
      · have := toString_nat_injective (added.getElem? (by omega) here)
        omega
    · cases here

end NumbersAdded

/-- A number that bounds the numerals is not a name. -/
theorem NumeralsBelow.free {names : List String} (bounded : NumeralsBelow names) :
    toString names.length ∉ names :=
  fun member => Nat.lt_irrefl _ (bounded _ member)

/-! ## Names of a module -/

def functionNames (m : Module) : List String := m.functions.map (·.name)

def globalNames (m : Module) : List String := m.globals.map (·.name)

def tableNames (m : Module) : List String := m.tables.map (·.name)

/-- A condition on the names of each kind of entity. -/
structure EachKind (P : List String → Prop) (m : Module) : Prop where
  functions : P (functionNames m)
  globals : P (globalNames m)
  tables : P (tableNames m)

/-- A relation between the names of each kind of entity. -/
structure EachKindOf (P : List String → List String → Prop) (m m' : Module) : Prop where
  functions : P (functionNames m) (functionNames m')
  globals : P (globalNames m) (globalNames m')
  tables : P (tableNames m) (tableNames m')

/-- No name that a mutator would give next is in use. -/
theorem EachKind.free {m : Module} (bounded : EachKind NumeralsBelow m) :
    m.functions.any (·.name = toString m.functions.length) = false ∧
      m.globals.any (·.name = toString m.globals.length) = false ∧
      Gen.tableNameTaken m = false := by
  have absent : ∀ {α : Type} (name : α → String) (xs : List α), NumeralsBelow (xs.map name) →
      (xs.any fun x => decide (name x = toString xs.length)) = false := by
    intro α name xs below
    rw [List.any_eq_false]
    intro x member equal
    apply below.free
    rw [List.length_map, ← of_decide_eq_true equal]
    exact List.mem_map_of_mem member
  exact ⟨absent _ _ bounded.functions, absent _ _ bounded.globals, absent _ _ bounded.tables⟩

/-- What a run does to the names, up to the point where it ends. -/
def NamesNumbered (m m' : Module) : Prop := EachKindOf NumbersAdded m m'

/-- A stop that is not about a name in use, when the numerals were bounded. -/
def StopsElsewhere (m : Module) (e : Stop) (m' : Module) : Prop :=
  NamesNumbered m m' ∧ (EachKind NumeralsBelow m → e ≠ .nameInUse)

namespace NamesNumbered

variable {m m' m'' : Module}

theorem refl (m : Module) : NamesNumbered m m := ⟨.refl _, .refl _, .refl _⟩

theorem trans (first : NamesNumbered m m') (second : NamesNumbered m' m'') : NamesNumbered m m'' :=
  ⟨first.functions.trans second.functions, first.globals.trans second.globals,
    first.tables.trans second.tables⟩

theorem below (numbered : NamesNumbered m m') (bounded : EachKind NumeralsBelow m) :
    EachKind NumeralsBelow m' :=
  ⟨numbered.functions.below bounded.functions, numbered.globals.below bounded.globals,
    numbered.tables.below bounded.tables⟩

theorem fresh (numbered : NamesNumbered m m') (bounded : EachKind NumeralsBelow m) :
    EachKindOf AddedFresh m m' :=
  ⟨numbered.functions.fresh bounded.functions, numbered.globals.fresh bounded.globals,
    numbered.tables.fresh bounded.tables⟩

theorem of_adds (adds : AddsTable m m') : NamesNumbered m m' := by
  refine ⟨.of_eq ?_, .of_eq ?_, ?_⟩
  · rw [functionNames, adds.functions, functionNames]
  · rw [globalNames, adds.globals, globalNames]
  · obtain same | ⟨t, name, _, added⟩ := adds.tables
    · exact .of_eq (by rw [tableNames, same, tableNames])
    · have names : tableNames m' = tableNames m ++ [toString (tableNames m).length] := by
        simp [tableNames, added, name]
      exact names ▸ .append _

theorem of_addGlobal {g : Global} (number : g.name = toString m.globals.length) :
    NamesNumbered m (m.addGlobal g) := by
  have names : globalNames (m.addGlobal g) = globalNames m ++ [toString (globalNames m).length] := by
    simp [globalNames, Module.addGlobal, number]
  exact ⟨.refl _, names ▸ .append _, .refl _⟩

theorem of_addFunction {f : Func} (number : f.name = toString m.functions.length) :
    NamesNumbered m { m with functions := m.functions ++ [f] } := by
  have names : functionNames { m with functions := m.functions ++ [f] } =
      functionNames m ++ [toString (functionNames m).length] := by
    simp [functionNames, number]
  exact ⟨names ▸ .append _, .refl _, .refl _⟩

theorem stop (first : NamesNumbered m m') {e : Stop} (second : StopsElsewhere m' e m'') :
    StopsElsewhere m e m'' :=
  ⟨first.trans second.1, fun bounded => second.2 (first.below bounded)⟩

end NamesNumbered

namespace StopsElsewhere

theorem refl (m : Module) {e : Stop} (other : e ≠ .nameInUse) : StopsElsewhere m e m :=
  ⟨.refl m, fun _ => other⟩

/-- A name that is in use shows that the numerals were not bounded. -/
theorem taken {m : Module} {used : Bool} (taken : used = true)
    (free : EachKind NumeralsBelow m → used = false) : StopsElsewhere m .nameInUse m := by
  refine ⟨.refl m, ?_⟩
  intro bounded
  rw [free bounded] at taken
  cases taken

end StopsElsewhere

/-! ## Runs -/

theorem numberedGenRule : GenRule (fun s t => NamesNumbered s.mod t.mod)
    fun s e t => StopsElsewhere s.mod e t.mod where
  refl := fun s => .refl s.mod
  trans := NamesNumbered.trans
  stop := fun first second => first.stop second
  rand := fun s _ => .refl s.mod
  instr := fun built => .of_adds (wasmGenerateOneSimpleExpr_adds built)
  table := fun found => .of_adds (findTable_adds found)
  newLocal := fun s _ => .refl s.mod
  fatal := fun s => .refl s.mod (by decide)
  endless := fun s => .refl s.mod (by decide)
  tableTaken := fun _ used => .taken used fun bounded => bounded.free.2.2
  newGlobal := fun _ _ number => .of_addGlobal number
  globalTaken := fun _ used => .taken used fun bounded => bounded.free.2.1
  newName := fun s => .refl s.mod
  label := fun _ inside => inside
  labelStop := fun _ inside => inside

/-- A relation between modules that generators keep is kept when a mutator runs them. -/
theorem generate_module {P : Module → Module → Prop} {Q : Module → Stop → Module → Prop}
    (rule : GenRule (fun s t => P s.mod t.mod) fun s e t => Q s.mod e t.mod) {α : Type} {x : Gen α}
    (generates : Generates x) (localCxt : List LocalCxt) (labelCxt : List LabelCxt) :
    Keeps (fun s t : MutState => P s.mod t.mod) (fun s e t => Q s.mod e t.mod)
      (generate localCxt labelCxt x) := by
  intro s
  have ends := generates _ _ rule ⟨s.mod, s.names, s.rand, s.patience, localCxt, labelCxt⟩
  unfold Ends at ends ⊢
  unfold generate
  cases run : x ⟨s.mod, s.names, s.rand, s.patience, localCxt, labelCxt⟩ with
  | ok a t => simpa [run] using ends
  | error e t => simpa [run] using ends

private theorem names_modify (functions : List Func) (func : Nat) (ty : Ty) :
    (functions.modify func fun f => { f with vars := f.vars ++ [ty] }).map (·.name) =
      functions.map (·.name) := by
  apply List.ext_getElem?
  intro i
  simp only [List.getElem?_map, List.getElem?_modify]
  cases functions[i]? with
  | none => rfl
  | some f => by_cases here : func = i <;> simp [here]

theorem numberedRule : ModuleRule (fun s t => NamesNumbered s.mod t.mod)
    fun s e t => StopsElsewhere s.mod e t.mod where
  refl := fun s => .refl s.mod
  trans := NamesNumbered.trans
  stop := fun first second => first.stop second
  memory := fun s _ _ => .refl s.mod
  list := fun s _ => .refl s.mod
  counted := fun s _ => .refl s.mod
  noted := fun s _ => .refl s.mod
  generate := fun localCxt labelCxt _ generates =>
    generate_module numberedGenRule generates localCxt labelCxt
  fatal := fun s => .refl s.mod (by decide)
  endless := fun s => .refl s.mod (by decide)
  uninitializedList := fun s => .refl s.mod (by decide)
  nullLabel := fun s => .refl s.mod (by decide)
  adds := fun _ _ _ adds => .of_adds adds
  tableTaken := fun _ used => .taken used fun bounded => bounded.free.2.2
  newVar := fun s func ty => ⟨.of_eq (names_modify s.mod.functions func ty), .refl _, .refl _⟩
  recorded := fun s _ => .refl s.mod
  newFunction := fun _ _ number => .of_addFunction number
  functionTaken := fun _ used => .taken used fun bounded => bounded.free.1

/-- A call of one of the six mutators. -/
inductive MutatorCall where
  | callTarget
  | interestValues
  | branchTarget
  | operators
  | recursive
  | splicing (spl : SpliceModule) (fragmentPool : List FragGrp)

def MutatorCall.run : MutatorCall → Mut Nat
  | .callTarget => wasmCallTargetFunctionMutate
  | .interestValues => wasmInterestValuesMutate
  | .branchTarget => wasmBranchTargetMutate
  | .operators => wasmOperatorsMutate
  | .recursive => InPlace.wasmRecursiveMutate
  | .splicing spl fragmentPool => wasmSplicingMutate spl fragmentPool

/-- Calls of mutators one after another, each with random numbers of its own. -/
def runMutators : List (Rand × MutatorCall) → Mut Unit
  | [] => return ()
  | (rand, call) :: rest => do
    modify fun s => { s with rand }
    let _ ← call.run
    runMutators rest

theorem MutatorCall.keeps {R : MutState → MutState → Prop} {E : MutState → Stop → MutState → Prop}
    (rule : ModuleRule R E) (call : MutatorCall) : Keeps R E call.run := by
  cases call with
  | callTarget => exact rule.callTarget
  | interestValues => exact rule.interestValues
  | branchTarget => exact rule.branchTarget rule.retarget
  | operators => exact rule.operators
  | recursive => exact rule.recursive
  | splicing spl fragmentPool => exact rule.splicing spl fragmentPool

theorem runMutators_keeps {R : MutState → MutState → Prop} {E : MutState → Stop → MutState → Prop}
    (rule : ModuleRule R E) (calls : List (Rand × MutatorCall)) : Keeps R E (runMutators calls) := by
  have chains := rule.toChains
  induction calls with
  | nil => exact .pure chains _
  | cons call rest ih =>
    apply Keeps.bind chains
    · exact fun s => rule.rand s _
    intro _
    exact .bind chains (call.2.keeps rule) fun _ => ih

/-- Whatever mutators run, no entity is added under a name that an entity of its kind has, and
the bound on the numerals stays. -/
theorem names_fresh (calls : List (Rand × MutatorCall)) (s : MutState)
    (bounded : EachKind NumeralsBelow s.mod) :
    Ends (runMutators calls) s
      (fun _ t => EachKindOf AddedFresh s.mod t.mod ∧ EachKind NumeralsBelow t.mod)
      fun e t => e ≠ .nameInUse ∧ EachKindOf AddedFresh s.mod t.mod ∧
        EachKind NumeralsBelow t.mod := by
  apply (runMutators_keeps numberedRule calls s).mono
  · intro _ t numbered
    exact ⟨numbered.fresh bounded, numbered.below bounded⟩
  · intro e t stopped
    exact ⟨stopped.2 bounded, stopped.1.fresh bounded, stopped.1.below bounded⟩

/-- A module with one function, which calls itself, and one global. -/
def loneCaller : MutState where
  mod :=
    { functions := [⟨"0", Ty.none, Ty.none, [], .node (.call "0" Ty.none) []⟩]
      globals := [⟨"0", Ty.i32, true, .node (.const (.i32 7)) []⟩]
      exports := [], memories := [], segments := [], tables := [], features := [] }
  bodies := [.node 0 (.call "0" Ty.none) []]
  nextAddr := 1
  names := wasmInitNameGrp
  rand := ⟨fun _ => 0, 0⟩
  patience := 10
  childNodeList := []
  curCnt := 0
  addedVars := []
  replaced := []

section
-- without this the statement is checked by running the mutators
attribute [local irreducible] runMutators

theorem names_fresh_loneCaller :
    EachKind NumeralsBelow loneCaller.mod ∧
    Ends (runMutators [(⟨fun _ => 0, 0⟩, .callTarget), (⟨fun n => n, 0⟩, .operators)]) loneCaller
      (fun _ t => EachKindOf AddedFresh loneCaller.mod t.mod ∧ EachKind NumeralsBelow t.mod)
      fun e t => e ≠ .nameInUse ∧ EachKindOf AddedFresh loneCaller.mod t.mod ∧
        EachKind NumeralsBelow t.mod := by
  have zero : NumeralsBelow ["0"] := by
    intro n member
    have equal : toString n = toString 0 := List.mem_singleton.mp member
    cases toString_nat_injective equal
    decide
  have none : NumeralsBelow [] := fun _ member => absurd member List.not_mem_nil
  have bounded : EachKind NumeralsBelow loneCaller.mod := ⟨zero, zero, none⟩
  exact ⟨bounded, names_fresh _ loneCaller bounded⟩

end

/-! ## The pool of labels -/

/-- A call that changes the pool. -/
inductive PoolCall where
  | findAvailableName
  | resetNameGrp

/-- The pool, with the names handed out since the last reset. -/
structure PoolRun where
  names : NamePool
  handedOut : List String

def PoolCall.run (s : PoolRun) : PoolCall → PoolRun
  | .findAvailableName =>
    ⟨s.names.wasmFindAvailableName.2, s.handedOut ++ [s.names.wasmFindAvailableName.1]⟩
  | .resetNameGrp => ⟨s.names.wasmResetNameGrp, []⟩

/-- Calls one after another, on the pool that the mutator starts with. -/
def runPool (calls : List PoolCall) : PoolRun :=
  calls.foldl PoolCall.run ⟨NamePool.wasmInitNameGrp, []⟩

theorem runPool_append (calls : List PoolCall) (call : PoolCall) :
    runPool (calls ++ [call]) = call.run (runPool calls) := by
  rw [runPool, List.foldl_append, ← runPool]
  rfl

/-- A pool in order: free and used names are apart, and together they are the names made. -/
structure PoolInOrder (s : PoolRun) : Prop where
  disjoint : s.names.freeNames.Disjoint s.names.usedNames
  free_distinct : s.names.freeNames.Nodup
  used_distinct : s.names.usedNames.Nodup
  names : ∀ name, name ∈ s.names.freeNames ∨ name ∈ s.names.usedNames ↔
    ∃ n < s.names.nameCnt.toNat, name = fuzzName n
  handed_out_distinct : s.handedOut.Nodup
  reset : s.names.wasmResetNameGrp.freeNames = s.names.freeNames ++ s.names.usedNames ∧
    s.names.wasmResetNameGrp.usedNames = []

/-- Below its limit a count is the length. -/
theorem elementTotalCount_eq {names : List String} (few : names.length < 2 ^ 31) :
    elementTotalCount names = names.length := by
  rw [elementTotalCount, BitVec.toInt_ofNat', Int.bmod_eq_of_le] <;> omega

/-- The pool is a group of names: no name that was made is lost, none is made twice, and the
used names are those handed out. -/
structure Refines (s : PoolRun) (names : NameGroup) : Prop where
  nameCnt : s.names.nameCnt.toNat = names.nameCnt
  freeNames : s.names.freeNames = names.freeNames
  usedNames : s.names.usedNames = names.usedNames
  handedOut : s.handedOut = names.usedNames
  present : ∀ n < names.nameCnt, fuzzName n ∈ names.freeNames ++ names.usedNames
  total : names.freeNames.length + names.usedNames.length = names.nameCnt
  few : names.nameCnt < 2 ^ 31

/-- A name is made only when none is free; otherwise the first free one is moved. -/
theorem wasmFindAvailableName_keeps (names : NameGroup)
    (present : ∀ n < names.nameCnt, fuzzName n ∈ names.freeNames ++ names.usedNames) :
    ∀ n < (wasmFindAvailableName names).2.nameCnt,
      fuzzName n ∈ (wasmFindAvailableName names).2.freeNames ++
        (wasmFindAvailableName names).2.usedNames := by
  unfold wasmFindAvailableName
  split
  next empty =>
    intro n bound
    rw [NameGroup.makeName, ← List.append_assoc, List.mem_append, List.mem_singleton]
    rcases Nat.lt_succ_iff_lt_or_eq.mp bound with old | rfl
    · exact .inl (present n old)
    · exact .inr rfl
  next candidate rest filled =>
    intro n bound
    have old := present n bound
    rw [filled] at old
    simp only [NameGroup.useName, List.mem_append, List.mem_cons, List.not_mem_nil, or_false] at old ⊢
    tauto

namespace Refines

variable {s : PoolRun} {names : NameGroup}

theorem initial : Refines (runPool []) wasmInitNameGrp where
  nameCnt := rfl
  freeNames := rfl
  usedNames := rfl
  handedOut := rfl
  present := by
    intro n bound
    rw [wasmInitNameGrp, List.append_nil]
    exact List.mem_map_of_mem (List.mem_range.mpr bound)
  total := by simp [wasmInitNameGrp]
  few := by decide

/-- Handing out a name refines the same step of the group while the used names are few. -/
theorem findAvailableName (refines : Refines s names)
    (few : (PoolCall.findAvailableName.run s).handedOut.length < 2 ^ 31) :
    Refines (PoolCall.findAvailableName.run s) (Swam.wasmFindAvailableName names).2 := by
  have present := wasmFindAvailableName_keeps names refines.present
  have total := refines.total
  have bound := refines.few
  have used : names.usedNames.length + 1 < 2 ^ 31 := by
    rw [PoolCall.run, refines.handedOut, List.length_append] at few
    exact few
  rw [PoolCall.run, NamePool.wasmFindAvailableName]
  unfold Swam.wasmFindAvailableName at present ⊢
  split
  next empty =>
    -- all names are in use, so that the number of those made is theirs
    have none_ : names.freeNames = [] := refines.freeNames.symm.trans empty
    split at present
    next =>
      rw [none_, List.length_nil, Nat.zero_add] at total
      have made : s.names.makeName.1 = fuzzName names.nameCnt := by
        rw [NamePool.makeName, refines.nameCnt]
      -- the number of the new name is the counter, which has not come to its end
      constructor
      · have limit : names.nameCnt + 1 < 2 ^ 32 := by omega
        simp only [NamePool.makeName, NameGroup.makeName, BitVec.toNat_add, refines.nameCnt]
        exact Nat.mod_eq_of_lt limit
      · exact refines.freeNames
      · simp only [NamePool.makeName, NameGroup.makeName, refines.usedNames, refines.nameCnt]
      · rw [made, refines.handedOut]
        rfl
      · exact present
      · simp only [NameGroup.makeName, none_, List.length_append, List.length_nil,
          List.length_singleton]
        omega
      · simp only [NameGroup.makeName]
        omega
    next filled => rw [none_] at filled; cases filled
  next candidate rest filled =>
    have free : names.freeNames = candidate :: rest := refines.freeNames.symm.trans filled
    -- below its limit the count is positive when the list is not empty
    have counted : ¬ elementTotalCount s.names.freeNames ≤ 0 := by
      rw [refines.freeNames, elementTotalCount_eq (by omega), free, List.length_cons]
      omega
    rw [if_neg counted]
    split at present
    next empty => rw [free] at empty; cases empty
    next candidate' rest' filled' =>
      obtain ⟨rfl, rfl⟩ := List.cons.inj (free.symm.trans filled')
      constructor
      · exact refines.nameCnt
      · rfl
      · simp only [NameGroup.useName, refines.usedNames]
      · simp only [NameGroup.useName, refines.handedOut]
      · exact present
      · rw [free, List.length_cons] at total
        simp only [NameGroup.useName, List.length_append, List.length_singleton]
        omega
      · exact bound

/-- Within the limit of its count a reset moves all used names. -/
theorem wasmResetNameGrp (refines : Refines s names) :
    s.names.wasmResetNameGrp.nameCnt = s.names.nameCnt ∧
      s.names.wasmResetNameGrp.freeNames = s.names.freeNames ++ s.names.usedNames ∧
      s.names.wasmResetNameGrp.usedNames = [] := by
  have total := refines.total
  have bound := refines.few
  have count : elementTotalCount s.names.usedNames = s.names.usedNames.length :=
    elementTotalCount_eq (by rw [refines.usedNames]; omega)
  rw [NamePool.wasmResetNameGrp, count]
  split
  next => exact ⟨rfl, rfl, rfl⟩
  next none_ =>
    have empty : s.names.usedNames = [] := List.length_eq_zero_iff.mp (by omega)
    exact ⟨rfl, by rw [empty, List.append_nil], empty⟩

theorem resetNameGrp (refines : Refines s names) :
    Refines (PoolCall.resetNameGrp.run s) (Swam.wasmResetNameGrp names) := by
  obtain ⟨cnt, free, used⟩ := refines.wasmResetNameGrp
  constructor
  · rw [PoolCall.run, cnt]
    exact refines.nameCnt
  · rw [PoolCall.run, free, refines.freeNames, refines.usedNames]
    rfl
  · rw [PoolCall.run, used]
    rfl
  · rfl
  · intro n bound
    rw [Swam.wasmResetNameGrp, List.append_nil]
    exact refines.present n bound
  · simp only [Swam.wasmResetNameGrp, List.length_append, List.length_nil]
    exact refines.total
  · exact refines.few

theorem inOrder (refines : Refines s names) : PoolInOrder s := by
  obtain ⟨free, used, apart⟩ := List.nodup_append.mp names.distinct
  refine ⟨?_, ?_, ?_, ?_, ?_, refines.wasmResetNameGrp.2⟩
  · rw [refines.freeNames, refines.usedNames]
    intro name isFree isUsed
    exact apart name isFree name isUsed rfl
  · rw [refines.freeNames]
    exact free
  · rw [refines.usedNames]
    exact used
  · intro name
    rw [refines.freeNames, refines.usedNames, refines.nameCnt, ← List.mem_append]
    constructor
    · exact names.made name
    · rintro ⟨n, bound, rfl⟩
      exact refines.present n bound
  · rw [refines.handedOut]
    exact used

end Refines

/-- The calls since the last reset are those that handed out names. -/
theorem handedOut_suffix (calls : List PoolCall) :
    List.replicate (runPool calls).handedOut.length .findAvailableName <:+ calls := by
  induction calls using List.reverseRecOn with
  | nil => exact List.nil_suffix
  | append_singleton calls call ih =>
    rw [runPool_append]
    cases call with
    | findAvailableName =>
      obtain ⟨before, split⟩ := ih
      refine ⟨before, ?_⟩
      rw [PoolCall.run, List.length_append, List.length_singleton, List.replicate_succ',
        ← List.append_assoc, split]
    | resetNameGrp => exact List.nil_suffix

/-- There are never 2^31 names handed out without a reset. -/
def ResetsInTime (calls : List PoolCall) : Prop :=
  ¬ List.replicate (2 ^ 31) .findAvailableName <:+: calls

theorem ResetsInTime.few {calls : List PoolCall} (inTime : ResetsInTime calls) :
    (runPool calls).handedOut.length < 2 ^ 31 := by
  by_contra many
  apply inTime
  -- the last 2^31 of these calls are a stretch without a reset
  have fewer : List.replicate (2 ^ 31) PoolCall.findAvailableName <:+
      List.replicate (runPool calls).handedOut.length .findAvailableName :=
    ⟨List.replicate ((runPool calls).handedOut.length - 2 ^ 31) .findAvailableName, by
      rw [List.replicate_append_replicate, Nat.sub_add_cancel (by omega)]⟩
  exact (fewer.trans (handedOut_suffix calls)).isInfix

theorem Refines.run {calls : List PoolCall} (inTime : ResetsInTime calls) :
    ∃ names, Refines (runPool calls) names := by
  induction calls using List.reverseRecOn with
  | nil => exact ⟨_, .initial⟩
  | append_singleton calls call ih =>
    obtain ⟨names, refines⟩ :=
      ih fun many => inTime (many.trans (List.prefix_append _ _).isInfix)
    have few := inTime.few
    rw [runPool_append] at few ⊢
    cases call with
    | findAvailableName => exact ⟨_, refines.findAvailableName few⟩
    | resetNameGrp => exact ⟨_, refines.resetNameGrp⟩

/-- The pool is in order after any calls that reset it in time. -/
theorem name_pool_in_order {calls : List PoolCall} (inTime : ResetsInTime calls) :
    PoolInOrder (runPool calls) := by
  obtain ⟨_, refines⟩ := Refines.run inTime
  exact refines.inOrder

/-- Eleven names, one more than there are at first, a reset, and one name more. -/
theorem name_pool_in_order_twelve :
    PoolInOrder (runPool (List.replicate 11 .findAvailableName ++
      [.resetNameGrp, .findAvailableName])) := by
  apply name_pool_in_order
  intro many
  have short := many.length_le
  rw [List.length_replicate] at short
  exact absurd short (by decide)

/-! ## Beyond the limits -/

/-- Every call that hands out a name adds it to the used ones. -/
theorem length_usedNames (n : Nat) :
    (runPool (List.replicate n .findAvailableName)).names.usedNames.length = n ∧
      (runPool (List.replicate n .findAvailableName)).handedOut =
        (runPool (List.replicate n .findAvailableName)).names.usedNames := by
  induction n with
  | zero => exact ⟨rfl, rfl⟩
  | succ n ih =>
    obtain ⟨length, same⟩ := ih
    rw [List.replicate_succ', runPool_append]
    generalize runPool (List.replicate n .findAvailableName) = s at length same
    have appended : s.names.wasmFindAvailableName.2.usedNames =
        s.names.usedNames ++ [s.names.wasmFindAvailableName.1] := by
      rw [NamePool.wasmFindAvailableName]
      split
      · rfl
      · split <;> rfl
    rw [PoolCall.run, appended, same, List.length_append, length]
    exact ⟨rfl, rfl⟩

/-- A name carries a number that fits in the counter. -/
theorem names_made (n : Nat) :
    ∀ name ∈ (runPool (List.replicate n .findAvailableName)).names.freeNames ++
        (runPool (List.replicate n .findAvailableName)).names.usedNames,
      name ∈ (List.range (2 ^ 32)).map fuzzName := by
  induction n with
  | zero =>
    intro name (member : name ∈ (List.range 10).map fuzzName ++ [])
    rw [List.append_nil] at member
    obtain ⟨k, small, rfl⟩ := List.mem_map.mp member
    have small := List.mem_range.mp small
    exact List.mem_map_of_mem (List.mem_range.mpr (by omega))
  | succ n ih =>
    rw [List.replicate_succ', runPool_append]
    generalize runPool (List.replicate n .findAvailableName) = s at ih
    -- a name that is made has the value of the counter
    have made : ∀ name ∈ s.names.makeName.2.freeNames ++ s.names.makeName.2.usedNames,
        name ∈ (List.range (2 ^ 32)).map fuzzName := by
      intro name member
      rw [NamePool.makeName, ← List.append_assoc, List.mem_append, List.mem_singleton] at member
      rcases member with old | rfl
      · exact ih name old
      · exact List.mem_map_of_mem (List.mem_range.mpr s.names.nameCnt.isLt)
    rw [PoolCall.run, NamePool.wasmFindAvailableName]
    split
    · exact made
    next candidate rest filled =>
      split
      · exact made
      · intro name member
        apply ih
        rw [filled]
        simp only [List.mem_append, List.mem_cons, List.not_mem_nil, or_false] at member ⊢
        tauto

/-- Where 2^31 names are in use their count is negative, and a reset leaves them in use. After
2^32 names the counter starts again, and a name is handed out twice. -/
theorem name_pool_not_in_order :
    ¬ PoolInOrder (runPool (List.replicate (2 ^ 31) .findAvailableName)) ∧
      ¬ (runPool (List.replicate (2 ^ 32 + 1) .findAvailableName)).handedOut.Nodup := by
  constructor
  · intro inOrder
    obtain ⟨length, -⟩ := length_usedNames (2 ^ 31)
    have reset := inOrder.reset.2
    generalize runPool (List.replicate (2 ^ 31) .findAvailableName) = s at length reset
    have negative : ¬ 1 ≤ elementTotalCount s.names.usedNames := by
      rw [elementTotalCount, length]
      decide
    rw [NamePool.wasmResetNameGrp, if_neg negative] at reset
    rw [reset] at length
    exact absurd length (by decide)
  · intro distinct
    obtain ⟨length, same⟩ := length_usedNames (2 ^ 32 + 1)
    rw [same] at distinct
    -- there are no more names than numbers
    have numbered := distinct.subperm fun name used =>
      names_made (2 ^ 32 + 1) name (List.mem_append_right _ used)
    have few := numbered.length_le
    rw [length, List.length_map, List.length_range] at few
    exact absurd few (by decide)

end Swam
