import Swam.FreshNames
import Swam.Operands
import Swam.RecurseSound

/-!
# One instruction is well typed

The instructions of a group take the operands and leave the results that the group says, and
`wasmGenerateOneSimpleExpr` builds a well-typed one from operands of these types. What it needs
to refer to is there, or it is added. A memory that is set up takes the place of the one before
it under the name `0`; so memories are known here by the names that code may use for them.
-/
namespace Swam

open Binaryen Lib

/-! ## What an instruction takes and leaves -/

/-- Operand types, first operand first. -/
def InstrTy.required : InstrTy → List ValTy
  | .const _ | .memorySize | .nop | .dataDrop | .refNull _ | .refFunc | .tableSize => []
  | .load .. | .memoryGrow | .tableGet _ => [.i32]
  | .store ty _ | .tableSet ty => [.i32, ty]
  | .unary op | .binary op | .simdExtract op | .simdReplace op | .simdTernary op
  | .simdShift op => op.operands
  | .simdLoad op | .simdLoadStoreLane op => .i32 :: op.operands.tail
  | .simdShuffle => [.v128, .v128]
  | .select ty => [ty, ty, .i32]
  | .drop ty | .refIsNull ty => [ty]
  | .memoryInit | .memoryCopy | .memoryFill => [.i32, .i32, .i32]
  | .tableGrow ty => [ty, .i32]

/-- Result types; an instruction leaves one value at most. -/
def InstrTy.produced : InstrTy → List ValTy
  | .load ty _ _ | .const ty | .select ty | .refNull ty | .tableGet ty => [ty]
  | .unary op | .binary op | .simdExtract op | .simdReplace op | .simdTernary op
  | .simdShift op | .simdLoad op | .simdLoadStoreLane op => op.results
  | .simdShuffle => [.v128]
  | .refFunc => [.funcref]
  | .memorySize | .memoryGrow | .refIsNull _ | .tableSize | .tableGrow _ => [.i32]
  | .store .. | .drop _ | .nop | .memoryInit | .dataDrop | .memoryCopy | .memoryFill
  | .tableSet _ => []

/-- A constant is a number, and only a reference can be null. -/
def InstrTy.suits : InstrTy → Bool
  | .const ty => ty.top = ty && ty ≠ .externref && ty ≠ .funcref
  | .refNull ty | .refIsNull ty => ty = .funcref || ty = .externref
  | _ => true

/-- The groups list their instructions under the right types. -/
theorem groups_typed : ∀ grp ∈ wasmInitInstrGrps, ∀ inst ∈ grp.groups,
    inst.required = grp.required ∧ inst.produced = grp.produced ∧ inst.suits = true := by
  decide +kernel

/-! ## Modules that instructions can refer to -/

/-- Names are those of one entity, a number that names an entity is below their count, and there
is a function to refer to. -/
structure NamesReady (m : Module) : Prop where
  functions : m.functions ≠ []
  functionsDistinct : (functionNames m).Nodup
  globalsDistinct : (globalNames m).Nodup
  tablesDistinct : (tableNames m).Nodup
  globalNumerals : NumeralsBelow (globalNames m)
  tableNumerals : NumeralsBelow (tableNames m)
  globals : ∀ g ∈ m.globals, g.ty ≠ .unreachable

/-- A 32-bit memory or none, under one of some names. Data segments that come before any memory
can be copied into a new one. -/
structure MemoryReady (mems : List String) (m : Module) : Prop where
  sole : m.memories.length ≤ 1
  named : ∀ mem ∈ m.memories, mem.name ∈ mems ∧ mem.is64 = false
  renamed : m.memories = [] ∨ m.segments = [] → "0" ∈ mems
  copyable : m.memories = [] → (copySegments m).isSome

/-- The second module has all the entities of the first. -/
structure ModuleExtends (m m' : Module) : Prop where
  functions : m'.functions = m.functions
  globals : m.globals <+: m'.globals
  tables : m.tables <+: m'.tables
  memory : m.hasMemory = true → m'.hasMemory = true

theorem ModuleExtends.refl (m : Module) : ModuleExtends m m := ⟨rfl, List.prefix_rfl, List.prefix_rfl, id⟩

theorem ModuleExtends.trans {m m' m'' : Module} (first : ModuleExtends m m')
    (second : ModuleExtends m' m'') : ModuleExtends m m'' :=
  ⟨second.functions.trans first.functions, first.globals.trans second.globals,
    first.tables.trans second.tables, fun present => second.memory (first.memory present)⟩

theorem ModuleExtends.of_adds {m m' : Module} (adds : AddsTable m m')
    (memory : m.hasMemory = true → m'.hasMemory = true) : ModuleExtends m m' where
  functions := adds.functions
  globals := adds.globals ▸ List.prefix_rfl
  tables := by
    obtain same | ⟨t, _, _, added⟩ := adds.tables
    · exact same ▸ List.prefix_rfl
    · exact added ▸ List.prefix_append _ _
  memory := memory

/-! ## Looking names up -/

private theorem find?_of_nodup {α : Type} {name : α → String} {xs : List α} {x : α}
    (distinct : (xs.map name).Nodup) (member : x ∈ xs) :
    xs.find? (fun y => decide (name y = name x)) = some x := by
  induction xs with
  | nil => cases member
  | cons y ys ih =>
    rw [List.map_cons, List.nodup_cons] at distinct
    rw [List.find?_cons]
    rcases List.mem_cons.mp member with rfl | later
    · simp
    · have apart : name y ≠ name x := by
        intro equal
        exact distinct.1 (equal ▸ List.mem_map_of_mem later)
      simpa [apart] using ih distinct.2 later

private theorem find?_of_prefix {α : Type} {name : α → String} {xs ys : List α} {x : α} {key : String}
    (before : xs <+: ys) (found : xs.find? (fun y => decide (name y = key)) = some x) :
    ys.find? (fun y => decide (name y = key)) = some x := by
  obtain ⟨more, rfl⟩ := before
  rw [List.find?_append, found]
  rfl

/-- A signature in which code that refers to the entities of a module is typed. -/
structure SigCovers (mems : List String) (sig : Signature) (m : Module) : Prop where
  functions : ∀ {name x}, m.signature.functions name = some x → sig.functions name = some x
  globals : ∀ {name x}, m.signature.globals name = some x → sig.globals name = some x
  tables : ∀ {name x}, m.signature.tables name = some x → sig.tables name = some x
  memories : m.hasMemory = true → ∀ name ∈ mems, sig.memories name = some false

theorem SigCovers.of_extends {mems : List String} {sig : Signature} {m m' : Module}
    (covers : SigCovers mems sig m') (grown : ModuleExtends m m') : SigCovers mems sig m where
  functions := by
    intro name x known
    apply covers.functions
    rw [← known]
    simp only [Module.signature, Module.getFunction, grown.functions]
  globals := by
    intro name x known
    obtain ⟨g, found, equal⟩ := Option.map_eq_some_iff.mp known
    exact covers.globals (Option.map_eq_some_iff.mpr ⟨g, find?_of_prefix grown.globals found, equal⟩)
  tables := by
    intro name x known
    obtain ⟨t, found, equal⟩ := Option.map_eq_some_iff.mp known
    exact covers.tables (Option.map_eq_some_iff.mpr ⟨t, find?_of_prefix grown.tables found, equal⟩)
  memories := fun present => covers.memories (grown.memory present)

section
variable {mems : List String} {sig : Signature} {m : Module} (covers : SigCovers mems sig m)
  (ready : NamesReady m)
include covers ready

theorem SigCovers.function {f : Func} (member : f ∈ m.functions) :
    sig.functions f.name = some (f.params, f.results) :=
  covers.functions (Option.map_eq_some_iff.mpr ⟨f, find?_of_nodup ready.functionsDistinct member, rfl⟩)

theorem SigCovers.global {g : Global} (member : g ∈ m.globals) :
    sig.globals g.name = some (g.ty, g.mutable_) :=
  covers.globals (Option.map_eq_some_iff.mpr ⟨g, find?_of_nodup ready.globalsDistinct member, rfl⟩)

theorem SigCovers.table {t : Table} (member : t ∈ m.tables) : sig.tables t.name = some t.ty :=
  covers.tables (Option.map_eq_some_iff.mpr ⟨t, find?_of_nodup ready.tablesDistinct member, rfl⟩)

end

/-! ## What keeps a module ready -/

private theorem nodup_append_number {names : List String} (distinct : names.Nodup)
    (below : NumeralsBelow names) : (names ++ [toString names.length]).Nodup :=
  distinct.append (List.nodup_singleton _) (List.disjoint_singleton.mpr below.free)

theorem NamesReady.adds {m m' : Module} (ready : NamesReady m) (adds : AddsTable m m') :
    NamesReady m' := by
  have numbered := NamesNumbered.of_adds adds
  have sameFunctions : functionNames m' = functionNames m := by
    rw [functionNames, adds.functions, functionNames]
  have sameGlobals : globalNames m' = globalNames m := by
    rw [globalNames, adds.globals, globalNames]
  refine ⟨adds.functions ▸ ready.functions, sameFunctions ▸ ready.functionsDistinct,
    sameGlobals ▸ ready.globalsDistinct, ?_, sameGlobals ▸ ready.globalNumerals,
    numbered.tables.below ready.tableNumerals, adds.globals ▸ ready.globals⟩
  obtain same | ⟨t, name, _, added⟩ := adds.tables
  · rw [tableNames, same]
    exact ready.tablesDistinct
  · have names : tableNames m' = tableNames m ++ [toString (tableNames m).length] := by
      simp [tableNames, added, name]
    rw [names]
    exact nodup_append_number ready.tablesDistinct ready.tableNumerals

theorem NamesReady.addGlobal {m : Module} (ready : NamesReady m) {g : Global}
    (number : g.name = toString m.globals.length) (value : g.ty ≠ .unreachable) :
    NamesReady (m.addGlobal g) := by
  have numbered := NamesNumbered.of_addGlobal number
  have names : globalNames (m.addGlobal g) = globalNames m ++ [toString (globalNames m).length] := by
    simp [globalNames, Module.addGlobal, number]
  refine ⟨ready.functions, ready.functionsDistinct, ?_, ready.tablesDistinct,
    numbered.globals.below ready.globalNumerals, ready.tableNumerals, ?_⟩
  · rw [names]
    exact nodup_append_number ready.globalsDistinct ready.globalNumerals
  · intro h member
    rcases List.mem_append.mp member with old | new
    · exact ready.globals h old
    · rw [List.mem_singleton.mp new]
      exact value

/-- What setting up the memory of a module comes to. -/
structure MemorySet (mems : List String) (m m' : Module) : Prop where
  ready : MemoryReady mems m'
  present : m'.hasMemory = true
  adds : AddsTable m m'

section Memory

variable {mems : List String} {m : Module} (ready : MemoryReady mems m)
include ready

theorem MemoryReady.memoryName_mem (present : m.hasMemory = true) : memoryName m ∈ mems := by
  unfold memoryName soleMemory
  have sole := ready.sole
  have named := ready.named
  match memories : m.memories with
  | [] => simp [Module.hasMemory, memories] at present
  | [mem] =>
    rw [memories] at named
    exact (named mem (List.mem_singleton_self _)).1
  | _ :: _ :: _ =>
    rw [memories] at sole
    simp at sole

private theorem MemoryReady.settings : ∃ initial maximum shared,
    memorySettings m = some (initial, maximum, shared, false) := by
  unfold memorySettings soleMemory
  have sole := ready.sole
  have named := ready.named
  match memories : m.memories with
  | [] => simp [Module.hasMemory, memories]
  | [mem] =>
    rw [memories] at named
    simp [Module.hasMemory, memories, (named mem (List.mem_singleton_self _)).2]
  | _ :: _ :: _ =>
    rw [memories] at sole
    simp at sole

/-- A memory is set up where there is none, or where no segment would be lost. -/
theorem wasmSetMemory_ready (absent : m.memories = [] ∨ m.segments = []) (addSeg : Bool) (r : Rand) :
    ∃ m' r', wasmSetMemory m addSeg r = some (m', r') ∧ MemorySet mems m m' := by
  obtain ⟨initial, maximum, shared, settings⟩ := ready.settings
  have zero := ready.renamed absent
  have after : ∀ segments,
      MemorySet mems m (m.setMemory initial maximum segments shared false "0") := by
    intro segments
    refine ⟨⟨Nat.le_refl _, ?_, fun _ => zero, fun empty => nomatch empty⟩, rfl, rfl, rfl, .inl rfl⟩
    intro mem member
    rw [List.mem_singleton.mp member]
    exact ⟨zero, rfl⟩
  unfold wasmSetMemory
  rw [settings, Option.bind_some]
  dsimp only
  split
  next some_ =>
    have empty : m.memories = [] := absent.resolve_right (List.ne_nil_of_length_pos some_)
    obtain ⟨segments, copied⟩ := Option.isSome_iff_exists.mp (ready.copyable empty)
    rw [copied]
    exact ⟨_, _, rfl, after _⟩
  next =>
    split
    · exact ⟨_, _, rfl, after _⟩
    · exact ⟨_, _, rfl, after []⟩

theorem ensureMemory_ready (r : Rand) :
    ∃ m' r', ensureMemory m r = some (m', r') ∧ MemorySet mems m m' := by
  unfold ensureMemory
  split
  next present => exact ⟨m, r, rfl, ready, present, .refl m⟩
  next absent =>
    have empty : m.memories = [] := by simpa [Module.hasMemory] using absent
    exact wasmSetMemory_ready ready (.inl empty) false r

end Memory

/-- What building an instruction does to a module. -/
structure Supplied (mems : List String) (m m' : Module) : Prop where
  adds : AddsTable m m'
  memory : MemoryReady mems m'
  present : m.hasMemory = true → m'.hasMemory = true

namespace Supplied

variable {mems : List String} {m m' : Module}

theorem refl (memory : MemoryReady mems m) : Supplied mems m m := ⟨.refl m, memory, id⟩

theorem grown (supplied : Supplied mems m m') : ModuleExtends m m' :=
  .of_adds supplied.adds supplied.present

end Supplied

theorem MemorySet.supplied {mems : List String} {m m' : Module} (set : MemorySet mems m m') :
    Supplied mems m m' :=
  ⟨set.adds, set.ready, fun _ => set.present⟩

section Tables

variable {mems : List String} {m : Module} (ready : NamesReady m) (memory : MemoryReady mems m)

theorem chooseTable_mem {ty : ValTy} {tables : List Table} {target : Option Table} {r r' : Rand}
    {table : Table} (chosen : chooseTable ty tables target r = (some table, r'))
    (right : ∀ t ∈ target, t.ty = ty) :
    (table ∈ tables ∨ target = some table) ∧ table.ty = ty := by
  induction tables generalizing target r with
  | nil =>
    cases chosen
    exact ⟨.inr rfl, right table rfl⟩
  | cons t rest ih =>
    have later : ∀ {target' : Option Table} {q : Rand},
        chooseTable ty rest target' q = (some table, r') →
        (target' = some t ∧ t.ty = ty ∨ target' = target) →
        (table ∈ t :: rest ∨ target = some table) ∧ table.ty = ty := by
      intro target' q chosen next
      have right' : ∀ u ∈ target', u.ty = ty := by
        rcases next with ⟨rfl, same⟩ | rfl
        · rintro u ⟨⟩
          exact same
        · exact right
      obtain ⟨among, typed⟩ := ih chosen right'
      refine ⟨?_, typed⟩
      rcases among with inside | equal
      · exact .inl (List.mem_cons_of_mem _ inside)
      · rcases next with ⟨first, _⟩ | same
        · cases first.symm.trans equal
          exact .inl List.mem_cons_self
        · exact .inr (same ▸ equal)
    rw [chooseTable] at chosen
    split at chosen
    next same =>
      split at chosen
      · exact later chosen (.inl ⟨rfl, same⟩)
      · dsimp only at chosen
        split at chosen
        · exact later chosen (.inl ⟨rfl, same⟩)
        · exact later chosen (.inr rfl)
    · exact later chosen (.inr rfl)

/-- A table under the next number can be added when no table has that name. -/
private theorem addNumberedTable_supplied (memory : MemoryReady mems m)
    (free : Gen.tableNameTaken m = false) (ty : ValTy) :
    ∃ table m', addNumberedTable m ty = some (table, m') ∧ Supplied mems m m' ∧
      table ∈ m'.tables ∧ table.ty = ty := by
  have added : addNumberedTable m ty = some (⟨toString m.tables.length, 0x10, none, ty⟩,
      m.addTable ⟨toString m.tables.length, 0x10, none, ty⟩) := by
    have absent : ¬ m.tables.any (·.name = toString m.tables.length) = true :=
      Bool.eq_false_iff.mp free
    exact if_neg absent
  refine ⟨_, _, added, ⟨addNumberedTable_adds added, ?_, id⟩, ?_, rfl⟩
  · exact ⟨memory.sole, memory.named, memory.renamed, memory.copyable⟩
  · exact List.mem_append_right _ (List.mem_singleton_self _)

include ready in
private theorem NamesReady.tableFree : Gen.tableNameTaken m = false := by
  have free := ready.tableNumerals.free
  rw [tableNames, List.length_map] at free
  rw [Gen.tableNameTaken, List.any_eq_false]
  intro t member equal
  exact free (of_decide_eq_true equal ▸ List.mem_map_of_mem member)

include ready memory in
theorem findTable_supplied (ty : ValTy) (r : Rand) :
    ∃ table m' r', findTable m ty r = some (table, m', r') ∧ Supplied mems m m' ∧
      table ∈ m'.tables ∧ table.ty = ty := by
  unfold findTable
  split
  next table r' chosen =>
    obtain ⟨among, typed⟩ := chooseTable_mem chosen (by simp)
    exact ⟨table, m, r', rfl, .refl memory, among.resolve_right (by simp), typed⟩
  next r' _ =>
    obtain ⟨table, m', added, supplied, member, typed⟩ :=
      addNumberedTable_supplied memory ready.tableFree ty
    exact ⟨table, m', r', by rw [added]; rfl, supplied, member, typed⟩

include ready memory in
theorem anyTable_supplied (r : Rand) :
    ∃ table m' r', anyTable m r = some (table, m', r') ∧ Supplied mems m m' ∧
      table ∈ m'.tables := by
  unfold anyTable
  split
  next =>
    obtain ⟨table, m', added, supplied, member, _⟩ := addNumberedTable_supplied memory
      ready.tableFree (if (randBelow 2 r).1 ≠ 0 then .funcref else .externref)
    refine ⟨table, m', (randBelow 2 r).2, ?_, supplied, member⟩
    dsimp only
    rw [added]
    rfl
  next some_ =>
    have bound := randBelow_lt (Nat.pos_of_ne_zero some_) r
    refine ⟨m.tables[(randBelow m.tables.length r).1], m, (randBelow m.tables.length r).2, ?_,
      .refl memory, List.getElem_mem bound⟩
    simp [List.getElem?_eq_getElem bound]

end Tables

/-! ## Operands -/

theorem fits_strictTy (declared : Ty) (ts : List (Option Ty)) :
    Fits (some (strictTy declared ts).top) declared := by
  unfold strictTy
  split
  · exact .inl rfl
  · exact .inr rfl

theorem Binaryen.Fits.present {e : Expr} {want : Ty} (fits : Fits e.top? want) : e.isNull = false := by
  cases e with
  | null =>
    rcases fits with stuck | value
    · cases stuck
    · cases value
  | node _ _ => rfl

private theorem presentChildren_eq {child : List Expr} {wants : List Ty}
    (fits : FitsAll (child.map Expr.top?) wants) : presentChildren child = child := by
  rw [presentChildren, List.filter_eq_self]
  intro c member
  obtain ⟨want, _, fits⟩ := exists_of_mem_left fits (List.mem_map_of_mem member)
  simp [Binaryen.Fits.present fits]

section Picking

variable {child : List Expr} {wants : List Ty} (fits : FitsAll (child.map Expr.top?) wants)
include fits

/-- Operands that are all there are picked in their order. -/
theorem pickOne_eq (one : child.length = 1) : [pickOne child] = child := by
  rw [pickOne, presentChildren_eq fits]
  match child with
  | [a] => rfl

theorem pickTwo_eq (two : child.length = 2) : pickTwo child = child := by
  rw [pickTwo, presentChildren_eq fits]
  match child with
  | [a, b] => rfl

theorem pickThree_eq (three : child.length = 3) : pickThree child = child := by
  rw [pickThree, presentChildren_eq fits]
  match child with
  | [a, b, c] => rfl

end Picking

/-! ## The instruction -/

/-- What is built is of the type the instruction leaves, and well typed over well-typed operands
wherever the entities of the module are known. -/
structure Built (mems : List String) (m : Module) (inst : InstrTy) (child : List Expr) (e : Expr) :
    Prop where
  fits : Fits e.top? (.vals inst.produced)
  valid : ∀ S : Scope, SigCovers mems S.sig m → (∀ c ∈ child, Valid S c) → Valid S e

private theorem Built.node {mems : List String} {m : Module} {inst : InstrTy} {child : List Expr}
    {k : Kind} (type : Fits (some (k.ty (child.map Expr.ty?)).top) (.vals inst.produced))
    (typed : ∀ S : Scope, SigCovers mems S.sig m → k.Typed S (child.map Expr.top?))
    (scope : ∀ S : Scope, S.enter k = S) : Built mems m inst child (.node k child) := by
  refine ⟨Expr.top?_node k child ▸ type, ?_⟩
  intro S covers valid
  refine .node (typed S covers) ?_
  rw [scope S]
  exact valid

/-- An instruction on the memory. -/
private theorem Built.memory {mems : List String} {m m' : Module} {inst : InstrTy}
    {child : List Expr} {k : Kind} (set : MemorySet mems m m')
    (type : Fits (some (k.ty (child.map Expr.ty?)).top) (.vals inst.produced))
    (typed : ∀ S : Scope, S.sig.memories (memoryName m') = some false → k.Typed S (child.map Expr.top?))
    (scope : ∀ S : Scope, S.enter k = S) : Built mems m' inst child (.node k child) :=
  .node type
    (fun S covers => typed S (covers.memories set.present _ (set.ready.memoryName_mem set.present)))
    scope

theorem wasmGenerateOneSimpleExpr_built {mems : List String} {m : Module} (ready : NamesReady m)
    (memory : MemoryReady mems m) {inst : InstrTy} (suits : inst.suits = true) {child : List Expr}
    (length : child.length = inst.operandCount)
    (fits : FitsAll (child.map Expr.top?) (inst.required.map .one)) (r : Rand) :
    ∃ e m' r', wasmGenerateOneSimpleExpr m inst child r = some (e, m', r') ∧ Supplied mems m m' ∧
      Built mems m' inst child e := by
  have bare : inst.operandCount = 0 → child = [] := fun zero =>
    List.length_eq_zero_iff.mp (length.trans zero)
  cases inst with
  | unary op | simdExtract op =>
    refine ⟨_, m, _, rfl, .refl memory, ?_⟩
    rw [pickOne_eq fits length]
    exact .node (fits_strictTy _ _) (fun S _ => ⟨_, rfl, fits⟩) fun _ => rfl
  | binary op | simdReplace op | simdShift op =>
    refine ⟨_, m, _, rfl, .refl memory, ?_⟩
    rw [pickTwo_eq fits length]
    exact .node (fits_strictTy _ _) (fun S _ => ⟨_, rfl, fits⟩) fun _ => rfl
  | simdShuffle =>
    refine ⟨_, m, _, rfl, .refl memory, ?_⟩
    rw [pickTwo_eq fits length]
    exact .node (fits_strictTy _ _) (fun S _ => ⟨_, rfl, fits⟩) fun _ => rfl
  | simdTernary op =>
    refine ⟨_, m, _, rfl, .refl memory, ?_⟩
    rw [pickThree_eq fits length]
    exact .node (fits_strictTy _ _) (fun S _ => ⟨_, rfl, fits⟩) fun _ => rfl
  | nop =>
    cases bare rfl
    exact ⟨_, m, r, rfl, .refl memory, .node (.inr rfl) (fun S _ => ⟨_, rfl, fits⟩) fun _ => rfl⟩
  | load | simdLoad | memoryGrow =>
    obtain ⟨m', r', ensured, set⟩ := ensureMemory_ready memory r
    refine ⟨_, m', _, by rw [wasmGenerateOneSimpleExpr, ensured]; rfl, set.supplied, ?_⟩
    rw [pickOne_eq fits length]
    refine .memory set (fits_strictTy _ _) ?_ fun _ => rfl
    intro S known
    exact ⟨_, by simp only [Kind.operands?, known]; rfl, fits⟩
  | store | simdLoadStoreLane =>
    obtain ⟨m', r', ensured, set⟩ := ensureMemory_ready memory r
    refine ⟨_, m', _, by rw [wasmGenerateOneSimpleExpr, ensured]; rfl, set.supplied, ?_⟩
    rw [pickTwo_eq fits length]
    refine .memory set (fits_strictTy _ _) ?_ fun _ => rfl
    intro S known
    exact ⟨_, by simp only [Kind.operands?, known]; rfl, fits⟩
  | memoryCopy | memoryFill =>
    obtain ⟨m', r', ensured, set⟩ := ensureMemory_ready memory r
    refine ⟨_, m', _, by rw [wasmGenerateOneSimpleExpr, ensured]; rfl, set.supplied, ?_⟩
    rw [pickThree_eq fits length]
    refine .memory set (fits_strictTy _ _) ?_ fun _ => rfl
    intro S known
    exact ⟨_, by simp only [Kind.operands?, known]; rfl, fits⟩
  | memorySize =>
    cases bare rfl
    obtain ⟨m', r', ensured, set⟩ := ensureMemory_ready memory r
    refine ⟨_, m', _, by rw [wasmGenerateOneSimpleExpr, ensured]; rfl, set.supplied, ?_⟩
    refine .memory set (.inr rfl) ?_ fun _ => rfl
    intro S known
    exact ⟨_, by simp only [Kind.operands?, known]; rfl, fits⟩
  | memoryInit =>
    -- a memory is set up unless there is one and a segment as well
    have supplied : ∃ m' r', (if !m.hasMemory || m.segments.length = 0 then wasmSetMemory m true r
        else some (m, r)) = some (m', r') ∧ MemorySet mems m m' := by
      split
      next missing =>
        refine wasmSetMemory_ready memory ?_ true r
        simpa [Module.hasMemory] using missing
      next there =>
        have present : m.hasMemory = true := by
          simp only [Bool.or_eq_true, not_or, Bool.not_eq_true'] at there
          simpa using there.1
        exact ⟨m, r, rfl, memory, present, .refl m⟩
    obtain ⟨m', r', ensured, set⟩ := supplied
    refine ⟨_, m', _, by rw [wasmGenerateOneSimpleExpr, ensured]; rfl, set.supplied, ?_⟩
    rw [pickThree_eq fits length]
    refine .memory set (fits_strictTy _ _) ?_ fun _ => rfl
    intro S known
    exact ⟨_, by simp only [Kind.operands?, known]; rfl, fits⟩
  | dataDrop =>
    cases bare rfl
    have supplied : ∃ m' r', (if m.segments.length = 0 then wasmSetMemory m true r
        else some (m, r)) = some (m', r') ∧ Supplied mems m m' := by
      split
      next none_ =>
        obtain ⟨m', r', made, set⟩ := wasmSetMemory_ready memory
          (.inr (List.length_eq_zero_iff.mp none_)) true r
        exact ⟨m', r', made, set.supplied⟩
      · exact ⟨m, r, rfl, .refl memory⟩
    obtain ⟨m', r', made, supplied⟩ := supplied
    refine ⟨_, m', _, by rw [wasmGenerateOneSimpleExpr, made]; rfl, supplied, ?_⟩
    exact .node (.inr rfl) (fun S _ => ⟨_, rfl, fits⟩) fun _ => rfl
  | const ty =>
    cases bare rfl
    simp only [InstrTy.suits, Bool.and_eq_true, decide_eq_true_eq, ne_eq] at suits
    obtain ⟨value, r', drawn, typed⟩ := randLiteral_spec r suits.1.1 suits.1.2 suits.2
    refine ⟨_, m, _, by rw [wasmGenerateOneSimpleExpr, drawn]; rfl, .refl memory, ?_⟩
    refine .node (.inr ?_) (fun S _ => ⟨_, rfl, fits⟩) fun _ => rfl
    simp [Kind.ty, typed, Ty.one, InstrTy.produced]
  | refNull ty =>
    cases bare rfl
    refine ⟨_, m, r, rfl, .refl memory, ?_⟩
    have reference : ty = .funcref ∨ ty = .externref := by simpa [InstrTy.suits] using suits
    rcases reference with rfl | rfl
    · exact .node (.inr rfl) (fun S _ => ⟨_, rfl, fits⟩) fun _ => rfl
    · exact .node (.inr rfl) (fun S _ => ⟨_, rfl, fits⟩) fun _ => rfl
  | refFunc =>
    cases bare rfl
    have bound := randBelow_lt (List.length_pos_of_ne_nil ready.functions) r
    have drawn := List.getElem?_eq_getElem bound
    refine ⟨_, m, (randBelow m.functions.length r).2,
      by simp only [wasmGenerateOneSimpleExpr, drawn]; rfl, .refl memory, ?_⟩
    refine .node (.inr rfl) ?_ fun _ => rfl
    intro S covers
    have known := covers.function ready (List.getElem_mem bound)
    exact ⟨_, by simp only [Kind.operands?, known]; rfl, fits⟩
  | select ty =>
    refine ⟨_, m, r, rfl, .refl memory, ?_⟩
    rw [pickThree_eq fits length]
    refine .node (fits_strictTy _ _) ?_ fun _ => rfl
    intro S _
    obtain ⟨a, b, c, rfl⟩ := List.length_eq_three.mp length
    obtain _ | ⟨first, _ | ⟨second, _ | ⟨third, _⟩⟩⟩ := fits
    refine ⟨_, _, _, rfl, ⟨ty, first⟩, ⟨ty, second⟩, third, ?_⟩
    intro reachable
    simp only [anyUnreachable, List.map_cons, List.map_nil, List.any_cons, List.any_nil,
      Bool.or_false, Bool.or_eq_false_iff, decide_eq_false_iff_not] at reachable
    exact ⟨first.resolve_left reachable.1, second.resolve_left reachable.2.1⟩
  | drop ty =>
    refine ⟨_, m, r, rfl, .refl memory, ?_⟩
    rw [pickOne_eq fits length]
    refine .node (fits_strictTy _ _) ?_ fun _ => rfl
    intro S _
    obtain ⟨a, rfl⟩ := List.length_eq_one_iff.mp length
    obtain _ | ⟨stuck | value, _⟩ := fits
    · exact ⟨.unreachable, by rw [List.map_singleton, stuck], by intro h; cases h⟩
    · exact ⟨(Ty.one ty).top, by rw [List.map_singleton, value], by intro h; cases h⟩
  | refIsNull ty =>
    refine ⟨_, m, r, rfl, .refl memory, ?_⟩
    rw [pickOne_eq fits length]
    refine .node (fits_strictTy _ _) ?_ fun _ => rfl
    intro S _
    have reference : ty = .funcref ∨ ty = .externref := by simpa [InstrTy.suits] using suits
    obtain ⟨a, rfl⟩ := List.length_eq_one_iff.mp length
    obtain _ | ⟨operand, _⟩ := fits
    refine ⟨_, rfl, ?_⟩
    rcases reference with rfl | rfl
    · exact .inl operand
    · exact .inr operand
  | tableGet ty =>
    obtain ⟨table, m', r', found, supplied, member, typed⟩ := findTable_supplied ready memory ty r
    refine ⟨_, m', _, by rw [wasmGenerateOneSimpleExpr, found]; rfl, supplied, ?_⟩
    rw [pickOne_eq fits length]
    refine .node (fits_strictTy _ _) ?_ fun _ => rfl
    intro S covers
    have known := covers.table (ready.adds supplied.adds) member
    exact ⟨_, by simp only [Kind.operands?, known, typed, Option.bind_some, if_true]; rfl, fits⟩
  | tableSet ty | tableGrow ty =>
    obtain ⟨table, m', r', found, supplied, member, typed⟩ := findTable_supplied ready memory ty r
    refine ⟨_, m', _, by rw [wasmGenerateOneSimpleExpr, found]; rfl, supplied, ?_⟩
    rw [pickTwo_eq fits length]
    refine .node (fits_strictTy _ _) ?_ fun _ => rfl
    intro S covers
    have known := covers.table (ready.adds supplied.adds) member
    exact ⟨_, by simp only [Kind.operands?, known, typed]; rfl, fits⟩
  | tableSize =>
    cases bare rfl
    obtain ⟨table, m', r', found, supplied, member⟩ := anyTable_supplied ready memory r
    refine ⟨_, m', _, by rw [wasmGenerateOneSimpleExpr, found]; rfl, supplied, ?_⟩
    refine .node (fits_strictTy _ _) ?_ fun _ => rfl
    intro S covers
    have known := covers.table (ready.adds supplied.adds) member
    exact ⟨_, by simp only [Kind.operands?, known]; rfl, fits⟩

end Swam
