import Swam.OperatorTyping

/-!
# A new node for another operator

Where the expression kinds differ, an instruction is built over the operands of the old one. What
it needs is set up before. The module keeps what it had then, unless a memory is set up in the
place of another one that had a different name.
-/
namespace Swam

open Binaryen Lib

/-! ## The memory -/

/-- The module has one memory, and the memory it had before has the same name and width. -/
structure MemoryGiven (m m' : Module) (mem : Memory) : Prop where
  sole : m'.memories = [mem]
  fresh : m.memories = [] → mem.name = "0" ∧ mem.is64 = false
  same : ∀ old ∈ m.memories, old.name = mem.name ∧ old.is64 = mem.is64

namespace MemoryGiven

variable {m m' : Module} {mem : Memory} (given : MemoryGiven m m' mem)
include given

theorem known : m'.signature.memories mem.name = some mem.is64 := by
  simp [Module.signature, Module.getMemory, given.sole]

theorem memoryName_eq : memoryName m' = mem.name := by
  simp [memoryName, soleMemory, given.sole]

theorem memories_le {name : String} {is64 : Bool} (before : m.signature.memories name = some is64) :
    m'.signature.memories name = some is64 := by
  obtain ⟨old, found, rfl⟩ := Option.map_eq_some_iff.mp before
  obtain ⟨sameName, sameWidth⟩ := given.same old (List.mem_of_find?_eq_some found)
  have named : old.name = name := by simpa using List.find?_some found
  rw [← named, sameName, sameWidth]
  exact given.known

/-- A memory that was known before is this one. -/
theorem width_eq {name : String} {is64 : Bool} (before : m.signature.memories name = some is64) :
    mem.is64 = is64 := by
  obtain ⟨old, found, rfl⟩ := Option.map_eq_some_iff.mp before
  exact (given.same old (List.mem_of_find?_eq_some found)).2.symm

end MemoryGiven

theorem wasmSetMemory_given {m m' : Module} {addSeg : Bool} {r r' : Rand}
    (set : wasmSetMemory m addSeg r = some (m', r')) (named : ∀ mem ∈ m.memories, mem.name = "0") :
    ∃ mem, MemoryGiven m m' mem := by
  obtain ⟨⟨initial, maximum, shared, is64⟩, settings, set⟩ := Option.bind_eq_some_iff.mp set
  have width : (m.memories = [] → is64 = false) ∧ ∀ old ∈ m.memories, old.is64 = is64 := by
    unfold memorySettings soleMemory Module.hasMemory at settings
    match memories : m.memories with
    | [] => simp_all
    | [mem] => simp_all
    | _ :: _ :: _ => simp [memories] at settings
  have after : ∀ segments, ∃ mem,
      MemoryGiven m (m.setMemory initial maximum segments shared is64 "0") mem :=
    fun segments => ⟨_, rfl, fun none => ⟨rfl, width.1 none⟩, fun old member => ⟨named old member, width.2 old member⟩⟩
  dsimp only at set
  split at set
  · obtain ⟨segments, _, equal⟩ := Option.map_eq_some_iff.mp set
    cases equal
    exact after _
  · split at set <;>
    · cases set
      exact after _

theorem given_of_memory {m : Module} (sole : m.memories.length ≤ 1) (present : m.hasMemory = true) :
    ∃ mem, MemoryGiven m m mem := by
  match memories : m.memories with
  | [] => simp [Module.hasMemory, memories] at present
  | [mem] => exact ⟨mem, memories, by simp [memories], by simp [memories]⟩
  | _ :: _ :: _ => simp [memories] at sole

theorem ensureMemory_given {m m' : Module} {r r' : Rand}
    (ensured : ensureMemory m r = some (m', r')) (sole : m.memories.length ≤ 1) :
    ∃ mem, MemoryGiven m m' mem := by
  unfold ensureMemory at ensured
  split at ensured
  next present =>
    cases ensured
    exact given_of_memory sole present
  next absent =>
    have empty : m.memories = [] := by simpa [Module.hasMemory] using absent
    exact wasmSetMemory_given ensured (by simp [empty])

theorem anyTable_spec {m m' : Module} {table : Table} {r r' : Rand}
    (found : anyTable m r = some (table, m', r')) : m'.memories = m.memories ∧ table ∈ m'.tables := by
  unfold anyTable addNumberedTable at found
  dsimp only at found
  split at found
  · obtain ⟨_, added, equal⟩ := Option.map_eq_some_iff.mp found
    cases equal
    obtain ⟨_, ⟨⟩⟩ := Option.ite_none_left_eq_some.mp added
    exact ⟨rfl, List.mem_append_right _ (List.mem_singleton_self _)⟩
  · obtain ⟨_, here, equal⟩ := Option.map_eq_some_iff.mp found
    cases equal
    exact ⟨rfl, List.mem_of_getElem? here⟩

/-- What an instruction of another expression kind needs of the memories. -/
structure Rebuildable (m : Module) (k : Kind) (inst new : InstrTy) : Prop where
  -- the memory is not named when there are several
  sole : new.usesMemory = true → m.memories.length ≤ 1
  -- the groups have 32-bit pointers
  narrow : ¬ (inst.isAccess = true ∧ new.isAccess = true) → ∀ mem ∈ m.memories, mem.is64 = true →
    mem.name ∉ k.memoryNames ∧ new.usesMemory = false
  -- data segments come with a memory of that name
  named : new = .memoryInit ∨ new = .dataDrop → m.segments = [] → ∀ mem ∈ m.memories, mem.name = "0"

/-- The memory is there afterwards, or it is not touched. -/
theorem simpleExpr_memory {m m' : Module} {k : Kind} {inst new : InstrTy} {child : List Expr} {e : Expr}
    {r r' : Rand} (built : wasmGenerateOneSimpleExpr m new child r = some (e, m', r'))
    (shared : new.isShared = true) (rebuildable : Rebuildable m k inst new) :
    (new.usesMemory = false ∧ m'.memories = m.memories) ∨ ∃ mem, MemoryGiven m m' mem := by
  cases new with
  | load | store | memorySize | memoryGrow | simdLoad | simdLoadStoreLane | memoryCopy | memoryFill =>
    obtain ⟨_, here, equal⟩ := Option.map_eq_some_iff.mp built
    cases equal
    exact .inr (ensureMemory_given here (rebuildable.sole rfl))
  | memoryInit =>
    obtain ⟨_, here, equal⟩ := Option.map_eq_some_iff.mp built
    cases equal
    split at here
    next missing =>
      refine .inr (wasmSetMemory_given here ?_)
      simp only [Bool.or_eq_true, Bool.not_eq_true', Module.hasMemory, Bool.not_eq_false',
        List.isEmpty_iff, decide_eq_true_eq, List.length_eq_zero_iff] at missing
      rcases missing with none | bare
      · simp [none]
      · exact rebuildable.named (.inl rfl) bare
    next there =>
      cases here
      refine .inr (given_of_memory (rebuildable.sole rfl) ?_)
      by_contra absent
      simp [absent] at there
  | dataDrop =>
    obtain ⟨_, here, equal⟩ := Option.map_eq_some_iff.mp built
    cases equal
    split at here
    next bare =>
      exact .inr (wasmSetMemory_given here
        (rebuildable.named (.inr rfl) (List.length_eq_zero_iff.mp bare)))
    next =>
      cases here
      exact .inl ⟨rfl, rfl⟩
  | tableSize =>
    obtain ⟨_, here, equal⟩ := Option.map_eq_some_iff.mp built
    cases equal
    exact .inl ⟨rfl, (anyTable_spec here).1⟩
  | const ty | refFunc =>
    obtain ⟨_, _, equal⟩ := Option.map_eq_some_iff.mp built
    cases equal
    exact .inl ⟨rfl, rfl⟩
  | tableGet _ | tableSet _ | tableGrow _ => cases shared
  | _ =>
    cases built
    exact .inl ⟨rfl, rfl⟩

/-- Everything that could be referred to can be referred to afterwards. -/
theorem signature_le {m m' : Module} (adds : AddsTable m m')
    (memory : m'.memories = m.memories ∨ ∃ mem, MemoryGiven m m' mem) :
    m.signature.Le m'.signature := by
  have present : m.hasMemory = true → m'.hasMemory = true := by
    intro before
    rcases memory with same | ⟨mem, given⟩
    · rw [Module.hasMemory, same]
      exact before
    · simp [Module.hasMemory, given.sole]
  have own : SigCovers [] m'.signature m' := ⟨id, id, id, fun _ _ absent => absurd absent List.not_mem_nil⟩
  have rest := own.of_extends (.of_adds adds present)
  refine ⟨rest.functions, rest.globals, ?_, rest.tables⟩
  intro name is64 known
  rcases memory with same | ⟨mem, given⟩
  · rw [← known]
    simp only [Module.signature, Module.getMemory, same]
  · exact given.memories_le known

/-- Some function or table of a module answers to the name of each. -/
theorem function_known {m : Module} {f : Func} (member : f ∈ m.functions) :
    ∃ x, m.signature.functions f.name = some x := by
  have found : (m.functions.find? (·.name = f.name)).isSome = true :=
    List.find?_isSome.mpr ⟨f, member, by simp⟩
  obtain ⟨g, here⟩ := Option.isSome_iff_exists.mp found
  exact ⟨_, Option.map_eq_some_iff.mpr ⟨g, here, rfl⟩⟩

theorem table_known {m : Module} {t : Table} (member : t ∈ m.tables) :
    ∃ x, m.signature.tables t.name = some x := by
  have found : (m.tables.find? (·.name = t.name)).isSome = true :=
    List.find?_isSome.mpr ⟨t, member, by simp⟩
  obtain ⟨u, here⟩ := Option.isSome_iff_exists.mp found
  exact ⟨_, Option.map_eq_some_iff.mpr ⟨u, here, rfl⟩⟩

/-! ## The instruction -/

/-- The kind of a new node over the operands of the old one. -/
structure BuiltOver (m' : Module) (new : InstrTy) (child : List Expr) (k' : Kind) : Prop where
  range : k'.InRange
  plain : k'.isAtomic = false
  type : (k'.ty (child.map Expr.ty?)).top = (strictTy (.vals new.produced) (child.map Expr.ty?)).top
  typed : ∀ S : Scope, S.sig = m'.signature → k'.Typed S (child.map Expr.top?)

theorem simpleExpr_typed {m m' : Module} {new : InstrTy} {child : List Expr} {e : Expr} {r r' : Rand}
    {is64 : Bool} (built : wasmGenerateOneSimpleExpr m new child r = some (e, m', r'))
    (shared : new.isShared = true) (length : child.length = new.operandCount)
    (fits : FitsAll (child.map Expr.top?) (new.wants is64))
    (width : new.usesMemory = true → m'.signature.memories (memoryName m') = some is64)
    (narrow : new.isAccess = false → is64 = false) :
    ∃ k', e = .node k' child ∧ BuiltOver m' new child k' := by
  have bare : new.operandCount = 0 → child = [] := fun zero =>
    List.length_eq_zero_iff.mp (length.trans zero)
  cases new with
  | unary op =>
    cases built
    rw [pickOne_eq fits length]
    exact ⟨_, rfl, trivial, rfl, rfl, fun _ _ => ⟨_, rfl, fits⟩⟩
  | simdExtract op =>
    cases built
    rw [pickOne_eq fits length]
    exact ⟨_, rfl, randBelow_lt op.lanes_pos r, rfl, rfl, fun _ _ => ⟨_, rfl, fits⟩⟩
  | binary op | simdShift op =>
    cases built
    rw [pickTwo_eq fits length]
    exact ⟨_, rfl, trivial, rfl, rfl, fun _ _ => ⟨_, rfl, fits⟩⟩
  | simdReplace op =>
    cases built
    rw [pickTwo_eq fits length]
    exact ⟨_, rfl, randBelow_lt op.lanes_pos r, rfl, rfl, fun _ _ => ⟨_, rfl, fits⟩⟩
  | simdShuffle =>
    cases built
    rw [pickTwo_eq fits length]
    exact ⟨_, rfl, randMask_inRange 16 r, rfl, rfl, fun _ _ => ⟨_, rfl, fits⟩⟩
  | simdTernary op =>
    cases built
    rw [pickThree_eq fits length]
    exact ⟨_, rfl, trivial, rfl, rfl, fun _ _ => ⟨_, rfl, fits⟩⟩
  | nop =>
    cases built
    cases bare rfl
    exact ⟨_, rfl, trivial, rfl, rfl, fun _ _ => ⟨_, rfl, fits⟩⟩
  | load ty bytes signed =>
    obtain ⟨_, _, equal⟩ := Option.map_eq_some_iff.mp built
    cases equal
    rw [pickOne_eq fits length]
    have moved := List.contains_iff_mem.mp shared
    refine ⟨_, rfl, ⟨moved, randAlign_aligned (ValTy.widths_pos moved) _, nofun⟩, rfl, rfl, ?_⟩
    exact fun S same => ⟨_, by simp only [Kind.operands?, same, width rfl]; rfl, fits⟩
  | store ty bytes =>
    obtain ⟨_, _, equal⟩ := Option.map_eq_some_iff.mp built
    cases equal
    rw [pickTwo_eq fits length]
    have moved := List.contains_iff_mem.mp shared
    refine ⟨_, rfl, ⟨moved, randAlign_aligned (ValTy.widths_pos moved) _⟩, rfl, rfl, ?_⟩
    exact fun S same => ⟨_, by simp only [Kind.operands?, same, width rfl]; rfl, fits⟩
  | simdLoad op =>
    obtain ⟨_, _, equal⟩ := Option.map_eq_some_iff.mp built
    cases equal
    rw [pickOne_eq fits length]
    refine ⟨_, rfl, randAlign_aligned op.bytes_pos _, rfl, rfl, ?_⟩
    exact fun S same => ⟨_, by simp only [Kind.operands?, same, width rfl]; rfl, fits⟩
  | simdLoadStoreLane op =>
    obtain ⟨_, _, equal⟩ := Option.map_eq_some_iff.mp built
    cases equal
    rw [pickTwo_eq fits length]
    refine ⟨_, rfl, ⟨randAlign_aligned op.bytes_pos _, randBelow_lt op.lanes_pos _⟩, rfl, rfl, ?_⟩
    exact fun S same => ⟨_, by simp only [Kind.operands?, same, width rfl]; rfl, fits⟩
  | memoryGrow =>
    obtain ⟨_, _, equal⟩ := Option.map_eq_some_iff.mp built
    cases equal
    cases narrow rfl
    rw [pickOne_eq fits length]
    refine ⟨_, rfl, trivial, rfl, rfl, ?_⟩
    exact fun S same => ⟨_, by simp only [Kind.operands?, same, width rfl]; rfl, fits⟩
  | memorySize =>
    obtain ⟨_, _, equal⟩ := Option.map_eq_some_iff.mp built
    cases equal
    cases narrow rfl
    cases bare rfl
    refine ⟨_, rfl, trivial, rfl, rfl, ?_⟩
    exact fun S same => ⟨_, by simp only [Kind.operands?, same, width rfl]; rfl, fits⟩
  | memoryInit | memoryCopy | memoryFill =>
    obtain ⟨_, _, equal⟩ := Option.map_eq_some_iff.mp built
    cases equal
    cases narrow rfl
    rw [pickThree_eq fits length]
    refine ⟨_, rfl, trivial, rfl, rfl, ?_⟩
    exact fun S same => ⟨_, by simp only [Kind.operands?, same, width rfl]; rfl, fits⟩
  | dataDrop =>
    obtain ⟨_, _, equal⟩ := Option.map_eq_some_iff.mp built
    cases equal
    cases bare rfl
    exact ⟨_, rfl, trivial, rfl, rfl, fun _ _ => ⟨_, rfl, fits⟩⟩
  | const ty =>
    cases of_decide_eq_true shared
    cases built
    cases bare rfl
    exact ⟨_, rfl, trivial, rfl, rfl, fun _ _ => ⟨_, rfl, fits⟩⟩
  | refNull ty =>
    cases of_decide_eq_true shared
    cases built
    cases bare rfl
    exact ⟨_, rfl, trivial, rfl, rfl, fun _ _ => ⟨_, rfl, fits⟩⟩
  | refFunc =>
    obtain ⟨f, drawn, equal⟩ := Option.map_eq_some_iff.mp built
    cases equal
    cases bare rfl
    refine ⟨_, rfl, trivial, rfl, rfl, ?_⟩
    intro S same
    obtain ⟨x, known⟩ := function_known (List.mem_of_getElem? drawn)
    exact ⟨_, by simp only [Kind.operands?, same, known]; rfl, fits⟩
  | tableSize =>
    obtain ⟨⟨table, _, _⟩, found, equal⟩ := Option.map_eq_some_iff.mp built
    cases equal
    cases bare rfl
    refine ⟨_, rfl, trivial, rfl, rfl, ?_⟩
    intro S same
    obtain ⟨x, known⟩ := table_known (anyTable_spec found).2
    exact ⟨_, by simp only [Kind.operands?, same, known]; rfl, fits⟩
  | select _ | drop _ | refIsNull _ | tableGet _ | tableSet _ | tableGrow _ => cases shared

/-! ## One instruction for another -/

section
variable {m m' : Module} {S : Scope} {k : Kind} {cs : List Expr} {inst new : InstrTy} {r r' : Rand}
  {e : Expr} (rebuildable : Rebuildable m k inst new) (sig : S.sig = m.signature)
include rebuildable sig

/-- Unless both are accesses, the memories that the old instruction names have 32-bit pointers. -/
private theorem named_narrow (apart : ¬ (inst.isAccess = true ∧ new.isAccess = true)) :
    ∀ name ∈ k.memoryNames, S.sig.memories name ≠ some true := by
  intro name member wide
  rw [sig] at wide
  obtain ⟨mem, found, width⟩ := Option.map_eq_some_iff.mp wide
  have named : mem.name = name := by simpa using List.find?_some found
  have absent := (rebuildable.narrow apart mem (List.mem_of_find?_eq_some found) width).1
  rw [named] at absent
  exact absent member

omit sig in
/-- And the memory that the new one uses has. -/
private theorem given_narrow {mem : Memory} (given : MemoryGiven m m' mem)
    (apart : ¬ (inst.isAccess = true ∧ new.isAccess = true)) (uses : new.usesMemory = true) :
    mem.is64 = false := by
  by_contra wide
  cases memories : m.memories with
  | nil => simp [(given.fresh memories).2] at wide
  | cons old rest =>
    have member : old ∈ m.memories := by simp [memories]
    have width : old.is64 = true := by simpa [(given.same old member).2] using wide
    have unused := (rebuildable.narrow apart old member width).2
    rw [uses] at unused
    cases unused

theorem rebuilt_typed (typed : k.Typed S (cs.map Expr.top?))
    (here : wasmGetInstrType (.node k cs) = some inst)
    (shared : inst.isShared = true) (shared' : new.isShared = true)
    (takes : inst.required = new.required) (length : cs.length = new.operandCount)
    (built : wasmGenerateOneSimpleExpr m new cs r = some (e, m', r')) :
    m.signature.Le m'.signature ∧ ∃ k', e = .node k' cs ∧ BuiltOver m' new cs k' := by
  have memory := simpleExpr_memory built shared' rebuildable
  have uses : new.usesMemory = true → ∃ mem, MemoryGiven m m' mem := by
    intro uses
    rcases memory with ⟨unused, _⟩ | given
    · rw [uses] at unused
      cases unused
    · exact given
  refine ⟨signature_le (wasmGenerateOneSimpleExpr_adds built) (memory.imp_left And.right), ?_⟩
  obtain ⟨is64, fits, accessed⟩ := operands_fit typed here shared fun plain =>
    named_narrow rebuildable sig (by simp [plain])
  by_cases both : inst.isAccess = true ∧ new.isAccess = true
  · -- one memory, whatever its width
    rw [InstrTy.wants_eq takes (.inl both)] at fits
    refine simpleExpr_typed built shared' length fits ?_ ?_
    · intro used
      obtain ⟨mem, given⟩ := uses used
      obtain ⟨name, _, known⟩ := accessed both.1
      rw [sig] at known
      rw [given.memoryName_eq, given.known, given.width_eq known]
    · intro plain
      rw [both.2] at plain
      cases plain
  · have narrow : inst.wants is64 = new.wants false := by
      rw [← InstrTy.wants_eq takes (.inr rfl)]
      cases access : inst.isAccess with
      | false => simp [InstrTy.wants, access]
      | true =>
        obtain ⟨name, member, known⟩ := accessed access
        rw [narrow_of (named_narrow rebuildable sig both) member known]
    rw [narrow] at fits
    refine simpleExpr_typed built shared' length fits ?_ fun _ => rfl
    intro used
    obtain ⟨mem, given⟩ := uses used
    rw [given.memoryName_eq, given.known, given_narrow rebuildable given both used]

end

end Swam
