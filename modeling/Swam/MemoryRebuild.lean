import Swam.Admissible

/-!
# Rebuilding the memory

A memory is changed by setting up a new one with copies of all data segments. The
copies agree with the segments as long as offsets and sizes pass through the 32 bits
they are read in, and as long as the offset constants get the type of an index.
-/
namespace Swam

open Binaryen

/-! ## Copies of segments -/

/-- The number an integer constant stands for. -/
def offsetValue : Literal → Nat
  | .i32 bits => bits.toNat
  | .i64 bits => bits.toNat
  | _ => 0

/-- The offset constant of a 32-bit offset. -/
def offsetConst (memory64 : Bool) (offset : Nat) : Literal :=
  if memory64 then .i64 (BitVec.ofNat 64 offset) else .i32 (BitVec.ofNat 32 offset)

/-- The copy of a segment that goes by its position. -/
def Segment.copy (seg : Segment) : Option SegmentCopy :=
  if seg.passive then some ⟨seg.name, true, none, seg.data⟩
  else (Segment.getByteOffset seg).map fun offset => ⟨seg.name, false, some offset, seg.data⟩

/-- A segment that its copy is, once placed in a memory of an index type. -/
def Segment.Survives (memory64 : Bool) (seg : Segment) : Prop :=
  seg.passive = true ∨
    ∃ offset, Segment.getByteOffset seg = some offset ∧
      seg.offset = some (offsetConst memory64 offset)

private theorem place_copy_iff {seg : Segment} (unplaced : seg.passive → seg.offset = none)
    (memory64 : Bool) :
    (∃ copy, Segment.copy seg = some copy ∧ copy.place memory64 = seg) ↔
      Segment.Survives memory64 seg := by
  obtain ⟨name, passive, offset, data⟩ := seg
  unfold Segment.copy Segment.Survives
  cases passive with
  | true =>
    cases unplaced rfl
    exact iff_of_true ⟨_, rfl, rfl⟩ (.inl rfl)
  | false =>
    constructor
    · rintro ⟨copy, copied, same⟩
      obtain ⟨read, found, rfl⟩ := Option.map_eq_some_iff.mp copied
      exact .inr ⟨read, found, (congrArg Segment.offset same).symm⟩
    · rintro (nonsense | ⟨read, found, placed⟩)
      · cases nonsense
      · refine ⟨_, Option.map_eq_some_iff.mpr ⟨read, found, rfl⟩, ?_⟩
        rw [show offset = _ from placed]
        rfl

/-- A memory of either index type holds the segments whose offset fits in 32 bits. -/
private theorem survives_iff_of_typed {seg : Segment} {is64 : Bool}
    (typed : ∀ offset, seg.offset = some offset → offset.ty = if is64 then .i64 else .i32) :
    Segment.Survives is64 seg ↔
      seg.passive = true ∨ ∃ offset, seg.offset = some offset ∧ offsetValue offset < 2 ^ 32 := by
  unfold Segment.Survives Segment.getByteOffset
  refine or_congr_right ?_
  cases placed : seg.offset with
  | none => simp
  | some offset =>
    have type := typed offset placed
    cases is64 with
    | false =>
      cases offset with
      | i32 bits => simp [offsetConst, offsetValue, bits.isLt]
      | _ => simp [Literal.ty] at type
    | true =>
      cases offset with
      | i64 bits =>
        simp only [Option.bind_some, Option.some.injEq, exists_eq_left', offsetConst, if_true,
          Literal.i64.injEq, offsetValue, toIndex]
        rw [← BitVec.toNat_inj, BitVec.toNat_ofNat]
        constructor
        · intro kept
          rw [kept]
          exact Nat.lt_of_le_of_lt (Nat.mod_le _ _) (Nat.mod_lt _ (by decide))
        · intro narrow
          rw [Nat.mod_eq_of_lt narrow, Nat.mod_eq_of_lt bits.isLt]
      | _ => simp [Literal.ty] at type

/-- A 32-bit offset constant is kept only where there was one before. -/
private theorem survives_false_iff {seg : Segment} :
    Segment.Survives false seg ↔ seg.passive = true ∨ ∃ bits, seg.offset = some (.i32 bits) := by
  unfold Segment.Survives Segment.getByteOffset
  refine or_congr_right ?_
  constructor
  · rintro ⟨offset, _, placed⟩
    exact ⟨_, placed⟩
  · rintro ⟨bits, placed⟩
    exact ⟨bits.toNat, by rw [placed]; rfl, by rw [placed]; simp [offsetConst]⟩

/-! ## Modules as read -/

def Memory.indexType (mem : Memory) : ValTy := if mem.is64 then .i64 else .i32

/-- A valid module of at most one memory, whose data segments go by their position as
after reading a binary without names. -/
structure Module.ReadBack (m : Module) : Prop where
  sole : m.memories.length ≤ 1
  limits : ∀ mem ∈ m.memories, ∀ pages, mem.initial = pages ∨ mem.max = some pages →
    pages ≤ if mem.is64 then 2 ^ 48 else 2 ^ 16
  named : ∀ (i : Nat) (seg : Segment), m.segments[i]? = some seg → seg.name = toString i
  passive : ∀ seg ∈ m.segments, seg.passive → seg.offset = none
  typed : ∀ seg ∈ m.segments, ∀ offset, seg.offset = some offset →
    ∃ mem ∈ m.memories, offset.ty = Memory.indexType mem

section Copies

variable {m : Module}

private theorem find?_named {segments : List Segment} {k : Nat}
    (named : ∀ (i : Nat) (seg : Segment), segments[i]? = some seg → seg.name = toString (k + i)) (i : Nat) :
    segments.find? (·.name = toString (k + i)) = segments[i]? := by
  induction segments generalizing k i with
  | nil => simp
  | cons seg segments ih =>
    have first : seg.name = toString k := named 0 seg rfl
    cases i with
    | zero => simp [first]
    | succ i =>
      have other : ¬ seg.name = toString (k + (i + 1)) := by
        rw [first]
        intro equal
        have := toString_nat_injective equal
        omega
      rw [List.find?_cons_of_neg (by simpa using other), List.getElem?_cons_succ,
        show k + (i + 1) = k + 1 + i by omega]
      refine ih (fun j seg here => ?_) i
      rw [named (j + 1) seg here, show k + (j + 1) = k + 1 + j by omega]

private theorem mapM_range {α β : Type} (f : α → Option β) (l : List α) :
    (List.range l.length).mapM (fun i => l[i]?.bind f) = l.mapM f := by
  induction l with
  | nil => rfl
  | cons a l ih =>
    rw [List.length_cons, List.range_succ_eq_map, List.mapM_cons, List.mapM_map, List.mapM_cons,
      ← ih]
    rfl

/-- Segments that go by their position are copied in order. -/
theorem copySegments_named (named : ∀ (i : Nat) (seg : Segment), m.segments[i]? = some seg → seg.name = toString i) :
    copySegments m = m.segments.mapM Segment.copy := by
  have each (i : Nat) : copySegment m i = m.segments[i]?.bind Segment.copy := by
    have found : m.getSegment (toString i) = m.segments[i]? := by
      simpa [Module.getSegment] using @find?_named m.segments 0 (by simpa using named) i
    rw [copySegment, found]
    cases here : m.segments[i]? with
    | none => rfl
    | some seg => rw [Option.bind_some, Option.bind_some, Segment.copy, named i seg here]
  rw [copySegments, funext each, mapM_range]

private theorem mapM_round_trip {α β : Type} (f : α → Option β) (g : β → α) (l : List α) :
    (∃ copies, l.mapM f = some copies ∧ copies.map g = l) ↔
      ∀ a ∈ l, ∃ b, f a = some b ∧ g b = a := by
  induction l with
  | nil => simp
  | cons a l ih =>
    rw [List.forall_mem_cons, ← ih]
    constructor
    · rintro ⟨copies, mapped, same⟩
      obtain ⟨b, head, rest, tail, rfl⟩ : ∃ b, f a = some b ∧ ∃ rest, l.mapM f = some rest ∧
          b :: rest = copies := by
        simpa [bind, Option.bind_eq_some_iff] using mapped
      obtain ⟨here, there⟩ := List.cons.inj same
      exact ⟨⟨b, head, here⟩, rest, tail, there⟩
    · rintro ⟨⟨b, head, here⟩, rest, tail, there⟩
      exact ⟨b :: rest, by simp [head, tail], by rw [List.map_cons, here, there]⟩

/-- The copies of all segments are these segments if and only if each survives. -/
theorem copySegments_place_iff (read : Module.ReadBack m) (memory64 : Bool) :
    (∃ copies, copySegments m = some copies ∧
        copies.map (SegmentCopy.place memory64) = m.segments) ↔
      ∀ seg ∈ m.segments, Segment.Survives memory64 seg := by
  rw [copySegments_named read.named, mapM_round_trip]
  exact forall₂_congr fun seg member => place_copy_iff (read.passive seg member) memory64

end Copies

/-! ## Sizes -/

/-- Sizes that pass through a 32-bit number, and through a signed one. -/
def Memory.Narrow (mem : Memory) : Prop :=
  mem.initial < 2 ^ 32 ∧ ∀ pages, mem.max = some pages → pages < 2 ^ 31

/-- Every active segment is placed at a constant below `2^32`. -/
def Module.NarrowOffsets (m : Module) : Prop :=
  ∀ seg ∈ m.segments, seg.passive = true ∨
    ∃ offset, seg.offset = some offset ∧ offsetValue offset < 2 ^ 32

/-- The segments come first and unchanged, their offsets still have the type of an
index, and the memory keeps its initial size, index type and declared maximum. -/
structure MemoryKept (m m' : Module) (added : List Segment) : Prop where
  segments : m'.segments = m.segments ++ added
  typed : ∀ seg ∈ m.segments, ∀ offset, seg.offset = some offset →
    ∃ mem ∈ m'.memories, offset.ty = Memory.indexType mem
  memory : ∀ mem ∈ m.memories, ∃ mem', m'.memories = [mem'] ∧ mem'.initial = mem.initial ∧
    mem'.is64 = mem.is64 ∧ ∀ pages, mem.max = some pages → mem'.max = some pages

section Rebuilding

variable {m : Module}

private theorem narrow_iff {mem : Memory} (limits : ∀ pages, mem.max = some pages → pages ≤ 2 ^ 48)
    {default : Nat} (segments : List Segment) (shared : Bool) (name : String) :
    (∃ mem', (m.setMemory mem.getInitial (mem.getMax.getD default) segments shared mem.is64
        name).memories = [mem'] ∧ mem'.initial = mem.initial ∧ mem'.is64 = mem.is64 ∧
        ∀ pages, mem.max = some pages → mem'.max = some pages) ↔ Memory.Narrow mem := by
  simp only [Module.setMemory, List.cons.injEq, and_true, exists_eq_left', true_and]
  refine and_congr (Nat.mod_eq_iff_lt (by decide)) (forall₂_congr fun pages declared => ?_)
  have bound := limits pages declared
  have read : mem.getMax.getD default = pages % 2 ^ 32 := by
    rw [Memory.getMax, declared]
    rfl
  simp only [read]
  split
  · simp only [reduceCtorEq, false_iff]
    omega
  · split <;> simp only [Option.some.injEq] <;> omega

namespace Module.ReadBack

variable (read : Module.ReadBack m)
include read

theorem memories : m.memories = [] ∨ ∃ mem, m.memories = [mem] := by
  have sole := read.sole
  rcases memories : m.memories with _ | ⟨mem, _ | ⟨other, rest⟩⟩
  · exact .inl rfl
  · exact .inr ⟨mem, rfl⟩
  · simp [memories] at sole

theorem max_le {mem : Memory} (member : mem ∈ m.memories) {pages : Nat}
    (declared : mem.max = some pages) : pages ≤ 2 ^ 48 := by
  have bound := read.limits mem member pages (.inr declared)
  split at bound <;> omega

theorem rebuilt_refl : MemoryKept m m [] := by
  refine ⟨(List.append_nil _).symm, read.typed, fun mem member => ?_⟩
  rcases read.memories with absent | ⟨mem', present⟩
  · rw [absent] at member
    cases member
  · rw [present, List.mem_singleton] at member
    subst member
    exact ⟨mem, present, rfl, rfl, fun _ => id⟩

/-- Setting up the memory a module has, over the given segments. -/
theorem rebuilt_present_iff {mem : Memory} (present : m.memories = [mem])
    {default : Nat} (placed added : List Segment) (shared : Bool) (name : String) :
    MemoryKept m (m.setMemory mem.getInitial (mem.getMax.getD default) (placed ++ added) shared
        mem.is64 name) added ↔ placed = m.segments ∧ Memory.Narrow mem := by
  have here : mem ∈ m.memories := by simp [present]
  have narrow := @narrow_iff m mem (fun _ => read.max_le here) default (placed ++ added) shared name
  constructor
  · intro rebuilt
    exact ⟨List.append_cancel_right rebuilt.segments, narrow.mp (rebuilt.memory mem here)⟩
  · rintro ⟨rfl, fits⟩
    refine ⟨rfl, ?_, ?_⟩
    · intro seg member offset placed
      obtain ⟨mem', member', type⟩ := read.typed seg member offset placed
      rw [present, List.mem_singleton] at member'
      subst member'
      exact ⟨_, List.mem_singleton_self _, type⟩
    · intro mem' member
      rw [present, List.mem_singleton] at member
      subst member
      exact narrow.mpr fits

/-- Setting up a first memory, over the given segments. -/
theorem rebuilt_absent_iff (absent : m.memories = []) {initial maximum : Nat}
    (placed added : List Segment) (shared memory64 : Bool) (name : String) :
    MemoryKept m (m.setMemory initial maximum (placed ++ added) shared memory64 name) added ↔
      placed = m.segments := by
  constructor
  · exact fun rebuilt => List.append_cancel_right rebuilt.segments
  · rintro rfl
    refine ⟨rfl, ?_, ?_⟩
    · intro seg member offset placed
      obtain ⟨mem, member', _⟩ := read.typed seg member offset placed
      rw [absent] at member'
      cases member'
    · intro mem member
      rw [absent] at member
      cases member

/-- Placed by the index type of the memory, the copies are the segments if and only if
the offsets are narrow. -/
theorem copies_iff {is64 : Bool} (index : ∀ mem ∈ m.memories, mem.is64 = is64) :
    (∃ copies, copySegments m = some copies ∧
      copies.map (SegmentCopy.place is64) = m.segments) ↔ Module.NarrowOffsets m := by
  rw [copySegments_place_iff read]
  refine forall₂_congr fun seg member => survives_iff_of_typed fun offset placed => ?_
  obtain ⟨mem, present, type⟩ := read.typed seg member offset placed
  rw [type, Memory.indexType, index mem present]

end Module.ReadBack

/-! ## The three rebuilds -/

private theorem rebuild_keeps_iff (read : Module.ReadBack m) (calloc : Bool)
    (initial maximum : Nat) (memory64 : Bool) (name : String) :
    (∃ done m', swamEnsureSharedMemory.rebuild calloc m initial maximum memory64 name =
        some (done, m') ∧ MemoryKept m m' []) ↔
      (calloc = false ∧ m.segments ≠ []) ∨ ∃ copies, copySegments m = some copies ∧
        MemoryKept m (m.setMemory initial maximum (copies.map (SegmentCopy.place memory64) ++ [])
          true memory64 name) [] := by
  unfold swamEnsureSharedMemory.rebuild
  split
  next refused =>
    exact iff_of_true ⟨_, _, rfl, read.rebuilt_refl⟩
      (.inl ⟨by simpa using refused.2, List.ne_nil_of_length_pos refused.1⟩)
  next allowed =>
    have noRefusal : ¬ (calloc = false ∧ m.segments ≠ []) := by
      rintro ⟨rfl, some_⟩
      exact allowed ⟨List.length_pos_of_ne_nil some_, by simp⟩
    rw [or_iff_right noRefusal]
    constructor
    · rintro ⟨done, m', rebuilt, kept⟩
      obtain ⟨copies, copied, equal⟩ := Option.map_eq_some_iff.mp rebuilt
      obtain ⟨_, rfl⟩ := Prod.mk.inj equal
      exact ⟨copies, copied, by rwa [List.append_nil]⟩
    · rintro ⟨copies, copied, kept⟩
      rw [List.append_nil] at kept
      rw [copied]
      exact ⟨_, _, rfl, kept⟩

/-- The exploit path keeps the memory it makes shared unless a number is cut. -/
theorem swamEnsureSharedMemory_keeps_iff (read : Module.ReadBack m) (calloc : Bool) :
    (∃ done m', swamEnsureSharedMemory calloc m = some (done, m') ∧ MemoryKept m m' []) ↔
      (∃ mem ∈ m.memories, mem.max.isSome ∧ mem.shared) ∨ (calloc = false ∧ m.segments ≠ []) ∨
        (∀ mem ∈ m.memories, Memory.Narrow mem) ∧ Module.NarrowOffsets m := by
  rcases read.memories with absent | ⟨mem, present⟩
  · have first : (swamGetMemoryName m).bind m.getMemory = none := by
      simp [swamGetMemoryName, absent]
    unfold swamEnsureSharedMemory
    rw [first]
    dsimp only
    rw [rebuild_keeps_iff read, 
      ← read.copies_iff (show ∀ mem ∈ m.memories, mem.is64 = false by simp [absent])]
    simp only [absent, List.not_mem_nil, false_and, exists_false, false_or, false_implies,
      implies_true, true_and]
    exact or_congr_right (exists_congr fun copies => and_congr_right fun _ =>
      read.rebuilt_absent_iff absent _ _ _ _ _)
  · have first := Module.getMemory_head (show m.memories.head? = some mem by simp [present])
    unfold swamEnsureSharedMemory
    rw [first]
    dsimp only
    have max : mem.getMax.isSome = mem.max.isSome := by simp [Memory.getMax]
    simp only [present, List.mem_singleton, exists_eq_left, forall_eq]
    split
    next shared =>
      exact iff_of_true ⟨_, _, rfl, read.rebuilt_refl⟩ (.inl ⟨by rw [← max]; exact shared.1, shared.2⟩)
    next replaced =>
      rw [max] at replaced
      rw [or_iff_right replaced, rebuild_keeps_iff read,
        ← read.copies_iff (show ∀ mem' ∈ m.memories, mem'.is64 = mem.is64 by simp [present])]
      refine or_congr_right ?_
      simp only [read.rebuilt_present_iff present]
      tauto

/-- The exploit path adds one passive byte and keeps the rest unless a number is cut. -/
theorem swamEnsurePassiveDataSegment_keeps_iff (read : Module.ReadBack m) (calloc : Bool) :
    (∃ m', swamEnsurePassiveDataSegment calloc m (swamGetMemoryName m) = some (true, m') ∧
        MemoryKept m m' [⟨swamBulkSegmentName, true, none, [0x42]⟩]) ↔
      (calloc = true ∧ m.hasMemory = true) ∧
        (∀ mem ∈ m.memories, Memory.Narrow mem) ∧ Module.NarrowOffsets m := by
  unfold swamEnsurePassiveDataSegment
  rcases read.memories with absent | ⟨mem, present⟩
  · simp [swamGetMemoryName, absent, Module.hasMemory]
  · rw [Module.getMemory_head (show m.memories.head? = some mem by simp [present])]
    cases calloc with
    | false => simp
    | true =>
      have has : m.hasMemory = true := by simp [Module.hasMemory, present]
      rw [← read.copies_iff (show ∀ mem' ∈ m.memories, mem'.is64 = mem.is64 by simp [present])]
      simp only [not_true_eq_false, if_false, has, and_self, true_and, present,
        List.mem_singleton, forall_eq]
      constructor
      · rintro ⟨m', rebuilt, kept⟩
        obtain ⟨copies, copied, equal⟩ := Option.map_eq_some_iff.mp rebuilt
        obtain ⟨_, rfl⟩ := Prod.mk.inj equal
        obtain ⟨same, narrow⟩ := (read.rebuilt_present_iff present _ _ _ _).mp kept
        exact ⟨narrow, copies, copied, same⟩
      · rintro ⟨narrow, copies, copied, same⟩
        rw [copied]
        exact ⟨_, rfl, (read.rebuilt_present_iff present _ _ _ _).mpr ⟨same, narrow⟩⟩

private theorem memorySettings_present {mem : Memory} (present : m.memories = [mem]) :
    memorySettings m =
      some (mem.getInitial, mem.getMax.getD (2 ^ 32 - 1), mem.shared, mem.is64) := by
  simp [memorySettings, Module.hasMemory, soleMemory, present]

private theorem memorySettings_absent (absent : m.memories = []) :
    memorySettings m = some (1, 2 ^ 32 - 1, false, false) := by
  simp [memorySettings, Module.hasMemory, absent]

/-- With its settings, the memory a mutation sets up is kept over any segments. -/
private theorem rebuilt_settings_iff (read : Module.ReadBack m) {initial maximum : Nat}
    {shared memory64 : Bool} (settings : memorySettings m = some (initial, maximum, shared, memory64))
    (placed added : List Segment) :
    MemoryKept m (m.setMemory initial maximum (placed ++ added) shared memory64 "0") added ↔
      placed = m.segments ∧ ∀ mem ∈ m.memories, Memory.Narrow mem := by
  rcases read.memories with absent | ⟨mem, present⟩
  · rw [read.rebuilt_absent_iff absent]
    simp [absent]
  · rw [memorySettings_present present] at settings
    cases settings
    rw [read.rebuilt_present_iff present]
    simp [present]

/-- Ordinary mutations make every offset a 32-bit constant, which keeps only the
segments of a 32-bit memory. -/
theorem wasmSetMemory_keeps_iff (read : Module.ReadBack m) (addSeg : Bool) (r : Rand) :
    (∃ m' r' added, wasmSetMemory m addSeg r = some (m', r') ∧ MemoryKept m m' added ∧
        (m.segments ≠ [] ∨ addSeg = false → added = [])) ↔
      (∀ mem ∈ m.memories, Memory.Narrow mem) ∧
        ∀ seg ∈ m.segments, seg.passive = true ∨ ∃ bits, seg.offset = some (.i32 bits) := by
  obtain ⟨initial, maximum, shared, memory64, settings⟩ : ∃ initial maximum shared memory64,
      memorySettings m = some (initial, maximum, shared, memory64) := by
    rcases read.memories with absent | ⟨mem, present⟩
    · exact ⟨_, _, _, _, memorySettings_absent absent⟩
    · exact ⟨_, _, _, _, memorySettings_present present⟩
  have kept := rebuilt_settings_iff read settings
  have survivors : (∀ seg ∈ m.segments, Segment.Survives false seg) ↔ _ :=
    forall₂_congr fun seg _ => survives_false_iff
  rw [← survivors, ← copySegments_place_iff read, wasmSetMemory, settings, Option.bind_some]
  dsimp only
  split
  next some_ =>
    have filled : m.segments ≠ [] := List.ne_nil_of_length_pos some_
    constructor
    · rintro ⟨m', r', added, rebuilt, keeps, none_⟩
      obtain ⟨copies, copied, equal⟩ := Option.map_eq_some_iff.mp rebuilt
      obtain ⟨rfl, rfl⟩ := Prod.mk.inj equal
      rw [none_ (.inl filled), ← List.append_nil (copies.map _)] at keeps
      obtain ⟨same, narrow⟩ := (kept _ []).mp keeps
      exact ⟨narrow, copies, copied, same⟩
    · rintro ⟨narrow, copies, copied, same⟩
      have keeps := (kept (copies.map (SegmentCopy.place false)) []).mpr ⟨same, narrow⟩
      rw [List.append_nil] at keeps
      exact ⟨_, _, [], by rw [copied]; rfl, keeps, fun _ => rfl⟩
  next none_ =>
    have empty : m.segments = [] := by simpa using none_
    have copied : ∃ copies, copySegments m = some copies ∧
        copies.map (SegmentCopy.place false) = m.segments :=
      (copySegments_place_iff read false).mpr (by simp [empty])
    rw [and_iff_left copied]
    have keeps (added : List Segment) :
        MemoryKept m (m.setMemory initial maximum added shared memory64 "0") added ↔
          ∀ mem ∈ m.memories, Memory.Narrow mem := by
      simpa [empty] using kept [] added
    cases addSeg with
    | false =>
      constructor
      · rintro ⟨m', r', added, rebuilt, held, none_⟩
        cases rebuilt
        rw [none_ (.inr rfl)] at held
        exact (keeps []).mp held
      · exact fun narrow => ⟨_, _, [], rfl, (keeps []).mpr narrow, fun _ => rfl⟩
    | true =>
      constructor
      · rintro ⟨m', r', added, rebuilt, held, _⟩
        cases rebuilt
        have same := held.segments
        rw [empty, List.nil_append] at same
        subst same
        exact (keeps _).mp held
      · intro narrow
        exact ⟨_, _, _, rfl, (keeps _).mpr narrow, by simp [empty]⟩

/-- The three rebuilds keep the segments and the memory of a module exactly when no
size or offset is cut to 32 bits; setting up a 64-bit memory for a mutation loses the
type of every offset. -/
theorem memory_rebuilds_keep_iff (read : Module.ReadBack m) (calloc addSeg : Bool) (r : Rand) :
    ((∃ done m', swamEnsureSharedMemory calloc m = some (done, m') ∧ MemoryKept m m' []) ↔
      (∃ mem ∈ m.memories, mem.max.isSome ∧ mem.shared) ∨ (calloc = false ∧ m.segments ≠ []) ∨
        (∀ mem ∈ m.memories, Memory.Narrow mem) ∧ Module.NarrowOffsets m) ∧
    ((∃ m', swamEnsurePassiveDataSegment calloc m (swamGetMemoryName m) = some (true, m') ∧
        MemoryKept m m' [⟨swamBulkSegmentName, true, none, [0x42]⟩]) ↔
      (calloc = true ∧ m.hasMemory = true) ∧
        (∀ mem ∈ m.memories, Memory.Narrow mem) ∧ Module.NarrowOffsets m) ∧
    ((∃ m' r' added, wasmSetMemory m addSeg r = some (m', r') ∧ MemoryKept m m' added ∧
        (m.segments ≠ [] ∨ addSeg = false → added = [])) ↔
      (∀ mem ∈ m.memories, Memory.Narrow mem) ∧
        ∀ seg ∈ m.segments, seg.passive = true ∨ ∃ bits, seg.offset = some (.i32 bits)) :=
  ⟨swamEnsureSharedMemory_keeps_iff read calloc,
    swamEnsurePassiveDataSegment_keeps_iff read calloc,
    wasmSetMemory_keeps_iff read addSeg r⟩

end Rebuilding

/-! ## A segment above 4 GiB -/

/-- A memory of two pages and one active segment of one byte. -/
def oneSegmentModule (is64 : Bool) (offset : Literal) : Module where
  functions := []
  globals := []
  exports := []
  memories := [⟨"0", 2, some 3, false, is64⟩]
  segments := [⟨"0", false, some offset, [0x61]⟩]
  tables := []
  features := []

private theorem oneSegmentModule_readBack {is64 : Bool} {offset : Literal}
    (typed : offset.ty = if is64 then .i64 else .i32) :
    Module.ReadBack (oneSegmentModule is64 offset) := by
  refine ⟨Nat.le_refl _, ?_, ?_, ?_, ?_⟩
  · intro mem member pages size
    rw [List.mem_singleton.mp member] at size ⊢
    cases is64 <;> simp at size ⊢ <;> omega
  · intro i seg here
    cases i with
    | zero => cases here; rfl
    | succ i => cases here
  · intro seg member passive
    rw [List.mem_singleton.mp member] at passive
    cases passive
  · intro seg member l placed
    rw [List.mem_singleton.mp member] at placed
    cases placed
    exact ⟨_, List.mem_singleton_self _, typed⟩

/-- A segment of a 32-bit memory survives all three rebuilds. -/
theorem memory_rebuilds_keep_memory32 :
    (∃ done m', swamEnsureSharedMemory true (oneSegmentModule false (.i32 0x80000000)) =
        some (done, m') ∧ MemoryKept (oneSegmentModule false (.i32 0x80000000)) m' []) ∧
    (∃ m', swamEnsurePassiveDataSegment true (oneSegmentModule false (.i32 0x80000000)) (some "0") =
        some (true, m') ∧ MemoryKept (oneSegmentModule false (.i32 0x80000000)) m'
          [⟨swamBulkSegmentName, true, none, [0x42]⟩]) ∧
    ∃ m' r' added, wasmSetMemory (oneSegmentModule false (.i32 0x80000000)) true ⟨fun _ => 0, 0⟩ =
        some (m', r') ∧ MemoryKept (oneSegmentModule false (.i32 0x80000000)) m' added ∧
      ((oneSegmentModule false (.i32 0x80000000)).segments ≠ [] ∨ true = false → added = []) := by
  have read : Module.ReadBack (oneSegmentModule false (.i32 0x80000000)) :=
    oneSegmentModule_readBack rfl
  obtain ⟨shared, passive, set⟩ := memory_rebuilds_keep_iff read true true ⟨fun _ => 0, 0⟩
  have narrow : ∀ mem ∈ (oneSegmentModule false (.i32 0x80000000)).memories, Memory.Narrow mem := by
    simp [oneSegmentModule, Memory.Narrow]
  have offsets : Module.NarrowOffsets (oneSegmentModule false (.i32 0x80000000)) := by
    simp [oneSegmentModule, Module.NarrowOffsets, offsetValue]
  exact ⟨shared.mpr (.inr (.inr ⟨narrow, offsets⟩)), passive.mpr ⟨⟨rfl, rfl⟩, narrow, offsets⟩,
    set.mpr ⟨narrow, by simp [oneSegmentModule]⟩⟩

/-- A segment at 4 GiB of a 64-bit memory moves to the start when the memory is made
shared or a passive segment is added, and gets a 32-bit offset from a mutation. -/
theorem memory_rebuilds_lose_memory64 :
    Module.ReadBack (oneSegmentModule true (.i64 0x100000000)) ∧
    ¬ (∃ done m', swamEnsureSharedMemory true (oneSegmentModule true (.i64 0x100000000)) =
        some (done, m') ∧ MemoryKept (oneSegmentModule true (.i64 0x100000000)) m' []) ∧
    ¬ (∃ m', swamEnsurePassiveDataSegment true (oneSegmentModule true (.i64 0x100000000)) (some "0") =
        some (true, m') ∧ MemoryKept (oneSegmentModule true (.i64 0x100000000)) m'
          [⟨swamBulkSegmentName, true, none, [0x42]⟩]) ∧
    ¬ ∃ m' r' added, wasmSetMemory (oneSegmentModule true (.i64 0x100000000)) true ⟨fun _ => 0, 0⟩ =
        some (m', r') ∧ MemoryKept (oneSegmentModule true (.i64 0x100000000)) m' added ∧
      ((oneSegmentModule true (.i64 0x100000000)).segments ≠ [] ∨ true = false → added = []) := by
  refine ⟨oneSegmentModule_readBack rfl, ?_, ?_, ?_⟩
  · rintro ⟨done, m', rebuilt, kept⟩
    cases rebuilt
    exact absurd kept.segments (by decide)
  · rintro ⟨m', rebuilt, kept⟩
    cases rebuilt
    exact absurd kept.segments (by decide)
  · rintro ⟨m', r', added, rebuilt, kept, none_⟩
    cases rebuilt
    rw [none_ (.inl (by decide))] at kept
    exact absurd kept.segments (by decide)

end Swam
