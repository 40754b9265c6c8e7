import Mathlib.Data.List.Nodup
import Swam.Helpers

/-!
# Reading and writing the children of a node

Binaryen keeps the children of a node in the members of its class, and in a list where
their number varies. `wasm_get_children_expr` reads the members in one case table,
`wasm_set_children_expr` writes them in another. The two name the members in the same
order, so that they form a lens: what is written at an index is read back there, and
nowhere else.
-/
namespace Swam

open Binaryen

/-! ## Nodes with their members -/

/-- A member that holds a child: one of the list, or a member of its own. -/
inductive Binaryen.Slot where
  | item (index : Nat)
  | condition | ifTrue | ifFalse
  | body | value | target | ptr
  | left | right | delta
  | vec | shift | a | b | c
  | dest | source | offset | size
  | index | tuple
  | expected | replacement | timeout | notifyCount
  deriving DecidableEq, Repr

/-- A node in Binaryen's memory, with the length of its list. -/
structure Binaryen.Node where
  kind : Kind
  count : Nat
  slot : Slot → Expr

namespace Binaryen.Node

def write (p : Node) (s : Slot) (child : Expr) : Node :=
  { p with slot := Function.update p.slot s child }

/-- The list of a node, in order. -/
def items (count : Nat) : List Slot := (List.range count).map .item

/-- The members that hold the children, in the order in which they are evaluated. -/
def slots : Kind → Nat → List Slot
  | .block _ _, count | .call _ _, count | .tupleMake, count | .throw _, count
  | .other _ _, count => items count
  | .callIndirect _ _ _, count => items count ++ [.target]
  | .try_ .., count => .body :: items count
  | .if_, _ => [.condition, .ifTrue, .ifFalse]
  | .loop _, _ => [.body]
  | .break_ _, _ | .switch _ _, _ => [.value, .condition]
  | .localSet _, _ | .localTee _ _, _ | .globalSet _, _ | .unary _, _ | .drop, _ | .return_, _
  | .refIsNull, _ => [.value]
  | .load .., _ | .simdLoad .., _ => [.ptr]
  | .store .., _ | .atomicRMW .., _ => [.ptr, .value]
  | .binary _, _ | .simdShuffle _, _ => [.left, .right]
  | .select _, _ => [.ifTrue, .ifFalse, .condition]
  | .memoryGrow _ _, _ => [.delta]
  | .simdExtract _ _, _ => [.vec]
  | .simdReplace _ _, _ => [.vec, .value]
  | .simdTernary _, _ => [.a, .b, .c]
  | .simdShift _, _ => [.vec, .shift]
  | .simdLoadStoreLane .., _ => [.ptr, .vec]
  | .memoryInit _ _, _ => [.dest, .offset, .size]
  | .memoryCopy _ _, _ => [.dest, .source, .size]
  | .memoryFill _, _ => [.dest, .value, .size]
  | .tableGet _ _, _ => [.index]
  | .tableSet _, _ => [.index, .value]
  | .tableGrow _, _ => [.value, .delta]
  | .tupleExtract _, _ => [.tuple]
  | .atomicCmpxchg .., _ => [.ptr, .expected, .replacement]
  | .atomicWait .., _ => [.ptr, .expected, .timeout]
  | .atomicNotify .., _ => [.ptr, .notifyCount]
  | .localGet _ _, _ | .globalGet _ _, _ | .const _, _ | .memorySize _ _, _ | .nop, _
  | .unreachable, _ | .atomicFence, _ | .dataDrop _, _ | .refNull _, _ | .refFunc _ _, _
  | .tableSize _, _ | .rethrow _, _ | .pop _, _ => []

/-- The expression a node stands for. -/
def toExpr (p : Node) : Expr := .node p.kind ((slots p.kind p.count).map p.slot)

/-- `wasm_get_children_expr`, with the memory it asks for. -/
def wasmGetChildrenExpr (parent : Node) : List Expr :=
  match parent.kind with
  | .block _ _ | .call _ _ | .tupleMake =>
    (List.range parent.count).map fun ind => parent.slot (.item ind)
  | .if_ => [parent.slot .condition, parent.slot .ifTrue, parent.slot .ifFalse]
  | .loop _ => [parent.slot .body]
  | .break_ _ => [parent.slot .value, parent.slot .condition]
  | .switch _ _ => [parent.slot .value, parent.slot .condition]
  | .callIndirect _ _ _ =>
    ((List.range parent.count).map fun ind => parent.slot (.item ind)) ++ [parent.slot .target]
  | .localSet _ | .localTee _ _ => [parent.slot .value]
  | .globalSet _ => [parent.slot .value]
  | .load .. => [parent.slot .ptr]
  | .store .. => [parent.slot .ptr, parent.slot .value]
  | .unary _ => [parent.slot .value]
  | .binary _ => [parent.slot .left, parent.slot .right]
  | .select _ => [parent.slot .ifTrue, parent.slot .ifFalse, parent.slot .condition]
  | .drop => [parent.slot .value]
  | .return_ => [parent.slot .value]
  | .memoryGrow _ _ => [parent.slot .delta]
  | .simdExtract _ _ => [parent.slot .vec]
  | .simdReplace _ _ => [parent.slot .vec, parent.slot .value]
  | .simdShuffle _ => [parent.slot .left, parent.slot .right]
  | .simdTernary _ => [parent.slot .a, parent.slot .b, parent.slot .c]
  | .simdShift _ => [parent.slot .vec, parent.slot .shift]
  | .simdLoad .. => [parent.slot .ptr]
  | .simdLoadStoreLane .. => [parent.slot .ptr, parent.slot .vec]
  | .memoryInit _ _ => [parent.slot .dest, parent.slot .offset, parent.slot .size]
  | .memoryCopy _ _ => [parent.slot .dest, parent.slot .source, parent.slot .size]
  | .memoryFill _ => [parent.slot .dest, parent.slot .value, parent.slot .size]
  | .refIsNull => [parent.slot .value]
  | .tableGet _ _ => [parent.slot .index]
  | .tableSet _ => [parent.slot .index, parent.slot .value]
  | .tableGrow _ => [parent.slot .value, parent.slot .delta]
  | .tupleExtract _ => [parent.slot .tuple]
  | _ => []

/-- `wasm_set_children_expr`. Kinds with one child do not look at the index. -/
def wasmSetChildrenExpr (parent : Node) (newChild : Expr) (index : Nat) : Node :=
  match parent.kind with
  | .block _ _ => parent.write (.item index) newChild
  | .if_ =>
    match index with
    | 0 => parent.write .condition newChild
    | 1 => parent.write .ifTrue newChild
    | 2 => parent.write .ifFalse newChild
    | _ => parent
  | .loop _ => parent.write .body newChild
  | .break_ _ =>
    match index with
    | 0 => parent.write .value newChild
    | 1 => parent.write .condition newChild
    | _ => parent
  | .switch _ _ =>
    match index with
    | 0 => parent.write .value newChild
    | 1 => parent.write .condition newChild
    | _ => parent
  | .call _ _ => parent.write (.item index) newChild
  | .callIndirect _ _ _ =>
    if index < parent.count then parent.write (.item index) newChild
    else parent.write .target newChild
  | .localSet _ | .localTee _ _ => parent.write .value newChild
  | .globalSet _ => parent.write .value newChild
  | .load .. => parent.write .ptr newChild
  | .store .. =>
    match index with
    | 0 => parent.write .ptr newChild
    | 1 => parent.write .value newChild
    | _ => parent
  | .unary _ => parent.write .value newChild
  | .binary _ =>
    match index with
    | 0 => parent.write .left newChild
    | 1 => parent.write .right newChild
    | _ => parent
  | .select _ =>
    match index with
    | 0 => parent.write .ifTrue newChild
    | 1 => parent.write .ifFalse newChild
    | 2 => parent.write .condition newChild
    | _ => parent
  | .drop => parent.write .value newChild
  | .return_ => parent.write .value newChild
  | .memoryGrow _ _ => parent.write .delta newChild
  | .simdExtract _ _ => parent.write .vec newChild
  | .simdReplace _ _ =>
    match index with
    | 0 => parent.write .vec newChild
    | 1 => parent.write .value newChild
    | _ => parent
  | .simdShuffle _ =>
    match index with
    | 0 => parent.write .left newChild
    | 1 => parent.write .right newChild
    | _ => parent
  | .simdTernary _ =>
    match index with
    | 0 => parent.write .a newChild
    | 1 => parent.write .b newChild
    | 2 => parent.write .c newChild
    | _ => parent
  | .simdShift _ =>
    match index with
    | 0 => parent.write .vec newChild
    | 1 => parent.write .shift newChild
    | _ => parent
  | .simdLoad .. => parent.write .ptr newChild
  | .simdLoadStoreLane .. =>
    match index with
    | 0 => parent.write .ptr newChild
    | 1 => parent.write .vec newChild
    | _ => parent
  | .memoryInit _ _ =>
    match index with
    | 0 => parent.write .dest newChild
    | 1 => parent.write .offset newChild
    | 2 => parent.write .size newChild
    | _ => parent
  | .memoryCopy _ _ =>
    match index with
    | 0 => parent.write .dest newChild
    | 1 => parent.write .source newChild
    | 2 => parent.write .size newChild
    | _ => parent
  | .memoryFill _ =>
    match index with
    | 0 => parent.write .dest newChild
    | 1 => parent.write .value newChild
    | 2 => parent.write .size newChild
    | _ => parent
  | .refIsNull => parent.write .value newChild
  | .tableGet _ _ => parent.write .index newChild
  | .tableSet _ =>
    match index with
    | 0 => parent.write .index newChild
    | 1 => parent.write .value newChild
    | _ => parent
  | .tableGrow _ =>
    match index with
    | 0 => parent.write .value newChild
    | 1 => parent.write .delta newChild
    | _ => parent
  | .tupleMake => parent.write (.item index) newChild
  | .tupleExtract _ => parent.write .tuple newChild
  | _ => parent

/-! ## The order both tables follow -/

/-- The members the tables list: those of the enumerated kinds. -/
def listed (p : Node) : List Slot := if p.kind.isEnumerated then slots p.kind p.count else []

theorem items_nodup (count : Nat) : (items count).Nodup :=
  List.Nodup.map (fun _ _ equal => Slot.item.inj equal) List.nodup_range

theorem not_mem_items {s : Slot} (own : ∀ i, s ≠ .item i) (count : Nat) : s ∉ items count := by
  intro member
  obtain ⟨i, _, equal⟩ := List.mem_map.mp member
  exact own i equal.symm

/-- No member holds two children. -/
theorem slots_nodup (k : Kind) (count : Nat) : (slots k count).Nodup := by
  cases k with
  | block | call | tupleMake | throw | other => exact items_nodup count
  | callIndirect =>
    refine List.Nodup.append (items_nodup count) (List.nodup_singleton _) ?_
    exact List.disjoint_singleton.mpr (not_mem_items (by simp) count)
  | try_ => exact List.nodup_cons.mpr ⟨not_mem_items (by simp) count, items_nodup count⟩
  | _ =>
    simp only [slots]
    decide

theorem listed_nodup (p : Node) : p.listed.Nodup := by
  unfold listed
  split
  · exact slots_nodup _ _
  · exact List.nodup_nil

/-- The table of reads. -/
theorem getChildren_eq (p : Node) : p.wasmGetChildrenExpr = p.listed.map p.slot := by
  obtain ⟨kind, count, slot⟩ := p
  cases kind <;> simp [wasmGetChildrenExpr, listed, slots, items, Kind.isEnumerated]

/-- The list is in the order of its positions. -/
theorem items_getElem? (count i : Nat) :
    (items count)[i]? = if i < count then some (.item i) else none := by
  simp only [items, List.getElem?_map]
  split
  next inside => simp [inside]
  next outside => simp [Nat.le_of_not_lt outside]

/-- The table of writes has the same member at every index. -/
theorem setChildren_eq {p : Node} {i : Nat} {s : Slot} (here : p.listed[i]? = some s)
    (child : Expr) : p.wasmSetChildrenExpr child i = p.write s child := by
  obtain ⟨kind, count, slot⟩ := p
  cases kind with
  | block | call | tupleMake =>
    change (items count)[i]? = some s at here
    rw [items_getElem?] at here
    split at here <;> cases here
    rfl
  | callIndirect =>
    -- the target comes after the operands, at the one index that is not below their number
    change (items count ++ [Slot.target])[i]? = some s at here
    change (if i < count then write _ (.item i) child else write _ .target child) = _
    have length : (items count).length = count := by simp [items]
    split
    next inside =>
      rw [List.getElem?_append_left (by omega), items_getElem?, if_pos inside] at here
      cases here
      rfl
    next outside =>
      rw [List.getElem?_append_right (by omega), List.getElem?_singleton] at here
      split at here <;> cases here
      rfl
  | _ =>
    -- at most three members of its own, or none that the tables list
    simp only [listed, Kind.isEnumerated, slots] at here
    rcases i with _ | _ | _ | i <;> simp at here <;> subst here <;> rfl

/-! ## The lens laws -/

@[simp] theorem listed_write (p : Node) (s : Slot) (child : Expr) :
    (p.write s child).listed = p.listed := rfl

@[simp] theorem write_slot (p : Node) (s : Slot) : p.write s (p.slot s) = p := by
  simp [write]

theorem write_comm (p : Node) {s t : Slot} (apart : s ≠ t) (c d : Expr) :
    (p.write s c).write t d = (p.write t d).write s c := by
  simp [write, Function.update_comm apart]

/-- What is written at an index is read there, and the other reads stay. -/
theorem getChildren_setChildren {p : Node} {i : Nat} (listed : i < p.wasmGetChildrenExpr.length)
    (child : Expr) :
    (p.wasmSetChildrenExpr child i).wasmGetChildrenExpr = p.wasmGetChildrenExpr.set i child := by
  rw [getChildren_eq, List.length_map] at listed
  rw [setChildren_eq (List.getElem?_eq_getElem listed), getChildren_eq, getChildren_eq,
    listed_write]
  change p.listed.map (Function.update p.slot p.listed[i] child) = _
  rw [p.listed_nodup.map_update, if_pos (List.getElem_mem listed),
    p.listed_nodup.idxOf_getElem i listed]

/-- A child written over itself leaves the node as it was. -/
theorem setChildren_getChildren {p : Node} {i : Nat} {child : Expr}
    (here : p.wasmGetChildrenExpr[i]? = some child) : p.wasmSetChildrenExpr child i = p := by
  rw [getChildren_eq, List.getElem?_map, Option.map_eq_some_iff] at here
  obtain ⟨s, here, rfl⟩ := here
  rw [setChildren_eq here, write_slot]

/-- Writes at two indices commute. -/
theorem setChildren_comm {p : Node} {i j : Nat} (first : i < p.wasmGetChildrenExpr.length)
    (second : j < p.wasmGetChildrenExpr.length) (apart : i ≠ j) (c d : Expr) :
    (p.wasmSetChildrenExpr c i).wasmSetChildrenExpr d j =
      (p.wasmSetChildrenExpr d j).wasmSetChildrenExpr c i := by
  rw [getChildren_eq, List.length_map] at first second
  have here := List.getElem?_eq_getElem first
  have there := List.getElem?_eq_getElem second
  have slots : p.listed[i] ≠ p.listed[j] := fun equal =>
    apart ((p.listed_nodup.getElem_inj_iff).mp equal)
  rw [setChildren_eq here, setChildren_eq there,
    setChildren_eq (p := p.write _ c) there, setChildren_eq (p := p.write _ d) here,
    write_comm p slots]

/-! ## The same access on expressions -/

theorem wasmGetChildrenExpr_toExpr (p : Node) :
    Swam.wasmGetChildrenExpr p.toExpr = p.wasmGetChildrenExpr := by
  rw [getChildren_eq]
  change (if p.kind.isEnumerated then (slots p.kind p.count).map p.slot else []) = _
  unfold listed
  split <;> rfl

theorem wasmSetChildrenExpr_toExpr {p : Node} {i : Nat}
    (inside : i < p.wasmGetChildrenExpr.length) (child : Expr) :
    Swam.wasmSetChildrenExpr p.toExpr child i = (p.wasmSetChildrenExpr child i).toExpr := by
  rw [getChildren_eq, List.length_map] at inside
  rw [setChildren_eq (List.getElem?_eq_getElem inside)]
  obtain ⟨enumerated, all⟩ : p.kind.isEnumerated = true ∧ p.listed = slots p.kind p.count := by
    unfold listed at inside ⊢
    split at inside
    next enumerated => exact ⟨enumerated, if_pos enumerated⟩
    next => exact absurd inside (Nat.not_lt_zero _)
  change (if p.kind.isEnumerated then Expr.node p.kind (((slots p.kind p.count).map p.slot).set i
    child) else _) = .node p.kind ((slots p.kind p.count).map (Function.update p.slot _ child))
  rw [if_pos enumerated, ← all, p.listed_nodup.map_update, if_pos (List.getElem_mem inside),
    p.listed_nodup.idxOf_getElem i inside]

end Binaryen.Node

/-- Child access forms a lens on the nodes of every kind, and the mutators that work on whole
expressions have the same access. -/
theorem childAccess_lens (parent : Node) (e : Expr) {i : Nat}
    (listed : i < parent.wasmGetChildrenExpr.length) :
    let before := parent.wasmGetChildrenExpr
    let after := (parent.wasmSetChildrenExpr e i).wasmGetChildrenExpr
    after.length = before.length ∧ after[i]? = some e ∧
      (∀ j, j ≠ i → after[j]? = before[j]?) ∧
      (∀ child, before[i]? = some child → parent.wasmSetChildrenExpr child i = parent) ∧
      (∀ e' j, j < before.length → j ≠ i →
        (parent.wasmSetChildrenExpr e i).wasmSetChildrenExpr e' j =
          (parent.wasmSetChildrenExpr e' j).wasmSetChildrenExpr e i) ∧
      wasmGetChildrenExpr parent.toExpr = before ∧
      wasmSetChildrenExpr parent.toExpr e i = (parent.wasmSetChildrenExpr e i).toExpr := by
  intro before after
  have written : after = before.set i e := Node.getChildren_setChildren listed e
  refine ⟨?_, ?_, ?_, ?_, ?_, parent.wasmGetChildrenExpr_toExpr,
    Node.wasmSetChildrenExpr_toExpr listed e⟩
  · rw [written, List.length_set]
  · rw [written, List.getElem?_set_self listed]
  · intro j apart
    rw [written, List.getElem?_set_ne apart.symm]
  · intro child here
    exact Node.setChildren_getChildren here
  · intro e' j inside apart
    exact Node.setChildren_comm listed inside apart.symm e e'

/-- The target of a `call_indirect` is the child after its two operands. -/
theorem childAccess_lens_target :
    let parent : Node := ⟨.callIndirect "t" Ty.none Ty.none, 2, fun _ => .node .nop []⟩
    ((parent.wasmSetChildrenExpr (.node .drop []) 2).wasmGetChildrenExpr)[2]? =
      some (.node .drop []) := by
  intro parent
  exact (childAccess_lens parent (.node .drop []) (i := 2) (by decide)).2.1

end Swam
