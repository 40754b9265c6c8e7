import Mathlib.Data.Finset.Dedup
import Mathlib.Data.Finset.Card
import Swam.Splicing

/-!
# Collecting fragments

`wasmFragmentizeModule` sorts the nodes of a module into groups of one type. The nodes still to
be visited are in a list, and memory for a further fragment of a known type may be refused. The
loop then stays at the same node, so it ends just when the memory is granted often enough. What
it has collected when it ends is a partition of the nodes.
-/
namespace Swam

open Binaryen Mut

/-! ## The loop -/

/-- What the function works on: the list, the pool, and the number of calls of `safe_realloc`. -/
structure Fragmentation where
  childNodeList : List ExprRef
  fragmentPool : List FragGrp
  reallocs : Nat

/-- Whether a group of the type is there already. -/
def hasGroup (pool : List FragGrp) (ty : Ty) : Bool := pool.any (·.fragType = ty)

/-- Put a fragment into the first group of its type. -/
def addToGroup (ty : Ty) (fragment : Frag) : List FragGrp → List FragGrp
  | [] => []
  | group :: rest =>
    if group.fragType = ty then { group with frags := group.frags ++ [fragment] } :: rest
    else group :: addToGroup ty fragment rest

/-- The type that a fragment is grouped by. -/
def Frag.ty (fragment : Frag) : Ty := wasmSimplifyType fragment.expr.expr.ty

/-- Add a fragment to the pool. A fragment of a known type needs memory, and the answer tells
whether that was granted. -/
def addFragment (granted : Nat → Bool) (fragment : Frag) (s : Fragmentation) : Bool × Fragmentation :=
  if hasGroup s.fragmentPool fragment.ty then
    if granted s.reallocs then
      (true, { s with
        fragmentPool := addToGroup fragment.ty fragment s.fragmentPool
        reallocs := s.reallocs + 1 })
    else (false, { s with reallocs := s.reallocs + 1 })
  else (true, { s with fragmentPool := s.fragmentPool ++ [⟨fragment.ty, [fragment]⟩] })

/-- The children that the loop appends. -/
def appendedChildren : ExprRef → List ExprRef
  | .null => []
  | .node _ k cs => if k.isEnumerated then cs.filter isPresent else []

/-- The loop over the list. `granted` answers the calls of `safe_realloc` one after another. -/
def fragmentizeBody (granted : Nat → Bool) (func : Nat) :
    Nat → Fragmentation → Except Stop Fragmentation
  | 0, _ => .error .endless
  | n + 1, s =>
    match s.childNodeList with
    | [] => .ok s
    -- the type of a reference that is `NULL` is asked for
    | .null :: _ => .error .fatal
    | .node addr k cs :: rest =>
      match addFragment granted ⟨.splice func, .node addr k cs⟩ s with
      -- `continue` skips the step to the next element
      | (false, s) => fragmentizeBody granted func n s
      | (true, s) =>
        fragmentizeBody granted func n
          { s with childNodeList := rest ++ appendedChildren (.node addr k cs) }

/-- The loop over the functions; imported functions are among them. -/
def fragmentizeFunctions (granted : Nat → Bool) (patience : Nat) :
    List ExprRef → Nat → Fragmentation → Except Stop Fragmentation
  | [], _, s => .ok s
  | body :: rest, i, s => do
    let s ← fragmentizeBody granted i patience { s with childNodeList := s.childNodeList ++ [body] }
    fragmentizeFunctions granted patience rest (i + 1) s

def wasmFragmentizeModule (granted : Nat → Bool) (patience : Nat) (spl : SpliceModule) :
    Except Stop (List FragGrp) :=
  (fragmentizeFunctions granted patience spl.bodies 0 ⟨[], [], 0⟩).map (·.fragmentPool)

/-! ## The nodes of a module -/

mutual
/-- The nodes reachable through enumerated children. -/
def reachableNodes : ExprRef → List ExprRef
  | .null => []
  | .node a k cs => .node a k cs :: if k.isEnumerated then reachableNodesAll cs else []

def reachableNodesAll : List ExprRef → List ExprRef
  | [] => []
  | c :: cs => reachableNodes c ++ reachableNodesAll cs
end

/-- The nodes below some references of a function. -/
def fragmentsBelow (func : Nat) (refs : List ExprRef) : List Frag :=
  (reachableNodesAll refs).map (⟨.splice func, ·⟩)

/-- The nodes of some functions, the first of which has the given index. -/
def fragmentsFrom : Nat → List ExprRef → List Frag
  | _, [] => []
  | i, body :: rest => fragmentsBelow i [body] ++ fragmentsFrom (i + 1) rest

/-- Every node of every function, with its function. -/
def moduleFragments (spl : SpliceModule) : List Frag := fragmentsFrom 0 spl.bodies

/-- All fragments of a pool. -/
def poolFragments (pool : List FragGrp) : List Frag := pool.flatMap (·.frags)

/-- The pool is a partition of the nodes of the module. -/
structure PartitionOf (spl : SpliceModule) (pool : List FragGrp) : Prop where
  types_distinct : (pool.map (·.fragType)).Nodup
  own_type : ∀ group ∈ pool, ∀ fragment ∈ group.frags, fragment.ty = group.fragType
  complete : (poolFragments pool).Perm (moduleFragments spl)
  once : (ExprRef.addrsAll spl.bodies).Nodup → ((poolFragments pool).map (·.expr.addr?)).Nodup

/-- The function returns, and with a partition where no memory is refused. -/
def FragmentsModule (granted : Nat → Bool) (spl : SpliceModule) : Prop :=
  ∃ patience pool, wasmFragmentizeModule granted patience spl = .ok pool ∧
    ((∀ n, granted n = true) → PartitionOf spl pool)

/-! ## How much memory is needed -/

/-- Fragments that are not the first ones of their type. -/
def furtherFragments (fragments : List Frag) : Nat :=
  fragments.length - (fragments.map Frag.ty).toFinset.card

/-- The calls of `safe_realloc` before the given one that were granted. -/
def grants (granted : Nat → Bool) (calls : Nat) : Nat := (List.range calls).countP granted

/-- Memory is granted at least that often. -/
def GrantedTimes (granted : Nat → Bool) (times : Nat) : Prop := ∃ calls, times ≤ grants granted calls

theorem card_types_le (fragments : List Frag) :
    (fragments.map Frag.ty).toFinset.card ≤ fragments.length :=
  (List.toFinset_card_le _).trans_eq (List.length_map _)

theorem furtherFragments_append (xs ys : List Frag) :
    furtherFragments xs ≤ furtherFragments (xs ++ ys) := by
  have fewer : ((xs ++ ys).map Frag.ty).toFinset.card ≤ (xs.map Frag.ty).toFinset.card + ys.length := by
    rw [List.map_append, List.toFinset_append]
    exact (Finset.card_union_le _ _).trans (Nat.add_le_add_left (card_types_le ys) _)
  have := card_types_le xs
  unfold furtherFragments
  rw [List.length_append]
  omega

theorem furtherFragments_perm {xs ys : List Frag} (perm : xs.Perm ys) :
    furtherFragments xs = furtherFragments ys := by
  unfold furtherFragments
  rw [perm.length_eq, List.toFinset_eq_of_perm _ _ (perm.map Frag.ty)]

theorem grants_succ (granted : Nat → Bool) (calls : Nat) :
    grants granted (calls + 1) = grants granted calls + (granted calls).toNat := by
  rw [grants, List.range_succ, List.countP_append, List.countP_singleton, ← grants]
  cases granted calls <;> rfl

theorem grants_mono (granted : Nat → Bool) {calls calls' : Nat} (more : calls ≤ calls') :
    grants granted calls ≤ grants granted calls' := by
  obtain ⟨k, rfl⟩ := Nat.exists_eq_add_of_le more
  unfold grants
  rw [List.range_add, List.countP_append]
  omega

/-- Where more is granted later, one of the later calls is granted. -/
theorem exists_granted {granted : Nat → Bool} {calls calls' : Nat}
    (more : grants granted calls < grants granted calls') : ∃ d, granted (calls + d) = true := by
  by_contra! refused
  have same : ∀ k, grants granted (calls + k) = grants granted calls := by
    intro k
    induction k with
    | zero => rfl
    | succ k ih =>
      have no : granted (calls + k) = false := by simpa using refused k
      rw [← Nat.add_assoc, grants_succ, ih, no]
      rfl
  have ordered : calls ≤ calls' := by
    by_contra before
    have := grants_mono granted (Nat.le_of_not_le before)
    omega
  obtain ⟨k, rfl⟩ := Nat.exists_eq_add_of_le ordered
  rw [same k] at more
  omega

/-! ## One fragment -/

theorem hasGroup_iff {pool : List FragGrp} {ty : Ty} :
    hasGroup pool ty = true ↔ ty ∈ pool.map (·.fragType) := by
  simp [hasGroup]

theorem poolFragments_append (xs ys : List FragGrp) :
    poolFragments (xs ++ ys) = poolFragments xs ++ poolFragments ys :=
  List.flatMap_append

section
variable {ty : Ty} {fragment : Frag}

theorem types_addToGroup (pool : List FragGrp) :
    (addToGroup ty fragment pool).map (·.fragType) = pool.map (·.fragType) := by
  induction pool with
  | nil => rfl
  | cons group rest ih =>
    rw [addToGroup]
    split
    · rfl
    · rw [List.map_cons, ih, List.map_cons]

/-- A group gets the fragment of its type, or stays as it is. -/
theorem mem_addToGroup {pool : List FragGrp} {group : FragGrp}
    (member : group ∈ addToGroup ty fragment pool) :
    group ∈ pool ∨ ∃ old ∈ pool, old.fragType = ty ∧
      group = { old with frags := old.frags ++ [fragment] } := by
  induction pool with
  | nil => cases member
  | cons first rest ih =>
    rw [addToGroup] at member
    split at member
    next same =>
      rcases List.mem_cons.mp member with rfl | later
      · exact .inr ⟨first, List.mem_cons_self, same, rfl⟩
      · exact .inl (List.mem_cons_of_mem _ later)
    next other =>
      rcases List.mem_cons.mp member with rfl | later
      · exact .inl List.mem_cons_self
      · rcases ih later with old | ⟨old, there, same, rfl⟩
        · exact .inl (List.mem_cons_of_mem _ old)
        · exact .inr ⟨old, List.mem_cons_of_mem _ there, same, rfl⟩

theorem poolFragments_addToGroup {pool : List FragGrp} (known : hasGroup pool ty = true) :
    (poolFragments (addToGroup ty fragment pool)).Perm (poolFragments pool ++ [fragment]) := by
  induction pool with
  | nil => cases known
  | cons group rest ih =>
    rw [addToGroup]
    split
    next same =>
      simp only [poolFragments, List.flatMap_cons, List.append_assoc]
      exact List.Perm.append_left _ List.perm_append_comm
    next other =>
      have later : hasGroup rest ty = true := by
        simpa [hasGroup, other] using known
      simp only [poolFragments, List.flatMap_cons, List.append_assoc]
      exact List.Perm.append_left _ (ih later)

end

/-- What every state of the loop has in common. -/
structure Grouped (granted : Nat → Bool) (s : Fragmentation) : Prop where
  types_distinct : (s.fragmentPool.map (·.fragType)).Nodup
  own_type : ∀ group ∈ s.fragmentPool, ∀ fragment ∈ group.frags, fragment.ty = group.fragType
  filled : ∀ group ∈ s.fragmentPool, group.frags ≠ []
  counted : (poolFragments s.fragmentPool).length = s.fragmentPool.length + grants granted s.reallocs

section
variable {granted : Nat → Bool} {fragment : Frag} {s t : Fragmentation}

theorem Grouped.empty : Grouped granted ⟨[], [], 0⟩ := ⟨by simp, by simp, by simp, rfl⟩

/-- The list plays no part in it. -/
theorem Grouped.requeue (grouped : Grouped granted s) (refs : List ExprRef) :
    Grouped granted { s with childNodeList := refs } :=
  ⟨grouped.types_distinct, grouped.own_type, grouped.filled, grouped.counted⟩

/-- The types of the groups are the types of the fragments. -/
theorem Grouped.types (grouped : Grouped granted s) :
    ((poolFragments s.fragmentPool).map Frag.ty).toFinset =
      (s.fragmentPool.map (·.fragType)).toFinset := by
  ext ty
  simp only [poolFragments, List.mem_toFinset, List.mem_map, List.mem_flatMap]
  constructor
  · rintro ⟨fragment, ⟨group, member, among⟩, rfl⟩
    exact ⟨group, member, (grouped.own_type group member fragment among).symm⟩
  · rintro ⟨group, member, rfl⟩
    obtain ⟨fragment, among⟩ := List.exists_mem_of_ne_nil _ (grouped.filled group member)
    exact ⟨fragment, ⟨group, member, among⟩, grouped.own_type group member fragment among⟩

theorem Grouped.card_types (grouped : Grouped granted s) :
    ((poolFragments s.fragmentPool).map Frag.ty).toFinset.card = s.fragmentPool.length := by
  rw [grouped.types, List.toFinset_card_of_nodup grouped.types_distinct, List.length_map]

/-- Every grant was used for a fragment that was not the first of its type. -/
theorem Grouped.furtherFragments (grouped : Grouped granted s) :
    furtherFragments (poolFragments s.fragmentPool) = grants granted s.reallocs := by
  rw [Swam.furtherFragments, grouped.card_types, grouped.counted]
  omega

theorem addFragment_refused (refused : addFragment granted fragment s = (false, t)) :
    hasGroup s.fragmentPool fragment.ty = true ∧ granted s.reallocs = false ∧
      t = { s with reallocs := s.reallocs + 1 } := by
  unfold addFragment at refused
  split at refused
  next known =>
    split at refused
    next => cases refused
    next no =>
      cases refused
      exact ⟨known, by simpa using no, rfl⟩
  next => cases refused

theorem Grouped.refused (grouped : Grouped granted s)
    (refused : addFragment granted fragment s = (false, t)) : Grouped granted t := by
  obtain ⟨_, no, rfl⟩ := addFragment_refused refused
  refine ⟨grouped.types_distinct, grouped.own_type, grouped.filled, ?_⟩
  rw [grants_succ, no]
  exact grouped.counted

theorem addFragment_added (added : addFragment granted fragment s = (true, t)) :
    t.childNodeList = s.childNodeList ∧
      (poolFragments t.fragmentPool).Perm (poolFragments s.fragmentPool ++ [fragment]) := by
  unfold addFragment at added
  split at added
  next known =>
    split at added
    next =>
      cases added
      exact ⟨rfl, poolFragments_addToGroup known⟩
    next => cases added
  next =>
    cases added
    refine ⟨rfl, ?_⟩
    rw [poolFragments_append]
    exact List.Perm.refl _

theorem Grouped.added (grouped : Grouped granted s)
    (added : addFragment granted fragment s = (true, t)) : Grouped granted t := by
  have length := (addFragment_added added).2.length_eq
  unfold addFragment at added
  split at added
  next known =>
    split at added
    next yes =>
      cases added
      refine ⟨?_, ?_, ?_, ?_⟩
      · rw [types_addToGroup]
        exact grouped.types_distinct
      · intro group member
        rcases mem_addToGroup member with old | ⟨old, there, same, rfl⟩
        · exact grouped.own_type group old
        · intro f among
          rcases List.mem_append.mp among with before | new
          · exact grouped.own_type old there f before
          · rw [List.mem_singleton.mp new]
            exact same.symm
      · intro group member
        rcases mem_addToGroup member with old | ⟨old, _, _, rfl⟩
        · exact grouped.filled group old
        · simp
      · have groups := congrArg List.length (@types_addToGroup fragment.ty fragment s.fragmentPool)
        rw [List.length_map, List.length_map] at groups
        rw [length, List.length_append, grouped.counted, grants_succ, yes, groups]
        simp only [List.length_singleton, Bool.toNat_true]
        omega
    next => cases added
  next unknown =>
    cases added
    refine ⟨?_, ?_, ?_, ?_⟩
    · rw [List.map_append]
      have new : fragment.ty ∉ s.fragmentPool.map (·.fragType) := by rwa [hasGroup_iff] at unknown
      exact List.Nodup.append grouped.types_distinct (List.nodup_singleton _)
        (List.disjoint_singleton.mpr new)
    · intro group member
      rcases List.mem_append.mp member with old | new
      · exact grouped.own_type group old
      · rw [List.mem_singleton.mp new]
        intro f among
        rw [List.mem_singleton.mp among]
    · intro group member
      rcases List.mem_append.mp member with old | new
      · exact grouped.filled group old
      · rw [List.mem_singleton.mp new]
        exact List.cons_ne_nil _ _
    · rw [length, List.length_append, List.length_append, grouped.counted]
      simp only [List.length_singleton]
      omega

end

/-! ## The nodes that are left -/

theorem reachableNodesAll_append (xs ys : List ExprRef) :
    reachableNodesAll (xs ++ ys) = reachableNodesAll xs ++ reachableNodesAll ys := by
  induction xs with
  | nil => rfl
  | cons x xs ih => rw [List.cons_append, reachableNodesAll, ih, reachableNodesAll, List.append_assoc]

theorem reachableNodesAll_present (cs : List ExprRef) :
    reachableNodesAll (cs.filter isPresent) = reachableNodesAll cs := by
  induction cs with
  | nil => rfl
  | cons c cs ih =>
    cases c with
    | null => exact ih
    | node a k ds =>
      rw [List.filter_cons_of_pos (by rfl), reachableNodesAll, ih, reachableNodesAll]

theorem reachableNodes_node (a : Nat) (k : Kind) (cs : List ExprRef) :
    reachableNodes (.node a k cs) =
      .node a k cs :: reachableNodesAll (appendedChildren (.node a k cs)) := by
  rw [reachableNodes, appendedChildren]
  split
  · rw [reachableNodesAll_present]
  · rfl

theorem fragmentsBelow_append (func : Nat) (xs ys : List ExprRef) :
    fragmentsBelow func (xs ++ ys) = fragmentsBelow func xs ++ fragmentsBelow func ys := by
  rw [fragmentsBelow, reachableNodesAll_append, List.map_append]
  rfl

/-- The first node of the list gives way to its children. -/
theorem fragmentsBelow_node (func a : Nat) (k : Kind) (cs rest : List ExprRef) :
    (fragmentsBelow func (.node a k cs :: rest)).Perm
      (⟨.splice func, .node a k cs⟩ ::
        fragmentsBelow func (rest ++ appendedChildren (.node a k cs))) := by
  have first : fragmentsBelow func (.node a k cs :: rest) =
      ⟨.splice func, .node a k cs⟩ ::
        (fragmentsBelow func (appendedChildren (.node a k cs)) ++ fragmentsBelow func rest) := by
    rw [fragmentsBelow, reachableNodesAll, reachableNodes_node, List.cons_append, List.map_cons,
      List.map_append]
    rfl
  rw [first, fragmentsBelow_append]
  exact List.Perm.cons _ List.perm_append_comm

/-! ## The loop over the list -/

section
variable {granted : Nat → Bool} {func : Nat} {s t : Fragmentation}

/-- When the loop ends it has collected the nodes below the list. -/
theorem fragmentizeBody_collects {n : Nat} (grouped : Grouped granted s)
    (run : fragmentizeBody granted func n s = .ok t) :
    t.childNodeList = [] ∧ Grouped granted t ∧
      (poolFragments t.fragmentPool).Perm
        (poolFragments s.fragmentPool ++ fragmentsBelow func s.childNodeList) := by
  induction n generalizing s with
  | zero => cases run
  | succ n ih =>
    rw [fragmentizeBody] at run
    split at run
    next empty =>
      cases run
      refine ⟨empty, grouped, ?_⟩
      rw [empty]
      exact List.Perm.of_eq (List.append_nil _).symm
    next => cases run
    next addr k cs rest list =>
      rw [list]
      split at run
      next s' refused =>
        obtain ⟨_, _, same⟩ := addFragment_refused refused
        have later := ih (grouped.refused refused) run
        rw [same] at later
        rwa [← list]
      next s' added =>
        obtain ⟨emptied, grouped', collected⟩ := ih ((grouped.added added).requeue _) run
        refine ⟨emptied, grouped', collected.trans ?_⟩
        refine ((addFragment_added added).2.append_right _).trans ?_
        rw [List.append_assoc, List.singleton_append]
        exact List.Perm.append_left _ (fragmentsBelow_node func addr k cs rest).symm

/-- More patience changes nothing. -/
theorem fragmentizeBody_mono {n m : Nat} (run : fragmentizeBody granted func n s = .ok t)
    (more : n ≤ m) : fragmentizeBody granted func m s = .ok t := by
  induction n generalizing s m with
  | zero => cases run
  | succ n ih =>
    cases m with
    | zero => omega
    | succ m =>
      have more : n ≤ m := by omega
      rw [fragmentizeBody] at run
      split at run
      next empty =>
        rw [fragmentizeBody, empty]
        exact run
      next => cases run
      next addr k cs rest list =>
        rw [fragmentizeBody, list]
        split at run
        next s' refused =>
          simp only [refused]
          exact ih run more
        next s' added =>
          simp only [added]
          exact ih run more

/-- The loop stays at a node until memory is granted. -/
theorem fragmentizeBody_retries {addr d : Nat} {k : Kind} {cs rest : List ExprRef}
    (grouped : Grouped granted s) (list : s.childNodeList = .node addr k cs :: rest)
    (granting : hasGroup s.fragmentPool (Frag.ty ⟨.splice func, .node addr k cs⟩) = true →
      granted (s.reallocs + d) = true)
    (onward : ∀ s' t', Grouped granted s' → s'.fragmentPool = s.fragmentPool →
      s'.childNodeList = s.childNodeList →
      addFragment granted ⟨.splice func, .node addr k cs⟩ s' = (true, t') →
      ∃ n t, fragmentizeBody granted func n
        { t' with childNodeList := rest ++ appendedChildren (.node addr k cs) } = .ok t) :
    ∃ n t, fragmentizeBody granted func n s = .ok t := by
  induction d generalizing s with
  | zero =>
    cases once : addFragment granted ⟨.splice func, .node addr k cs⟩ s with
    | mk answer s' =>
      cases answer with
      | true =>
        obtain ⟨n, t, run⟩ := onward s s' grouped rfl rfl once
        exact ⟨n + 1, t, by rw [fragmentizeBody, list]; simp only [once]; exact run⟩
      | false =>
        obtain ⟨known, no, _⟩ := addFragment_refused once
        have yes := granting known
        rw [Nat.add_zero, no] at yes
        cases yes
  | succ d ih =>
    cases once : addFragment granted ⟨.splice func, .node addr k cs⟩ s with
    | mk answer s' =>
      cases answer with
      | true =>
        obtain ⟨n, t, run⟩ := onward s s' grouped rfl rfl once
        exact ⟨n + 1, t, by rw [fragmentizeBody, list]; simp only [once]; exact run⟩
      | false =>
        obtain ⟨known, no, same⟩ := addFragment_refused once
        have again : ∃ n t, fragmentizeBody granted func n s' = .ok t := by
          apply ih (grouped.refused once)
          · rw [same]
            exact list
          · intro _
            rw [same, Nat.add_assoc, Nat.add_comm 1 d]
            exact granting known
          · intro s'' t' grouped'' pool queue added
            rw [same] at pool queue
            exact onward s'' t' grouped'' pool queue added
        obtain ⟨n, t, run⟩ := again
        exact ⟨n + 1, t, by rw [fragmentizeBody, list]; simp only [once]; exact run⟩

/-- A node of a known type needs a grant that has not been used yet. -/
theorem Grouped.needs {fragment : Frag} {later : List Frag} (grouped : Grouped granted s)
    (known : hasGroup s.fragmentPool fragment.ty = true) :
    grants granted s.reallocs < Swam.furtherFragments (poolFragments s.fragmentPool ++ fragment :: later) := by
  have old : fragment.ty ∈ ((poolFragments s.fragmentPool).map Frag.ty).toFinset := by
    rw [grouped.types, List.mem_toFinset]
    exact hasGroup_iff.mp known
  have same : ((poolFragments s.fragmentPool ++ [fragment]).map Frag.ty).toFinset =
      ((poolFragments s.fragmentPool).map Frag.ty).toFinset := by
    rw [List.map_append, List.toFinset_append]
    simpa using old
  have one : Swam.furtherFragments (poolFragments s.fragmentPool ++ [fragment]) =
      grants granted s.reallocs + 1 := by
    rw [Swam.furtherFragments, same, grouped.card_types, List.length_append, grouped.counted]
    simp only [List.length_singleton]
    omega
  have more := furtherFragments_append (poolFragments s.fragmentPool ++ [fragment]) later
  rw [List.append_assoc, List.singleton_append] at more
  omega

theorem fragmentizeBody_ends (grouped : Grouped granted s)
    (present : ∀ e ∈ s.childNodeList, isPresent e = true)
    (enough : GrantedTimes granted
      (furtherFragments (poolFragments s.fragmentPool ++ fragmentsBelow func s.childNodeList))) :
    ∃ n t, fragmentizeBody granted func n s = .ok t := by
  induction size : (fragmentsBelow func s.childNodeList).length generalizing s with
  | zero =>
    cases list : s.childNodeList with
    | nil => exact ⟨1, s, by rw [fragmentizeBody, list]⟩
    | cons e rest =>
      cases e with
      | null =>
        have := present .null (by simp [list])
        cases this
      | node a k cs =>
        rw [list, (fragmentsBelow_node func a k cs rest).length_eq] at size
        cases size
  | succ size' ih =>
    cases list : s.childNodeList with
    | nil =>
      rw [list] at size
      cases size
    | cons e rest =>
      cases e with
      | null =>
        have := present .null (by simp [list])
        cases this
      | node a k cs =>
        have below := fragmentsBelow_node func a k cs rest
        rw [list] at enough size present
        rw [furtherFragments_perm (below.append_left _)] at enough
        have granting : ∃ d, hasGroup s.fragmentPool (Frag.ty ⟨.splice func, .node a k cs⟩) = true →
            granted (s.reallocs + d) = true := by
          by_cases known : hasGroup s.fragmentPool (Frag.ty ⟨.splice func, .node a k cs⟩) = true
          · obtain ⟨calls, enough⟩ := enough
            obtain ⟨d, yes⟩ := exists_granted ((grouped.needs known).trans_le enough)
            exact ⟨d, fun _ => yes⟩
          · exact ⟨0, fun yes => absurd yes known⟩
        obtain ⟨d, granting⟩ := granting
        apply fragmentizeBody_retries grouped list granting
        intro s' t' grouped' pool queue added
        apply ih ((grouped'.added added).requeue _)
        · intro e member
          rcases List.mem_append.mp member with old | new
          · exact present e (List.mem_cons_of_mem _ old)
          · rw [appendedChildren] at new
            split at new
            · exact (List.mem_filter.mp new).2
            · cases new
        · have collected := (addFragment_added added).2
          rw [pool] at collected
          rw [furtherFragments_perm (collected.append_right _), List.append_assoc]
          exact enough
        · rw [below.length_eq, List.length_cons] at size
          exact Nat.succ.inj size

end

/-! ## The loop over the functions -/

section
variable {granted : Nat → Bool} {s t : Fragmentation}

/-- The functions have bodies, and their nodes have been collected. -/
theorem fragmentizeFunctions_collects {patience i : Nat} {bodies : List ExprRef}
    (grouped : Grouped granted s) (idle : s.childNodeList = [])
    (run : fragmentizeFunctions granted patience bodies i s = .ok t) :
    Grouped granted t ∧ (∀ body ∈ bodies, body ≠ .null) ∧
      (poolFragments t.fragmentPool).Perm
        (poolFragments s.fragmentPool ++ fragmentsFrom i bodies) := by
  induction bodies generalizing i s with
  | nil =>
    cases run
    refine ⟨grouped, by simp, ?_⟩
    rw [fragmentsFrom, List.append_nil]
  | cons body rest ih =>
    rw [fragmentizeFunctions] at run
    cases visited : fragmentizeBody granted i patience
        { s with childNodeList := s.childNodeList ++ [body] } with
    | error e =>
      rw [visited] at run
      cases run
    | ok s' =>
      rw [visited] at run
      obtain ⟨idle', grouped', collected⟩ := fragmentizeBody_collects (grouped.requeue _) visited
      obtain ⟨last, bodies, later⟩ := ih grouped' idle' run
      refine ⟨last, ?_, ?_⟩
      · intro b member
        rcases List.mem_cons.mp member with rfl | after
        · rintro rfl
          cases patience with
          | zero => cases visited
          | succ n =>
            rw [idle] at visited
            cases visited
        · exact bodies b after
      · refine later.trans ?_
        rw [idle, List.nil_append] at collected
        rw [fragmentsFrom, ← List.append_assoc]
        exact collected.append_right _

theorem fragmentizeFunctions_ends {i : Nat} {bodies : List ExprRef} (grouped : Grouped granted s)
    (idle : s.childNodeList = []) (present : ∀ body ∈ bodies, body ≠ .null)
    (enough : GrantedTimes granted
      (furtherFragments (poolFragments s.fragmentPool ++ fragmentsFrom i bodies))) :
    ∃ n t, ∀ patience ≥ n, fragmentizeFunctions granted patience bodies i s = .ok t := by
  induction bodies generalizing i s with
  | nil => exact ⟨0, s, fun _ _ => rfl⟩
  | cons body rest ih =>
    rw [fragmentsFrom, ← List.append_assoc] at enough
    obtain ⟨n, s', visited⟩ : ∃ n s', fragmentizeBody granted i n
        { s with childNodeList := s.childNodeList ++ [body] } = .ok s' := by
      apply fragmentizeBody_ends (grouped.requeue _)
      · intro e member
        rw [idle, List.nil_append, List.mem_singleton] at member
        subst member
        cases e with
        | null => exact absurd rfl (present .null List.mem_cons_self)
        | node => rfl
      · obtain ⟨calls, enough⟩ := enough
        refine ⟨calls, le_trans ?_ enough⟩
        rw [idle, List.nil_append]
        exact furtherFragments_append _ _
    obtain ⟨idle', grouped', collected⟩ := fragmentizeBody_collects (grouped.requeue _) visited
    rw [idle, List.nil_append] at collected
    obtain ⟨n', t, later⟩ := ih (i := i + 1) grouped' idle'
      (fun b member => present b (List.mem_cons_of_mem _ member)) (by
        rw [furtherFragments_perm (collected.append_right _)]
        exact enough)
    refine ⟨max n n', t, ?_⟩
    intro patience most
    rw [fragmentizeFunctions, fragmentizeBody_mono visited (by omega)]
    exact later patience (by omega)

end

/-! ## The partition -/

theorem reachableNodes_sublist (e : ExprRef) :
    ((reachableNodes e).map ExprRef.addr?).Sublist (e.addrs.map some) := by
  induction e with
  | null => exact List.Sublist.refl _
  | node a k cs ih =>
    rw [reachableNodes, ExprRef.addrs, List.map_cons, List.map_cons]
    apply List.Sublist.cons_cons
    split
    next =>
      induction cs with
      | nil => exact List.Sublist.refl _
      | cons c cs children =>
        rw [reachableNodesAll, ExprRef.addrsAll, List.map_append, List.map_append]
        exact (ih c List.mem_cons_self).append
          (children fun d member => ih d (List.mem_cons_of_mem _ member))
    next => exact List.nil_sublist _

theorem fragmentsFrom_sublist (i : Nat) (bodies : List ExprRef) :
    ((fragmentsFrom i bodies).map (·.expr.addr?)).Sublist ((ExprRef.addrsAll bodies).map some) := by
  induction bodies generalizing i with
  | nil => exact List.Sublist.refl _
  | cons body rest ih =>
    rw [fragmentsFrom, ExprRef.addrsAll, List.map_append, List.map_append]
    refine List.Sublist.append ?_ (ih (i + 1))
    rw [fragmentsBelow, List.map_map, reachableNodesAll, reachableNodesAll, List.append_nil]
    exact reachableNodes_sublist body

theorem partitionOf_grouped {granted : Nat → Bool} {s : Fragmentation} {spl : SpliceModule}
    (grouped : Grouped granted s)
    (collected : (poolFragments s.fragmentPool).Perm (moduleFragments spl)) :
    PartitionOf spl s.fragmentPool where
  types_distinct := grouped.types_distinct
  own_type := grouped.own_type
  complete := collected
  once := by
    intro distinct
    rw [(collected.map _).nodup_iff]
    exact (distinct.map (Option.some_injective _)).sublist (fragmentsFrom_sublist 0 spl.bodies)

/-- Whenever the function returns, it returns a partition. It returns just when every function
has a body and memory is granted for each node that is not the first of its type. -/
theorem fragments_partition (granted : Nat → Bool) (spl : SpliceModule) :
    FragmentsModule granted spl ↔
      (∀ body ∈ spl.bodies, body ≠ .null) ∧
        GrantedTimes granted (furtherFragments (moduleFragments spl)) := by
  constructor
  · rintro ⟨patience, pool, run, _⟩
    rw [wasmFragmentizeModule] at run
    cases ended : fragmentizeFunctions granted patience spl.bodies 0 ⟨[], [], 0⟩ with
    | error e =>
      rw [ended] at run
      cases run
    | ok t =>
      obtain ⟨grouped, present, collected⟩ := fragmentizeFunctions_collects Grouped.empty rfl ended
      refine ⟨present, t.reallocs, ?_⟩
      rw [← grouped.furtherFragments, furtherFragments_perm collected]
      exact le_rfl
  · rintro ⟨present, enough⟩
    obtain ⟨n, t, run⟩ := fragmentizeFunctions_ends (i := 0) Grouped.empty rfl present enough
    have ended := run n le_rfl
    obtain ⟨grouped, _, collected⟩ := fragmentizeFunctions_collects Grouped.empty rfl ended
    refine ⟨n, t.fragmentPool, ?_, fun _ => partitionOf_grouped grouped collected⟩
    rw [wasmFragmentizeModule, ended]
    rfl

/-- A module that imports one function. -/
def importing : SpliceModule where
  mod := {
    functions := [⟨"log", .vals [], .vals [], [], .null⟩]
    globals := [], exports := [], memories := [], segments := [], tables := [], features := [] }
  bodies := [.null]

/-- A module with two nodes of one type. -/
def twoOfOneType : SpliceModule where
  mod := {
    functions := [⟨"f", .vals [], .vals [], [], .node (.block none (.vals [])) [.node .nop []]⟩]
    globals := [], exports := [], memories := [], segments := [], tables := [], features := [] }
  bodies := [.node 0 (.block none (.vals [])) [.node 1 .nop []]]

/-- The block makes the group, and at the other node the loop stays for ever. -/
private theorem twoOfOneType_stuck (n reallocs : Nat) :
    fragmentizeBody (fun _ => false) 0 n
      ⟨[.node 1 .nop []],
        [⟨.vals [], [⟨.splice 0, .node 0 (.block none (.vals [])) [.node 1 .nop []]⟩]⟩], reallocs⟩ =
      .error .endless := by
  induction n generalizing reallocs with
  | zero => rfl
  | succ n ih => exact ih (reallocs + 1)

/-- The function neither comes past an import nor past memory that is refused for ever. -/
theorem fragments_partition_fails :
    ¬ FragmentsModule (fun _ => true) importing ∧ ¬ FragmentsModule (fun _ => false) twoOfOneType := by
  constructor
  · rintro ⟨patience, pool, run, _⟩
    cases patience with
    | zero => cases run
    | succ n => cases run
  · rintro ⟨patience, pool, run, _⟩
    cases patience with
    | zero => cases run
    | succ n =>
      have first : fragmentizeBody (fun _ => false) 0 (n + 1)
          ⟨[] ++ twoOfOneType.bodies, [], 0⟩ = .error .endless := twoOfOneType_stuck n 0
      have ended : wasmFragmentizeModule (fun _ => false) (n + 1) twoOfOneType = .error .endless := by
        change Except.map Fragmentation.fragmentPool
          (fragmentizeBody (fun _ => false) 0 (n + 1) ⟨[] ++ twoOfOneType.bodies, [], 0⟩ >>=
            fun s => fragmentizeFunctions (fun _ => false) (n + 1) [] 1 s) = .error .endless
        rw [first]
        rfl
      rw [ended] at run
      cases run

end Swam
