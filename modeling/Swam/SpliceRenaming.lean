import Swam.Binaryen.Relabelling
import Swam.LabelSearch
import Swam.Splicing

/-!
# Fresh labels for a fragment

The fixup gives every block and loop of the copied fragment a fresh label, and every branch that
named the old one follows. Labels are replaced one at a time, which comes to a replacement all at
once: no label that was given out is replaced again, and no two nodes had the same.
-/
namespace Swam

open Binaryen Mut Lib ExprRef

/-! ## The nodes of a fragment -/

/-- The loops over a fragment come to the node along the path, past the given kinds. -/
def SiteAt (root : ExprRef) (path : List Nat) (above : List Kind) (addr : Nat) (k : Kind) : Prop :=
  ∃ cs, Reaches root path above (.node addr k cs)

namespace Reaches

variable {root e : ExprRef} {path : List Nat} {above : List Kind}

theorem occ_le (reached : Reaches root path above e) (x : Nat) : occ x e ≤ occ x root := by
  induction reached with
  | here => exact Nat.le_refl _
  | child _ member _ ih =>
    have := occ_le_occAll (List.mem_of_getElem? member) x
    rw [occ_node]
    omega

/-- What is reached is what is found by its address. -/
theorem find? {addr : Nat} {k : Kind} {cs : List ExprRef} (reached : Reaches root path above e)
    (node : e = .node addr k cs) (unique : occ addr root ≤ 1) :
    ExprRef.find? addr root = some e := by
  induction reached with
  | here => exact find?_root (by rw [node]; rfl)
  | @child b _ ds _ c _ _ _ _ member below ih =>
    have inside := occ_le below addr
    have listed := occ_le_occAll (List.mem_of_getElem? member) addr
    rw [node, occ_node, if_pos rfl] at inside
    rw [occ_node] at unique
    have other : b ≠ addr := by
      intro same
      rw [if_pos same] at unique
      omega
    rw [find?_node, if_neg other]
    exact findAll?_of_mem (by omega) (List.mem_of_getElem? member) (ih node (by omega))

/-- A path leads to one expression. -/
theorem same {above' : List Kind} {e' : ExprRef} (reached : Reaches root path above e)
    (reached' : Reaches root path above' e') : above = above' ∧ e = e' := by
  induction reached generalizing above' with
  | here =>
    cases reached'
    exact ⟨rfl, rfl⟩
  | child _ member _ ih =>
    cases reached' with
    | child _ member' below' =>
      rw [member] at member'
      cases member'
      obtain ⟨rfl, rfl⟩ := ih below'
      exact ⟨rfl, rfl⟩

/-- Where an address occurs once, one path leads there. -/
theorem path_unique {addr : Nat} {k k' : Kind} {cs cs' : List ExprRef} {path' : List Nat}
    {above' : List Kind} (reached : Reaches root path above e) (node : e = .node addr k cs)
    (unique : occ addr root ≤ 1) (reached' : Reaches root path' above' (.node addr k' cs')) :
    path = path' := by
  induction reached generalizing path' above' with
  | here =>
    subst node
    cases reached' with
    | here => rfl
    | child _ member below =>
      have inside := occ_le below addr
      have listed := occ_le_occAll (List.mem_of_getElem? member) addr
      simp only [occ_node, ↓reduceIte] at unique inside
      omega
  | @child b _ ds i c _ _ _ _ member below ih =>
    have inside := occ_le below addr
    have listed := occ_le_occAll (List.mem_of_getElem? member) addr
    rw [node] at inside
    cases reached' with
    | here =>
      simp only [occ_node, ↓reduceIte] at unique inside
      omega
    | @child _ _ _ j d _ _ _ _ member' below' =>
      have inside' := occ_le below' addr
      simp only [occ_node, ↓reduceIte] at unique inside inside'
      have position : i = j := by
        by_contra differ
        have := absent_elsewhere (x := addr) (by omega) member member' differ (by omega)
        omega
      subst position
      rw [member] at member'
      cases member'
      rw [ih node (by omega) below']

end Reaches

private theorem occAll_present (x : Nat) (cs : List ExprRef) :
    occAll x (cs.filter isPresent) = occAll x cs := by
  induction cs with
  | nil => rfl
  | cons c cs ih => cases c <;> simp [List.filter_cons, isPresent, addr?, ih]

theorem length_addrsAll_present (cs : List ExprRef) :
    (addrsAll (cs.filter isPresent)).length = (addrsAll cs).length := by
  induction cs with
  | nil => rfl
  | cons c cs ih => cases c <;> simp [List.filter_cons, isPresent, addr?, addrsAll, addrs, ih]

theorem length_addrsAll_append (cs ds : List ExprRef) :
    (addrsAll (cs ++ ds)).length = (addrsAll cs).length + (addrsAll ds).length := by
  induction cs with
  | nil => simp [addrsAll]
  | cons c cs ih =>
    rw [List.cons_append, addrsAll, addrsAll, List.length_append, List.length_append, ih]
    omega

/-- A visit is one of an occurrence. -/
theorem count_visitOrder_le (n : Nat) (queue : List ExprRef) (x : Nat) :
    (visitOrder n queue).count x ≤ occAll x queue := by
  induction n generalizing queue with
  | zero => simp [visitOrder]
  | succ n ih =>
    rcases queue with _ | ⟨_ | ⟨a, k, cs⟩, rest⟩
    · simp [visitOrder]
    · rw [visitOrder, occAll_cons, occ_null, Nat.zero_add]
      exact ih rest
    · have visited := ih (rest ++ if k.isEnumerated then cs.filter isPresent else [])
      rw [occAll_append] at visited
      have children : occAll x (if k.isEnumerated then cs.filter isPresent else []) ≤ occAll x cs := by
        split
        · exact Nat.le_of_eq (occAll_present x cs)
        · exact Nat.zero_le _
      rw [visitOrder, occAll_cons, occ_node, List.count_cons]
      simp only [beq_iff_eq]
      omega

/-- Only what can be reached is visited. -/
theorem reached_of_visited {n : Nat} {queue : List ExprRef} {addr : Nat}
    (visited : addr ∈ visitOrder n queue) :
    ∃ e ∈ queue, ∃ path above k, SiteAt e path above addr k := by
  induction n generalizing queue with
  | zero => simp [visitOrder] at visited
  | succ n ih =>
    rcases queue with _ | ⟨_ | ⟨a, k, cs⟩, rest⟩
    · simp [visitOrder] at visited
    · rw [visitOrder] at visited
      obtain ⟨e, member, site⟩ := ih visited
      exact ⟨e, List.mem_cons_of_mem _ member, site⟩
    · rw [visitOrder, List.mem_cons] at visited
      rcases visited with rfl | visited
      · exact ⟨_, List.mem_cons_self, [], [], k, cs, .here _⟩
      obtain ⟨e, member, path, above, k', ds, reached⟩ := ih visited
      rcases List.mem_append.mp member with later | child
      · exact ⟨e, List.mem_cons_of_mem _ later, path, above, k', ds, reached⟩
      · split at child
        next enumerated =>
          obtain ⟨i, position⟩ := List.mem_iff_getElem?.mp (List.mem_filter.mp child).1
          exact ⟨_, List.mem_cons_self, i :: path, k :: above, k', ds, .child enumerated position reached⟩
        next => cases child

/-- With as many steps as there are nodes everything that can be reached is visited. -/
theorem visited_of_reached {n : Nat} {queue : List ExprRef} (present : ∀ e ∈ queue, isPresent e = true)
    (enough : (addrsAll queue).length ≤ n) {e : ExprRef} (member : e ∈ queue) {path : List Nat}
    {above : List Kind} {addr : Nat} {k : Kind} (site : SiteAt e path above addr k) :
    addr ∈ visitOrder n queue := by
  induction n generalizing queue e path above with
  | zero =>
    obtain ⟨cs, reached⟩ := site
    have inside := reached.occ_le addr
    have listed := occ_le_occAll member addr
    have counted := (addrsAll queue).count_le_length (a := addr)
    rw [occ_node, if_pos rfl] at inside
    unfold occAll at listed
    omega
  | succ n ih =>
    rcases queue with _ | ⟨_ | ⟨a, k', cs⟩, rest⟩
    · cases member
    · exact absurd (present _ List.mem_cons_self) Bool.false_ne_true
    · rw [visitOrder, List.mem_cons]
      have shorter : (addrsAll (rest ++ if k'.isEnumerated then cs.filter isPresent else [])).length ≤ n := by
        rw [length_addrsAll_append]
        rw [addrsAll, addrs, List.length_append, List.length_cons] at enough
        split
        · rw [length_addrsAll_present]
          omega
        · simp only [addrsAll, List.length_nil]
          omega
      have queued : ∀ e ∈ rest ++ (if k'.isEnumerated then cs.filter isPresent else []),
          isPresent e = true := by
        intro e member
        rcases List.mem_append.mp member with later | child
        · exact present e (List.mem_cons_of_mem _ later)
        · split at child
          · exact (List.mem_filter.mp child).2
          · cases child
      obtain ⟨ds, reached⟩ := site
      rcases List.mem_cons.mp member with rfl | later
      · cases reached with
        | here => exact .inl rfl
        | @child _ _ _ i c _ _ _ enumerated position below =>
          refine .inr (ih queued shorter (List.mem_append_right _ ?_) ⟨ds, below⟩)
          rw [if_pos enumerated]
          refine List.mem_filter.mpr ⟨List.mem_of_getElem? position, ?_⟩
          cases below <;> rfl
      · exact .inr (ih queued shorter (List.mem_append_left _ later) ⟨ds, reached⟩)

/-- The loops over a fragment come to what can be reached. -/
theorem mem_fragmentNodes {expr : ExprRef} {addr : Nat} :
    addr ∈ fragmentNodes expr ↔ ∃ path above k, SiteAt expr path above addr k := by
  constructor
  · intro visited
    obtain ⟨e, member, site⟩ := reached_of_visited visited
    rw [List.mem_singleton] at member
    exact member ▸ site
  · rintro ⟨path, above, k, site⟩
    refine visited_of_reached ?_ ?_ (List.mem_singleton.mpr rfl) site
    · intro e member
      rw [List.mem_singleton.mp member]
      obtain ⟨cs, reached⟩ := site
      cases reached <;> rfl
    · simp [addrsAll]

theorem fragmentNodes_nodup {expr : ExprRef} (unique : ∀ x, occ x expr ≤ 1) :
    (fragmentNodes expr).Nodup := by
  rw [List.nodup_iff_count_le_one]
  intro x
  have visited := count_visitOrder_le expr.addrs.length [expr] x
  have := unique x
  rw [occAll_cons, occAll_nil] at visited
  exact Nat.le_trans visited this

theorem kindAt_site {expr : ExprRef} {path : List Nat} {above : List Kind} {addr : Nat} {k : Kind}
    (site : SiteAt expr path above addr k) (unique : occ addr expr ≤ 1) :
    kindAt expr addr = some k := by
  obtain ⟨cs, reached⟩ := site
  rw [kindAt, reached.find? rfl unique]

/-- The loops over a fragment come to a node of the kind. -/
inductive Inspects : Expr → Kind → Prop where
  | here (k : Kind) (cs : List Expr) : Inspects (.node k cs) k
  | child {k : Kind} {cs : List Expr} {c : Expr} {k' : Kind} (enumerated : k.isEnumerated = true)
      (member : c ∈ cs) (below : Inspects c k') : Inspects (.node k cs) k'

theorem SiteAt.inspects {root : ExprRef} {path : List Nat} {above : List Kind} {addr : Nat} {k : Kind}
    (site : SiteAt root path above addr k) : Inspects root.expr k := by
  obtain ⟨cs, reached⟩ := site
  generalize node : ExprRef.node addr k cs = e at reached
  induction reached with
  | here =>
    subst node
    exact .here k _
  | child enumerated member _ ih =>
    rw [expr, exprs_eq_map]
    exact .child enumerated (List.mem_map_of_mem (List.mem_of_getElem? member)) (ih node)

theorem exists_site {root : ExprRef} {k : Kind} (visits : Inspects root.expr k) :
    ∃ path above addr, SiteAt root path above addr k := by
  generalize inside : root.expr = e at visits
  induction visits generalizing root with
  | here k cs =>
    cases root with
    | null => cases inside
    | node a k' cs' =>
      cases inside
      exact ⟨[], [], a, cs', .here _⟩
  | @child k₀ cs₀ c₀ k' enumerated member _ ih =>
    cases root with
    | null => cases inside
    | node a k₁ cs' =>
      cases inside
      rw [exprs_eq_map] at member
      obtain ⟨c, member, equal⟩ := List.mem_map.mp member
      obtain ⟨i, position⟩ := List.mem_iff_getElem?.mp member
      obtain ⟨path, above, addr, ds, reached⟩ := ih equal
      exact ⟨i :: path, k₀ :: above, addr, ds, .child enumerated position reached⟩

/-- A copy of an expression is a copy. -/
theorem expr_place (e : Expr) (next : Nat) : (place e next).1.expr = e := by
  induction e generalizing next with
  | null => rfl
  | node k cs ih =>
    have all : ∀ next, exprs (placeAll cs next).1 = cs := by
      clear next
      induction cs with
      | nil => exact fun _ => rfl
      | cons c cs rest =>
        intro next
        rw [placeAll, exprs, ih c List.mem_cons_self, rest fun d member => ih d (List.mem_cons_of_mem _ member)]
    rw [place, expr, all]

/-- The nodes of a copy are new. -/
theorem fragmentNodes_place {e : Expr} {next el : Nat} (visited : el ∈ fragmentNodes (place e next).1) :
    next ≤ el := by
  obtain ⟨path, above, k, cs, reached⟩ := mem_fragmentNodes.mp visited
  have inside := reached.occ_le el
  rw [occ_node, if_pos rfl, occ_place] at inside
  by_contra before
  rw [if_neg (by omega)] at inside
  omega

/-! ## Labels given out -/

/-- `BinaryenBlockGetName` and `BinaryenLoopGetName`, on blocks and loops. -/
def labelName? : Kind → Option (Option String)
  | .block name _ | .loop name => some name
  | _ => none

/-- A label given to a node, in place of the one it had. -/
structure Renaming where
  node : Nat
  old : Option String
  new : String

/-- The branches that named the old label follow. -/
def Renaming.retarget (r : Renaming) (k : Kind) : Kind :=
  match r.old with
  | none => k
  | some old => renameTarget old r.new k

/-- What a renaming does to the node at an address. -/
def Renaming.apply (r : Renaming) (branches : List Branch) (addr : Nat) (k : Kind) : Kind :=
  let followed := if addr ∈ branches.map (·.brInst) then r.retarget k else k
  if addr = r.node then setLabel r.new followed else followed

def applyAll (branches : List Branch) (rs : List Renaming) (addr : Nat) (k : Kind) : Kind :=
  rs.foldl (fun k r => r.apply branches addr k) k

/-- The label that a node has before the renaming, where it is a block or loop. -/
def labelled? (expr : ExprRef) (el : Nat) : Option (Nat × Option String) :=
  ((kindAt expr el).bind labelName?).map fun name => (el, name)

theorem kindAt_relabel (g : Nat → Kind → Kind) (e : ExprRef) (a : Nat) :
    kindAt (relabel g e) a = (kindAt e a).map (g a) := by
  unfold kindAt
  rw [find?_relabel]
  cases found : ExprRef.find? a e with
  | none => rfl
  | some n =>
    obtain ⟨k, cs, rfl⟩ := (find?_found found).node
    rw [Option.map_some, relabel_node]
    rfl

theorem setKind_eq_relabel {expr : ExprRef} {addr : Nat} (change : Kind → Kind)
    (unique : occ addr expr ≤ 1) :
    setKind expr addr change = relabel (fun a k => if a = addr then change k else k) expr :=
  write_eq_relabel change unique

/-- Where no branch is collected twice, all of them change at once. -/
theorem setKinds_eq_relabel (change : Kind → Kind) {branches : List Branch}
    (distinct : (branches.map (·.brInst)).Nodup) {expr : ExprRef} (unique : ∀ x, occ x expr ≤ 1) :
    branches.foldl (fun expr br => setKind expr br.brInst change) expr =
      relabel (fun a k => if a ∈ branches.map (·.brInst) then change k else k) expr := by
  induction branches generalizing expr with
  | nil =>
    simp only [List.foldl_nil, List.map_nil, List.not_mem_nil, ↓reduceIte]
    exact (relabel_id expr).symm
  | cons br rest ih =>
    rw [List.map_cons, List.nodup_cons] at distinct
    rw [List.foldl_cons, ih distinct.2 (by
      intro x
      rw [setKind_eq_relabel change (unique _), occ_relabel]
      exact unique x), setKind_eq_relabel change (unique _), relabel_relabel]
    congr
    funext a k
    simp only [List.map_cons, List.mem_cons]
    by_cases first : a = br.brInst
    · subst first
      simp [distinct.1]
    · simp [first]

theorem renameBranches_eq_relabel {branches : List Branch}
    (distinct : (branches.map (·.brInst)).Nodup) (r : Renaming) {expr : ExprRef}
    (unique : ∀ x, occ x expr ≤ 1) :
    setKind (renameBranches branches r.old r.new expr) r.node (setLabel r.new) =
      relabel (r.apply branches) expr := by
  have followed : renameBranches branches r.old r.new expr =
      relabel (fun a k => if a ∈ branches.map (·.brInst) then r.retarget k else k) expr := by
    unfold renameBranches Renaming.retarget
    cases r.old with
    | none =>
      simp only [ite_self]
      exact (relabel_id expr).symm
    | some old => exact setKinds_eq_relabel _ distinct unique
  rw [followed, setKind_eq_relabel _ (by rw [occ_relabel]; exact unique _), relabel_relabel]
  rfl

@[simp] theorem labelName?_renameTarget (old new : String) (k : Kind) :
    labelName? (renameTarget old new k) = labelName? k := by
  cases k <;> rfl

@[simp] theorem labelName?_retarget (r : Renaming) (k : Kind) :
    labelName? (r.retarget k) = labelName? k := by
  unfold Renaming.retarget
  split
  · rfl
  · exact labelName?_renameTarget _ _ k

/-- A renaming changes the label of one node. -/
theorem labelName?_apply_other {r : Renaming} {branches : List Branch} {addr : Nat}
    (other : addr ≠ r.node) (k : Kind) : labelName? (r.apply branches addr k) = labelName? k := by
  unfold Renaming.apply
  rw [if_neg other]
  split
  · exact labelName?_retarget r k
  · rfl

/-- The labels given out, each one taken from the pool. -/
structure GivenOut (s t : MutState) (rs : List Renaming) : Prop where
  taken : t.names.usedNames = s.names.usedNames ++ rs.map (·.new)
  made : ∀ r ∈ rs, ∃ n, r.new = fuzzName n

theorem renameLabels_cons (branches : List Branch) (el : Nat) (rest : List Nat) (expr : ExprRef) :
    renameLabels branches (el :: rest) expr =
      match (kindAt expr el).bind labelName? with
      | none => renameLabels branches rest expr
      | some name => draw Gen.freshName >>= fun new =>
        renameLabels branches rest (setKind (renameBranches branches name new expr) el (setLabel new)) := by
  rw [renameLabels]
  cases kindAt expr el with
  | none => rfl
  | some k => cases k <;> rfl

/-- The renaming pass gives every block and loop it visits a label from the pool. -/
theorem renameLabels_run {branches : List Branch} (distinct : (branches.map (·.brInst)).Nodup)
    {nodes : List Nat} (nodup : nodes.Nodup) {expr : ExprRef} (unique : ∀ x, occ x expr ≤ 1)
    (s : MutState) :
    ∃ rs t, renameLabels branches nodes expr s = .ok (relabel (applyAll branches rs) expr) t ∧
      rs.map (fun r => (r.node, r.old)) = nodes.filterMap (labelled? expr) ∧ GivenOut s t rs := by
  induction nodes generalizing expr s with
  | nil =>
    refine ⟨[], s, ?_, rfl, by simp, by simp⟩
    exact congrArg (EStateM.Result.ok · s) (relabel_id expr).symm
  | cons el rest ih =>
    rw [List.nodup_cons] at nodup
    rw [renameLabels_cons]
    cases labelled : (kindAt expr el).bind labelName? with
    | none =>
      rw [List.filterMap_cons_none (by rw [labelled?, labelled]; rfl)]
      exact ih nodup.2 unique s
    | some name =>
      let pool := wasmFindAvailableName s.names
      let r : Renaming := ⟨el, name, pool.1⟩
      have kept : ∀ el' ∈ rest, labelled? (relabel (r.apply branches) expr) el' = labelled? expr el' := by
        intro el' later
        have other : el' ≠ r.node := by
          rintro rfl
          exact nodup.1 later
        unfold labelled?
        rw [kindAt_relabel]
        cases kindAt expr el' with
        | none => rfl
        | some k => rw [Option.map_some, Option.bind_some, Option.bind_some, labelName?_apply_other other]
      have still : ∀ x, occ x (relabel (r.apply branches) expr) ≤ 1 := by simpa using unique
      obtain ⟨rs, t, run, nodes, given⟩ := ih nodup.2 still { s with names := pool.2 }
      obtain ⟨made, _, taken⟩ := wasmFindAvailableName_spec s.names
      refine ⟨r :: rs, t, ?_, ?_, ?_, ?_⟩
      · rw [relabel_relabel, ← renameBranches_eq_relabel distinct r unique] at run
        exact run
      · rw [List.filterMap_cons_some (by rw [labelled?, labelled]; rfl), List.map_cons, nodes,
          List.filterMap_congr kept]
      · rw [given.taken]
        simp only [pool, taken, List.map_cons, r, List.append_assoc, List.singleton_append]
      · exact List.forall_mem_cons.mpr ⟨made, given.made⟩

/-! ## One replacement for all -/

/-- Replace all targets of a branch. -/
def mapTargets (σ : String → String) : Kind → Kind
  | .break_ name => .break_ (σ name)
  | .switch names dft => .switch (names.map σ) (σ dft)
  | k => k

theorem mapTargets_mapTargets (σ τ : String → String) (k : Kind) :
    mapTargets σ (mapTargets τ k) = mapTargets (fun name => σ (τ name)) k := by
  cases k <;> simp [mapTargets]

theorem mapTargets_id (k : Kind) : mapTargets (fun name => name) k = k := by
  cases k <;> simp [mapTargets]

/-- What one renaming makes of a target. -/
def Renaming.target (r : Renaming) (name : String) : String := if r.old = some name then r.new else name

/-- What the renamings one after another make of a target. -/
def renamedTarget (rs : List Renaming) (name : String) : String := rs.foldl (fun name r => r.target name) name

theorem Renaming.retarget_eq (r : Renaming) (k : Kind) : r.retarget k = mapTargets r.target k := by
  unfold Renaming.retarget Renaming.target
  cases r.old with
  | none => exact (mapTargets_id k).symm
  | some old => cases k <;> simp [renameTarget, mapTargets, eq_comm]

theorem setLabel_of_unlabelled {k : Kind} (unlabelled : labelName? k = none) (new : String) :
    setLabel new k = k := by
  cases k <;> first | rfl | cases unlabelled

theorem mapTargets_of_labelled {k : Kind} {old : Option String} (labelled : labelName? k = some old)
    (σ : String → String) : mapTargets σ k = k := by
  cases k <;> first | rfl | cases labelled

@[simp] theorem labelName?_mapTargets (σ : String → String) (k : Kind) :
    labelName? (mapTargets σ k) = labelName? k := by
  cases k <;> rfl

theorem labelName?_setLabel {k : Kind} {old : Option String} (labelled : labelName? k = some old)
    (new : String) : labelName? (setLabel new k) = some (some new) := by
  cases k <;> first | rfl | cases labelled

section
variable {branches : List Branch} {rs : List Renaming} {addr : Nat} {k : Kind}

/-- A branch follows all renamings. -/
theorem applyAll_branch (unlabelled : labelName? k = none) (collected : addr ∈ branches.map (·.brInst)) :
    applyAll branches rs addr k = mapTargets (renamedTarget rs) k := by
  induction rs generalizing k with
  | nil => exact (mapTargets_id k).symm
  | cons r rs ih =>
    have still : labelName? (mapTargets r.target k) = none := by
      rw [labelName?_mapTargets, unlabelled]
    have step : r.apply branches addr k = mapTargets r.target k := by
      unfold Renaming.apply
      dsimp only
      rw [if_pos collected, r.retarget_eq, setLabel_of_unlabelled still, ite_self]
    unfold applyAll at ih ⊢
    rw [List.foldl_cons, step, ih still, mapTargets_mapTargets]
    rfl

/-- What is neither a branch nor has a label stays. -/
theorem applyAll_other (unlabelled : labelName? k = none) (stays : addr ∉ branches.map (·.brInst)) :
    applyAll branches rs addr k = k := by
  induction rs with
  | nil => rfl
  | cons r rs ih =>
    have step : r.apply branches addr k = k := by
      unfold Renaming.apply
      dsimp only
      rw [if_neg stays, setLabel_of_unlabelled unlabelled, ite_self]
    unfold applyAll at ih ⊢
    rw [List.foldl_cons, step, ih]

private theorem apply_of_labelled {old : Option String} (labelled : labelName? k = some old) (r : Renaming) :
    r.apply branches addr k = if addr = r.node then setLabel r.new k else k := by
  unfold Renaming.apply
  rw [r.retarget_eq, mapTargets_of_labelled labelled, ite_self]

private theorem applyAll_elsewhere {old : Option String} (labelled : labelName? k = some old)
    (elsewhere : ∀ r ∈ rs, addr ≠ r.node) : applyAll branches rs addr k = k := by
  induction rs with
  | nil => rfl
  | cons r rs ih =>
    rw [List.forall_mem_cons] at elsewhere
    unfold applyAll at ih ⊢
    rw [List.foldl_cons, apply_of_labelled labelled, if_neg elsewhere.1, ih elsewhere.2]

/-- A block or loop gets the label that was given out for it. -/
theorem applyAll_labelled {old : Option String} (labelled : labelName? k = some old)
    (nodup : (rs.map (·.node)).Nodup) {r : Renaming} (member : r ∈ rs) (here : addr = r.node) :
    applyAll branches rs addr k = setLabel r.new k := by
  induction rs with
  | nil => cases member
  | cons r' rs ih =>
    rw [List.map_cons, List.nodup_cons] at nodup
    unfold applyAll at ih ⊢
    rw [List.foldl_cons, apply_of_labelled labelled]
    rcases List.mem_cons.mp member with rfl | later
    · rw [if_pos here]
      refine applyAll_elsewhere (labelName?_setLabel labelled _) ?_
      rintro r' member rfl
      exact nodup.1 (here ▸ List.mem_map_of_mem member)
    · have other : addr ≠ r'.node := by
        rintro rfl
        exact nodup.1 (here ▸ List.mem_map_of_mem later)
      rw [if_neg other]
      exact ih nodup.2 later

/-- A name that no renaming is about stays. -/
theorem renamedTarget_of_absent {name : String} (absent : ∀ r ∈ rs, r.old ≠ some name) :
    renamedTarget rs name = name := by
  induction rs with
  | nil => rfl
  | cons r rs ih =>
    rw [List.forall_mem_cons] at absent
    have step : r.target name = name := if_neg absent.1
    unfold renamedTarget at ih ⊢
    rw [List.foldl_cons, step, ih absent.2]

/-- The one renaming that is about a name decides what becomes of it, as no other is about what it
becomes. -/
theorem renamedTarget_of_mem {name : String} {r : Renaming} (member : r ∈ rs) (about : r.old = some name)
    (only : ∀ r' ∈ rs, r'.old = some name → r' = r) (new : ∀ r' ∈ rs, r'.old ≠ some r.new) :
    renamedTarget rs name = r.new := by
  induction rs with
  | nil => cases member
  | cons r' rs ih =>
    rw [List.forall_mem_cons] at only new
    unfold renamedTarget at ih ⊢
    rw [List.foldl_cons]
    by_cases first : r'.old = some name
    · have step : r'.target name = r'.new := if_pos first
      rw [step, only.1 first]
      exact renamedTarget_of_absent new.2
    · have step : r'.target name = name := if_neg first
      rw [step]
      refine ih ?_ only.2 new.2
      rcases List.mem_cons.mp member with rfl | later
      · exact absurd about first
      · exact later

end

/-! ## Changes and paths -/

section
variable {g : Nat → Kind → Kind} {root e : ExprRef} {path : List Nat} {above : List Kind}
  (same : ∀ a k, (g a k).isEnumerated = k.isEnumerated)
include same

/-- A path leads to the changed node, past changed ones. -/
theorem Reaches.relabel (reached : Reaches root path above e) :
    ∃ above', Reaches (relabel g root) path above' (relabel g e) ∧
      List.Forall₂ (fun k k' => ∃ path above addr, SiteAt root path above addr k ∧ k' = g addr k)
        above above' := by
  induction reached with
  | here => exact ⟨[], .here _, .nil⟩
  | @child b k cs i c _ _ _ enumerated member _ ih =>
    obtain ⟨above', reached', changed⟩ := ih
    refine ⟨g b k :: above', ?_, .cons ⟨[], [], b, ⟨cs, .here _⟩, rfl⟩ ?_⟩
    · rw [relabel_node]
      refine .child (by rw [same, enumerated]) ?_ reached'
      rw [List.getElem?_map, member]
      rfl
    · apply changed.imp
      rintro k' _ ⟨path, above, addr, ⟨ds, below⟩, rfl⟩
      exact ⟨i :: path, k :: above, addr, ⟨ds, .child enumerated member below⟩, rfl⟩

/-- What a path leads to after a change was there before. -/
theorem Reaches.of_relabel (reached : Reaches (ExprRef.relabel g root) path above e) :
    ∃ above₀ e₀, Reaches root path above₀ e₀ ∧ e = ExprRef.relabel g e₀ := by
  generalize changed : ExprRef.relabel g root = root' at reached
  induction reached generalizing root with
  | here => exact ⟨[], root, .here _, changed.symm⟩
  | @child b k cs i c _ _ _ enumerated member _ ih =>
    cases root with
    | null => cases changed
    | node b₀ k₀ cs₀ =>
      rw [relabel_node] at changed
      cases changed
      rw [List.getElem?_map, Option.map_eq_some_iff] at member
      obtain ⟨c₀, member, equal⟩ := member
      obtain ⟨above₀, e₀, reached, here⟩ := ih equal
      exact ⟨k₀ :: above₀, e₀, .child (by rw [← same b, enumerated]) member reached, here⟩

theorem SiteAt.relabel {addr : Nat} {k : Kind} (site : SiteAt root path above addr k) :
    ∃ above', SiteAt (ExprRef.relabel g root) path above' addr (g addr k) ∧
      List.Forall₂ (fun k k' => ∃ path above addr, SiteAt root path above addr k ∧ k' = g addr k)
        above above' := by
  obtain ⟨cs, reached⟩ := site
  obtain ⟨above', reached', changed⟩ := Reaches.relabel same reached
  rw [relabel_node] at reached'
  exact ⟨above', ⟨_, reached'⟩, changed⟩

theorem SiteAt.of_relabel {addr : Nat} {k' : Kind}
    (site : SiteAt (ExprRef.relabel g root) path above addr k') :
    ∃ above₀ k, SiteAt root path above₀ addr k ∧ k' = g addr k := by
  obtain ⟨cs, reached⟩ := site
  obtain ⟨above₀, _ | ⟨addr₀, k, cs₀⟩, reached₀, here⟩ := Reaches.of_relabel same reached
  · cases here
  · rw [relabel_node] at here
    cases here
    exact ⟨above₀, k, ⟨cs₀, reached₀⟩, rfl⟩

end

@[simp] theorem isEnumerated_mapTargets (σ : String → String) (k : Kind) :
    (mapTargets σ k).isEnumerated = k.isEnumerated := by
  cases k <;> rfl

@[simp] theorem isEnumerated_setLabel (new : String) (k : Kind) :
    (setLabel new k).isEnumerated = k.isEnumerated := by
  cases k <;> rfl

/-- What does not depend on labels and targets stays. -/
theorem applyAll_iff {P : Kind → Prop} (labels : ∀ new k, P (setLabel new k) ↔ P k)
    (targets : ∀ σ k, P (mapTargets σ k) ↔ P k) (branches : List Branch) (rs : List Renaming) (addr : Nat)
    (k : Kind) : P (applyAll branches rs addr k) ↔ P k := by
  induction rs generalizing k with
  | nil => rfl
  | cons r rs ih =>
    have step : P (r.apply branches addr k) ↔ P k := by
      unfold Renaming.apply
      rw [r.retarget_eq]
      dsimp only
      split <;> split <;> simp only [labels, targets]
    exact (ih _).trans step

theorem isEnumerated_applyAll (branches : List Branch) (rs : List Renaming) (addr : Nat) (k : Kind) :
    (applyAll branches rs addr k).isEnumerated = k.isEnumerated := by
  refine Bool.eq_iff_iff.mpr (applyAll_iff (P := fun k => k.isEnumerated = true) ?_ ?_ branches rs addr k)
  · exact fun new k => by rw [isEnumerated_setLabel]
  · exact fun σ k => by rw [isEnumerated_mapTargets]

/-! ## Binding -/

/-- How far out the block or loop is that a target leads to. -/
def binder (above : List Kind) (name : String) : Option Nat :=
  above.reverse.findIdx? fun k => labelName? k = some (some name)

def branchTargets : Kind → List String
  | .break_ name => [name]
  | .switch names dft => dft :: names
  | _ => []

def HasLabel (root : ExprRef) (path : List Nat) (name : String) : Prop :=
  ∃ above addr k, SiteAt root path above addr k ∧ labelName? k = some (some name)

/-- No two blocks or loops have the same label. -/
def DistinctLabels (root : ExprRef) : Prop :=
  ∀ path path' name, HasLabel root path name → HasLabel root path' name → path = path'

/-- Branches out of the fragment name none of its labels. -/
def FreeElsewhere (root : ExprRef) : Prop :=
  ∀ path above addr k name, SiteAt root path above addr k → name ∈ branchTargets k →
    binder above name = none → ∀ path', ¬ HasLabel root path' name

/-- The name is not one of the pool, or one that was handed out since the last reset. -/
def InUse (names : NameGroup) (name : String) : Prop :=
  ∀ n, name = fuzzName n → name ∈ names.usedNames

/-- What the pass makes of a node, with the nodes on the way to it before and after. -/
structure Relabelled (names names' : NameGroup) (above above' : List Kind) (k k' : Kind) : Prop where
  label : ∀ old, labelName? k = some old → ∃ n, k' = setLabel (fuzzName n) k ∧
    fuzzName n ∉ names.usedNames ∧ fuzzName n ∈ names'.usedNames
  targets : labelName? k = none → ∃ σ, k' = mapTargets σ k ∧ ∀ name ∈ branchTargets k,
    (binder above name ≠ none → binder above' (σ name) = binder above name) ∧
    (binder above name = none → σ name = name ∧ (InUse names name → binder above' name = none))

theorem binder_eq_none {above : List Kind} {name : String} :
    binder above name = none ↔ ∀ k ∈ above, labelName? k ≠ some (some name) := by
  simp [binder, List.findIdx?_eq_none_iff]

/-- The binder is found at the same distance where the same nodes have the label looked for. -/
theorem binder_congr {above above' : List Kind} {name name' : String}
    (each : List.Forall₂ (fun k k' => labelName? k' = some (some name') ↔ labelName? k = some (some name))
      above above') : binder above' name' = binder above name := by
  have reversed := List.forall₂_reverse_iff.mpr each
  unfold binder
  generalize above.reverse = inside, above'.reverse = inside' at reversed
  induction reversed with
  | nil => rfl
  | cons first _ ih =>
    rw [List.findIdx?_cons, List.findIdx?_cons, ih]
    simp only [first]

/-! ## The pass -/

theorem collectBranches_collected {splBody expr : ExprRef} {nodes : List Nat} {s t : MutState}
    {branches : List Branch} (run : collectBranches splBody expr nodes s = .ok branches t) :
    branches.map (·.brInst) = (nodes.filter fun el => ((kindAt expr el).bind branchLabel).isSome) ∧
      t = s := by
  induction nodes generalizing branches with
  | nil =>
    cases run
    exact ⟨rfl, rfl⟩
  | cons el rest ih =>
    rw [collectBranches] at run
    cases found : (kindAt expr el).bind branchLabel with
    | none =>
      rw [found] at run
      rw [List.filter_cons_of_neg (by simp [found])]
      exact ih run
    | some labelName =>
      rw [found] at run
      rw [List.filter_cons_of_pos (by simp [found])]
      obtain ⟨labelsSpl, u, looped, run⟩ := run_bind_ok run
      obtain ⟨later, v, rest, run⟩ := run_bind_ok run
      cases run
      have same : u = s := by
        unfold CList.foreach at looped
        split at looped
        · cases looped
          rfl
        · cases looped
      subst same
      obtain ⟨insts, same⟩ := ih rest
      rw [List.map_cons, insts]
      exact ⟨rfl, same⟩

/-- What is known of the labels given out in the pass over a copied fragment. -/
structure Renamings (copy : ExprRef) (branches : List Branch) (rs : List Renaming) : Prop where
  unique : ∀ x, occ x copy ≤ 1
  visited : rs.map (fun r => (r.node, r.old)) = (fragmentNodes copy).filterMap (labelled? copy)
  collected : branches.map (·.brInst) =
    (fragmentNodes copy).filter fun el => ((kindAt copy el).bind branchLabel).isSome
  fresh : (rs.map (·.new)).Nodup

namespace Renamings

variable {copy : ExprRef} {branches : List Branch} {rs : List Renaming}
  (pass : Renamings copy branches rs)
include pass

theorem nodes_nodup : (rs.map (·.node)).Nodup := by
  have nodes : rs.map (·.node) =
      (fragmentNodes copy).filterMap fun el => (labelled? copy el).map Prod.fst := by
    rw [← List.map_filterMap, ← pass.visited, List.map_map]
    rfl
  rw [nodes]
  apply List.Nodup.filterMap _ (fragmentNodes_nodup pass.unique)
  intro a a' b here here'
  unfold labelled? at here here'
  simp only [Option.map_map, Option.mem_def, Option.map_eq_some_iff, Function.comp] at here here'
  obtain ⟨_, _, rfl⟩ := here
  obtain ⟨_, _, equal⟩ := here'
  exact equal.symm

/-- Every block and loop was given a label. -/
theorem of_site {path : List Nat} {above : List Kind} {addr : Nat} {k : Kind} {old : Option String}
    (site : SiteAt copy path above addr k) (labelled : labelName? k = some old) :
    ∃ r ∈ rs, r.node = addr ∧ r.old = old := by
  have listed : (addr, old) ∈ rs.map fun r => (r.node, r.old) := by
    rw [pass.visited]
    refine List.mem_filterMap.mpr ⟨addr, mem_fragmentNodes.mpr ⟨path, above, k, site⟩, ?_⟩
    rw [labelled?, kindAt_site site (pass.unique addr), Option.bind_some, labelled]
    rfl
  obtain ⟨r, member, equal⟩ := List.mem_map.mp listed
  exact ⟨r, member, congrArg Prod.fst equal, congrArg Prod.snd equal⟩

/-- Labels were given to blocks and loops. -/
theorem site {r : Renaming} (member : r ∈ rs) :
    ∃ path above k, SiteAt copy path above r.node k ∧ labelName? k = some r.old := by
  have listed : (r.node, r.old) ∈ rs.map fun r => (r.node, r.old) := List.mem_map_of_mem member
  rw [pass.visited, List.mem_filterMap] at listed
  obtain ⟨el, visited, labelled⟩ := listed
  obtain ⟨path, above, k, site⟩ := mem_fragmentNodes.mp visited
  rw [labelled?, kindAt_site site (pass.unique el), Option.bind_some, Option.map_eq_some_iff] at labelled
  obtain ⟨name, labelled, equal⟩ := labelled
  cases equal
  exact ⟨path, above, k, site, labelled⟩

/-- What becomes of a block or loop. -/
theorem labelled {path : List Nat} {above : List Kind} {addr : Nat} {k : Kind} {old : Option String}
    (site : SiteAt copy path above addr k) (labelled : labelName? k = some old) :
    ∃ r ∈ rs, r.node = addr ∧ r.old = old ∧ applyAll branches rs addr k = setLabel r.new k := by
  obtain ⟨r, member, here, was⟩ := pass.of_site site labelled
  exact ⟨r, member, here, was, applyAll_labelled labelled pass.nodes_nodup member here.symm⟩

/-- What becomes of any other node. -/
theorem unlabelled {path : List Nat} {above : List Kind} {addr : Nat} {k : Kind}
    (site : SiteAt copy path above addr k) (unlabelled : labelName? k = none) :
    applyAll branches rs addr k = mapTargets (renamedTarget rs) k := by
  by_cases branch : (branchLabel k).isSome
  · apply applyAll_branch unlabelled
    rw [pass.collected]
    refine List.mem_filter.mpr ⟨mem_fragmentNodes.mpr ⟨path, above, k, site⟩, ?_⟩
    rw [kindAt_site site (pass.unique addr), Option.bind_some, branch]
  · rw [applyAll_other unlabelled]
    · cases k <;> first | rfl | simp [branchLabel] at branch
    · rw [pass.collected]
      intro member
      have := (List.mem_filter.mp member).2
      rw [kindAt_site site (pass.unique addr), Option.bind_some] at this
      exact branch this

/-- A node has a label after the pass just when the label was given out for it. -/
theorem labelName?_applyAll {path : List Nat} {above : List Kind} {addr : Nat} {k : Kind}
    (site : SiteAt copy path above addr k) (name : String) :
    labelName? (applyAll branches rs addr k) = some (some name) ↔
      ∃ r ∈ rs, r.node = addr ∧ r.new = name := by
  cases kind : labelName? k with
  | none =>
    rw [pass.unlabelled site kind, labelName?_mapTargets, kind]
    refine iff_of_false nofun ?_
    rintro ⟨r, member, rfl, _⟩
    obtain ⟨path', above', k', site', labelled⟩ := pass.site member
    have same := kindAt_site site' (pass.unique _)
    rw [kindAt_site site (pass.unique _)] at same
    cases same
    rw [kind] at labelled
    cases labelled
  | some old =>
    obtain ⟨r, member, here, _, becomes⟩ := pass.labelled site kind
    rw [becomes, labelName?_setLabel kind, Option.some.injEq, Option.some.injEq]
    constructor
    · intro named
      exact ⟨r, member, here, named⟩
    · rintro ⟨r', member', here', rfl⟩
      rw [List.inj_on_of_nodup_map pass.nodes_nodup member' member (here'.trans here.symm)]

variable (distinct : DistinctLabels copy)
include distinct

/-- One renaming is about a label. -/
theorem only {r r' : Renaming} {name : String} (member : r ∈ rs) (member' : r' ∈ rs)
    (about : r.old = some name) (about' : r'.old = some name) : r' = r := by
  obtain ⟨path, above, k, site, labelled⟩ := pass.site member
  obtain ⟨path', above', k', site', labelled'⟩ := pass.site member'
  have samePath : path = path' := distinct path path' name
    ⟨above, r.node, k, site, by rw [labelled, about]⟩ ⟨above', r'.node, k', site', by rw [labelled', about']⟩
  subst samePath
  obtain ⟨_, reached⟩ := site
  obtain ⟨_, reached'⟩ := site'
  obtain ⟨_, here⟩ := reached'.same reached
  exact List.inj_on_of_nodup_map pass.nodes_nodup member' member (ExprRef.node.inj here).1

variable (foreign : ∀ path n, ¬ HasLabel copy path (fuzzName n))
  (made : ∀ r ∈ rs, ∃ n, r.new = fuzzName n)
include foreign made

/-- A label is replaced by the one given out for it: that is not a label of the fragment itself. -/
theorem renamedTarget_label {r : Renaming} {name : String} (member : r ∈ rs)
    (about : r.old = some name) : renamedTarget rs name = r.new := by
  refine renamedTarget_of_mem member about (fun r' member' about' => pass.only distinct member member' about about') ?_
  intro r' member' about'
  obtain ⟨n, new⟩ := made r member
  obtain ⟨path, above, k, site, labelled⟩ := pass.site member'
  exact foreign path n ⟨above, r'.node, k, site, by rw [labelled, about', new]⟩

/-- After the pass a node has the label that a label became just when it had that label. -/
theorem labelName?_renamed {r : Renaming} {name : String} (member : r ∈ rs) (about : r.old = some name)
    {path : List Nat} {above : List Kind} {addr : Nat} {k : Kind} (site : SiteAt copy path above addr k) :
    labelName? (applyAll branches rs addr k) = some (some (renamedTarget rs name)) ↔
      labelName? k = some (some name) := by
  rw [pass.labelName?_applyAll site, pass.renamedTarget_label distinct foreign made member about]
  constructor
  · rintro ⟨r', member', rfl, new⟩
    have same : r' = r := List.inj_on_of_nodup_map pass.fresh member' member new
    subst same
    obtain ⟨path', above', k', site', labelled⟩ := pass.site member
    have equal := kindAt_site site' (pass.unique _)
    rw [kindAt_site site (pass.unique _)] at equal
    cases equal
    rw [labelled, about]
  · intro labelled
    obtain ⟨r', member', here, was⟩ := pass.of_site site labelled
    have same := pass.only distinct member member' about was
    exact ⟨r', member', here, congrArg Renaming.new same⟩

end Renamings

/-- A target that is bound is a label of the fragment. -/
theorem hasLabel_of_bound {copy : ExprRef} {above above' : List Kind} {name : String}
    {R : Nat → Kind → Kind → Prop} (bound : binder above name ≠ none)
    (changed : List.Forall₂ (fun k k' => ∃ path above addr, SiteAt copy path above addr k ∧ R addr k k')
      above above') : ∃ path, HasLabel copy path name := by
  have each : List.Forall₂
      (fun k _ => (∃ path above addr, SiteAt copy path above addr k) ∧ True) above above' :=
    changed.imp fun _ _ ⟨path, above, addr, site, _⟩ => ⟨⟨path, above, addr, site⟩, trivial⟩
  have sites := (List.forall₂_and_left _ _).mp each |>.1
  rw [Ne, binder_eq_none] at bound
  push Not at bound
  obtain ⟨k, member, labelled⟩ := bound
  obtain ⟨path, above, addr, site⟩ := sites k member
  exact ⟨path, above, addr, k, site, labelled⟩

/-- The renaming pass does not lose, lead astray or capture a branch, and gives out no label
twice. -/
theorem renaming_keeps_binders (splBody : ExprRef) (e : Expr) {s t u : MutState} {copy : ExprRef}
    {branches : List Branch} (copied : allocExpr e s = .ok copy t)
    (collected : collectBranches splBody copy (fragmentNodes copy) t = .ok branches u)
    (distinct : DistinctLabels copy) (foreign : ∀ path n, ¬ HasLabel copy path (fuzzName n))
    (free : FreeElsewhere copy) :
    ∃ renamed v, renameLabels branches (fragmentNodes copy) copy u = .ok renamed v ∧
      (∀ path above addr k, SiteAt copy path above addr k → ∃ above' k',
        SiteAt renamed path above' addr k' ∧ Relabelled u.names v.names above above' k k') ∧
      (∀ path above' addr k', SiteAt renamed path above' addr k' →
        ∃ above k, SiteAt copy path above addr k) ∧
      DistinctLabels renamed ∧
      ∀ path name, HasLabel renamed path name → ¬ InUse u.names name := by
  obtain ⟨insts, _⟩ := collectBranches_collected collected
  have unique : ∀ x, occ x copy ≤ 1 := by
    cases copied
    exact occ_place_le_one e _
  have nodup := fragmentNodes_nodup unique
  have apart : (branches.map (·.brInst)).Nodup := insts ▸ nodup.filter _
  obtain ⟨rs, v, run, visited, given⟩ := renameLabels_run apart nodup unique u
  have news : (u.names.usedNames ++ rs.map (·.new)).Nodup := by
    have := v.names.distinct
    rw [given.taken] at this
    exact (List.nodup_append.mp this).2.1
  have unused : ∀ r ∈ rs, r.new ∉ u.names.usedNames := by
    intro r member used
    exact (List.nodup_append.mp news).2.2 _ used _ (List.mem_map_of_mem member) rfl
  have pass : Renamings copy branches rs := ⟨unique, visited, insts, (List.nodup_append.mp news).2.1⟩
  have enumerated := isEnumerated_applyAll branches rs
  have newLabel : ∀ {path above addr k name}, SiteAt copy path above addr k →
      labelName? (applyAll branches rs addr k) = some (some name) → ¬ InUse u.names name := by
    intro path above addr k name site labelled used
    obtain ⟨r, member, rfl, rfl⟩ := (pass.labelName?_applyAll site name).mp labelled
    obtain ⟨n, new⟩ := given.made r member
    exact unused r member (used n new)
  refine ⟨_, v, run, ?_, ?_, ?_, ?_⟩
  · intro path above addr k site
    obtain ⟨above', site', changed⟩ := SiteAt.relabel enumerated site
    refine ⟨above', _, site', ?_, ?_⟩
    · intro old labelled
      obtain ⟨r, member, _, _, becomes⟩ := pass.labelled site labelled
      obtain ⟨n, new⟩ := given.made r member
      refine ⟨n, by rw [becomes, new], new ▸ unused r member, ?_⟩
      rw [given.taken, ← new]
      exact List.mem_append_right _ (List.mem_map_of_mem member)
    · intro unlabelled
      refine ⟨renamedTarget rs, pass.unlabelled site unlabelled, ?_⟩
      intro name named
      constructor
      · -- a bound target is a label, and follows it
        intro bound
        obtain ⟨_, _, _, _, there, labelled⟩ := hasLabel_of_bound bound changed
        obtain ⟨r, member, _, about⟩ := pass.of_site there labelled
        refine binder_congr (changed.imp ?_)
        rintro k _ ⟨_, _, _, site, rfl⟩
        exact pass.labelName?_renamed distinct foreign given.made member about site
      · -- a free one is none, and no label given out was in use
        intro unbound
        have absent := free path above addr k name site named unbound
        constructor
        · apply renamedTarget_of_absent
          intro r member about
          obtain ⟨path', above', k', there, labelled⟩ := pass.site member
          exact absent path' ⟨above', r.node, k', there, by rw [labelled, about]⟩
        · intro used
          rw [← unbound]
          refine binder_congr (changed.imp ?_)
          rintro k _ ⟨path', above', addr', there, rfl⟩
          refine iff_of_false (fun labelled => newLabel there labelled used) ?_
          exact fun labelled => absent path' ⟨above', addr', k, there, labelled⟩
  · intro path above' addr k' site
    obtain ⟨above, k, site, _⟩ := SiteAt.of_relabel enumerated site
    exact ⟨above, k, site⟩
  · rintro path path' name ⟨above, addr, k, site, labelled⟩ ⟨above', addr', k', site', labelled'⟩
    obtain ⟨_, _, was, rfl⟩ := SiteAt.of_relabel enumerated site
    obtain ⟨_, _, was', rfl⟩ := SiteAt.of_relabel enumerated site'
    obtain ⟨r, member, rfl, new⟩ := (pass.labelName?_applyAll was name).mp labelled
    obtain ⟨r', member', rfl, new'⟩ := (pass.labelName?_applyAll was' name).mp labelled'
    have same : r = r' := List.inj_on_of_nodup_map pass.fresh member member' (new.trans new'.symm)
    subst same
    obtain ⟨_, reached⟩ := was
    obtain ⟨_, reached'⟩ := was'
    exact reached.path_unique rfl (unique _) reached'
  · rintro path name ⟨above, addr, k, site, labelled⟩
    obtain ⟨_, _, was, rfl⟩ := SiteAt.of_relabel enumerated site
    exact newLabel was labelled

/-- A module without anything, to copy fragments into. -/
def emptyTarget : MutState where
  mod :=
    { functions := [], globals := [], exports := [], memories := [], segments := [], tables := []
      features := [] }
  bodies := []
  nextAddr := 8
  names := wasmInitNameGrp
  rand := ⟨fun _ => 0, 0⟩
  patience := 10
  childNodeList := []
  curCnt := 0
  addedVars := []
  replaced := []

/-- A block that is left by a branch. -/
def leftBlock : Expr := .node (.block (some "a") Ty.none) [.node (.break_ "a") [.null, .null]]

/-- The function a fragment comes from. -/
def labelledBody (e : Expr) : ExprRef := .node 0 (.block (some "a") Ty.none) [(place e 1).1]

private theorem leftBlock_site {path : List Nat} {above : List Kind} {addr : Nat} {k : Kind}
    (site : SiteAt (place leftBlock 8).1 path above addr k) :
    (path = [] ∧ k = .block (some "a") Ty.none) ∨
      above = [.block (some "a") Ty.none] ∧ k = .break_ "a" := by
  obtain ⟨cs, reached⟩ := site
  cases reached with
  | here => exact .inl ⟨rfl, rfl⟩
  | @child _ _ _ i _ _ _ _ _ member below =>
    match i with
    | 0 =>
      cases member
      cases below with
      | here => exact .inr ⟨rfl, rfl⟩
      | @child _ _ _ j _ _ _ _ _ member below =>
        match j with
        | 0 | 1 =>
          cases member
          cases below
        | j + 2 => cases member
    | i + 1 => cases member

private theorem leftBlock_label {path : List Nat} {name : String}
    (labelled : HasLabel (place leftBlock 8).1 path name) : path = [] ∧ name = "a" := by
  obtain ⟨_, _, _, site, labelled⟩ := labelled
  rcases leftBlock_site site with ⟨rfl, rfl⟩ | ⟨_, rfl⟩
  · cases labelled
    exact ⟨rfl, rfl⟩
  · cases labelled

theorem renaming_keeps_binders_leftBlock :
    ∃ branches u,
      collectBranches (labelledBody leftBlock) (place leftBlock 8).1 (fragmentNodes (place leftBlock 8).1)
        { emptyTarget with nextAddr := 10 } = .ok branches u ∧
      ∃ renamed v, renameLabels branches (fragmentNodes (place leftBlock 8).1) (place leftBlock 8).1 u
          = .ok renamed v ∧
        (∀ path above addr k, SiteAt (place leftBlock 8).1 path above addr k → ∃ above' k',
          SiteAt renamed path above' addr k' ∧ Relabelled u.names v.names above above' k k') ∧
        (∀ path above' addr k', SiteAt renamed path above' addr k' →
          ∃ above k, SiteAt (place leftBlock 8).1 path above addr k) ∧
        DistinctLabels renamed ∧ ∀ path name, HasLabel renamed path name → ¬ InUse u.names name := by
  refine ⟨_, _, rfl, ?_⟩
  refine renaming_keeps_binders (labelledBody leftBlock) leftBlock (s := emptyTarget) rfl rfl ?_ ?_ ?_
  · intro path path' name labelled labelled'
    rw [(leftBlock_label labelled).1, (leftBlock_label labelled').1]
  · intro path n labelled
    have listed := congrArg String.toList (leftBlock_label labelled).2
    simp [fuzzName] at listed
  · intro path above addr k name site named unbound
    rcases leftBlock_site site with ⟨_, rfl⟩ | ⟨rfl, rfl⟩
    · cases named
    · cases List.mem_singleton.mp named
      cases unbound

/-! ## Fragments the pass is too narrow or too wide for -/

/-- A branch out of the fragment, next to a block that has the label it names. -/
def freeBeside : Expr :=
  .node (.block none Ty.none)
    [.node (.block (some "a") Ty.none) [], .node (.break_ "a") [.null, .null]]

/-- A block and a branch below a `try`, whose children are not listed. -/
def belowTry : Expr :=
  .node (.block (some "a") Ty.none)
    [.node (.try_ none Ty.none [] none)
      [.node (.block (some "b") Ty.none) [.node (.break_ "a") [.null, .null]]]]

/-- The fixup up to the end of the renaming pass. -/
def renamingPass (splBody : ExprRef) (e : Expr) : Mut ExprRef := do
  let copy ← allocExpr e
  let branches ← collectBranches splBody copy (fragmentNodes copy)
  renameLabels branches (fragmentNodes copy) copy

/-- A free branch loses its name to a label it is not below, and below a `try` neither a block gets a
label nor a branch follows. -/
theorem renaming_misses :
    (∃ renamed v, renamingPass (labelledBody freeBeside) freeBeside emptyTarget = .ok renamed v ∧
      freeBeside.labels = ["a"] ∧ binder [.block none Ty.none] "a" = none ∧
      renamed.expr.targets = [fuzzName 1] ∧ fuzzName 1 ≠ "a") ∧
    ∃ renamed v, renamingPass (labelledBody belowTry) belowTry emptyTarget = .ok renamed v ∧
      belowTry.labels = ["a", "b"] ∧ renamed.expr.labels = [fuzzName 0, "b"] ∧
      renamed.expr.targets = ["a"] ∧ ∀ n, fuzzName n ≠ "b" := by
  refine ⟨⟨_, _, rfl, rfl, rfl, rfl, by decide⟩, _, _, rfl, rfl, rfl, rfl, ?_⟩
  intro n equal
  have listed := congrArg String.toList equal
  simp [fuzzName] at listed

end Swam
