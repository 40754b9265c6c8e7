import Swam.Binaryen.Trees

/-!
# Changes of what nodes store

A write that leaves the children alone changes what one node stores. Where every address occurs
once, such writes are a change of kinds by address, and a sequence of them is one such change.
-/
namespace Swam.Binaryen.ExprRef

mutual
/-- Change what every node stores, by its address. -/
def relabel (g : Nat → Kind → Kind) : ExprRef → ExprRef
  | .null => .null
  | .node a k cs => .node a (g a k) (relabelAll g cs)

def relabelAll (g : Nat → Kind → Kind) : List ExprRef → List ExprRef
  | [] => []
  | c :: cs => relabel g c :: relabelAll g cs
end

section
variable {g h : Nat → Kind → Kind}

theorem relabelAll_eq_map (g : Nat → Kind → Kind) (cs : List ExprRef) :
    relabelAll g cs = cs.map (relabel g) := by
  induction cs with
  | nil => rfl
  | cons c cs ih => rw [relabelAll, ih, List.map_cons]

theorem relabel_node (g : Nat → Kind → Kind) (a : Nat) (k : Kind) (cs : List ExprRef) :
    relabel g (.node a k cs) = .node a (g a k) (cs.map (relabel g)) := by
  rw [relabel, relabelAll_eq_map]

@[simp] theorem addr?_relabel (g : Nat → Kind → Kind) (e : ExprRef) : (relabel g e).addr? = e.addr? := by
  cases e <;> rfl

private theorem occAll_map_relabel {x : Nat} {cs : List ExprRef}
    (each : ∀ c ∈ cs, occ x (relabel g c) = occ x c) : occAll x (cs.map (relabel g)) = occAll x cs := by
  induction cs with
  | nil => rfl
  | cons c cs ih =>
    rw [List.map_cons, occAll_cons, occAll_cons, each c List.mem_cons_self,
      ih fun c member => each c (List.mem_cons_of_mem _ member)]

@[simp] theorem occ_relabel (g : Nat → Kind → Kind) (x : Nat) (e : ExprRef) :
    occ x (relabel g e) = occ x e := by
  induction e with
  | null => rfl
  | node a k cs ih => rw [relabel_node, occ_node, occ_node, occAll_map_relabel ih]

/-- One change after another is one change. -/
theorem relabel_relabel (g h : Nat → Kind → Kind) (e : ExprRef) :
    relabel g (relabel h e) = relabel (fun a k => g a (h a k)) e := by
  induction e with
  | null => rfl
  | node a k cs ih =>
    rw [relabel_node, relabel_node, relabel_node, List.map_map]
    exact congrArg _ (List.map_congr_left ih)

/-- Only the addresses that occur count. -/
theorem relabel_congr {e : ExprRef} (same : ∀ a, 0 < occ a e → g a = h a) :
    relabel g e = relabel h e := by
  induction e with
  | null => rfl
  | node a k cs ih =>
    rw [relabel_node, relabel_node, same a (by rw [occ_node, if_pos rfl]; omega)]
    refine congrArg _ (List.map_congr_left fun c member => ih c member fun x positive => same x ?_)
    have := occ_le_occAll member x
    rw [occ_node]
    omega

theorem relabel_id (e : ExprRef) : relabel (fun _ k => k) e = e := by
  induction e with
  | null => rfl
  | node a k cs ih =>
    rw [relabel_node]
    exact congrArg _ ((List.map_congr_left ih).trans (List.map_id'' (fun _ => rfl) cs))

theorem relabel_of_absent {a : Nat} (f : Kind → Kind) {e : ExprRef} (absent : occ a e = 0) :
    relabel (fun x k => if x = a then f k else k) e = e := by
  rw [relabel_congr (h := fun _ k => k) fun x positive => ?_, relabel_id]
  funext k
  refine if_neg ?_
  rintro rfl
  omega

private theorem writeAll_eq_relabel {a : Nat} {f : Kind → Kind} {cs : List ExprRef}
    (each : ∀ c ∈ cs, write a (fun k cs => (f k, cs)) c = relabel (fun x k => if x = a then f k else k) c) :
    writeAll a (fun k cs => (f k, cs)) cs = cs.map (relabel fun x k => if x = a then f k else k) := by
  rw [writeAll_eq_map]
  exact List.map_congr_left each

/-- A write that leaves the children alone is a change at one address. -/
theorem write_eq_relabel {a : Nat} (f : Kind → Kind) {e : ExprRef} (unique : occ a e ≤ 1) :
    write a (fun k cs => (f k, cs)) e = relabel (fun x k => if x = a then f k else k) e := by
  induction e with
  | null => rfl
  | node b k cs ih =>
    rw [write_node, relabel_node]
    rw [occ_node] at unique
    split
    next same =>
      subst same
      rw [if_pos rfl] at unique
      -- there is no further occurrence below, where the write does not go
      refine congrArg _ ((List.map_id'' (fun _ => rfl) cs).symm.trans (List.map_congr_left ?_))
      intro c member
      have := occ_le_occAll member b
      exact (relabel_of_absent f (by omega)).symm
    next other =>
      rw [if_neg other] at unique
      rw [writeAll_eq_relabel fun c member => ih c member ?_]
      have := occ_le_occAll member a
      omega

private theorem findAll?_map_relabel {a : Nat} {cs : List ExprRef}
    (each : ∀ c ∈ cs, find? a (relabel g c) = (find? a c).map (relabel g)) :
    findAll? a (cs.map (relabel g)) = (findAll? a cs).map (relabel g) := by
  induction cs with
  | nil => rfl
  | cons c cs ih =>
    rw [List.map_cons, findAll?_cons, findAll?_cons, each c List.mem_cons_self,
      ih fun c member => each c (List.mem_cons_of_mem _ member)]
    cases find? a c <;> rfl

theorem find?_relabel (g : Nat → Kind → Kind) (a : Nat) (e : ExprRef) :
    find? a (relabel g e) = (find? a e).map (relabel g) := by
  induction e with
  | null => rfl
  | node b k cs ih =>
    rw [relabel_node, find?_node, find?_node]
    split
    · rw [Option.map_some, relabel_node]
    · exact findAll?_map_relabel ih

end

end Swam.Binaryen.ExprRef
