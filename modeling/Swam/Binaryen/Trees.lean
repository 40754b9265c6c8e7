import Mathlib.Data.List.Nodup
import Swam.Binaryen.Pointers

/-!
# Trees in memory

How often an address occurs among the nodes that can be reached decides what a write does. Where
every address occurs once, a write changes the children of one node, and the rest of the tree
keeps its shape.
-/
namespace Swam.Binaryen.ExprRef

/-! ## Occurrences -/

/-- How often an address occurs. -/
def occ (x : Nat) (e : ExprRef) : Nat := e.addrs.count x

def occAll (x : Nat) (es : List ExprRef) : Nat := (addrsAll es).count x

@[simp] theorem occ_null (x : Nat) : occ x .null = 0 := rfl

@[simp] theorem occ_node (x a : Nat) (k : Kind) (cs : List ExprRef) :
    occ x (.node a k cs) = (if a = x then 1 else 0) + occAll x cs := by
  simp [occ, occAll, addrs, List.count_cons, Nat.add_comm]

@[simp] theorem occAll_nil (x : Nat) : occAll x [] = 0 := rfl

@[simp] theorem occAll_cons (x : Nat) (c : ExprRef) (cs : List ExprRef) :
    occAll x (c :: cs) = occ x c + occAll x cs := by
  simp [occAll, occ, addrsAll]

@[simp] theorem occAll_append (x : Nat) (cs ds : List ExprRef) :
    occAll x (cs ++ ds) = occAll x cs + occAll x ds := by
  induction cs with
  | nil => simp
  | cons c cs ih =>
    rw [List.cons_append, occAll_cons, occAll_cons, ih]
    omega

theorem occ_le_occAll {c : ExprRef} {cs : List ExprRef} (member : c ∈ cs) (x : Nat) :
    occ x c ≤ occAll x cs := by
  induction cs with
  | nil => cases member
  | cons d cs ih =>
    rw [occAll_cons]
    rcases List.mem_cons.mp member with rfl | rest
    · omega
    · have := ih rest
      omega

/-- Replacing one element moves its occurrences. -/
theorem occAll_set {cs : List ExprRef} {i : Nat} {old : ExprRef} (here : cs[i]? = some old)
    (new : ExprRef) (x : Nat) : occAll x (cs.set i new) + occ x old = occAll x cs + occ x new := by
  induction cs generalizing i with
  | nil => cases here
  | cons c cs ih =>
    cases i with
    | zero =>
      cases here
      rw [List.set_cons_zero, occAll_cons, occAll_cons]
      omega
    | succ i =>
      have := ih here
      rw [List.set_cons_succ, occAll_cons, occAll_cons]
      omega

theorem mem_addrs {x : Nat} {e : ExprRef} : x ∈ addrs e ↔ 0 < occ x e :=
  List.count_pos_iff.symm

theorem nodup_iff {es : List ExprRef} : (addrsAll es).Nodup ↔ ∀ x, occAll x es ≤ 1 :=
  List.nodup_iff_count_le_one

/-! ## Finding a node -/

theorem findAll?_nil (a : Nat) : findAll? a [] = none := rfl

theorem findAll?_cons (a : Nat) (c : ExprRef) (cs : List ExprRef) :
    findAll? a (c :: cs) = (find? a c).or (findAll? a cs) := rfl

theorem findAll?_append (a : Nat) (cs ds : List ExprRef) :
    findAll? a (cs ++ ds) = (findAll? a cs).or (findAll? a ds) := by
  induction cs with
  | nil => rw [List.nil_append, findAll?_nil, Option.none_or]
  | cons c cs ih => rw [List.cons_append, findAll?_cons, findAll?_cons, ih, Option.or_assoc]

theorem find?_node (a b : Nat) (k : Kind) (cs : List ExprRef) :
    find? a (.node b k cs) = if b = a then some (.node b k cs) else findAll? a cs := rfl

private theorem findAll?_none {a : Nat} {cs : List ExprRef}
    (each : ∀ c ∈ cs, (find? a c = none ↔ occ a c = 0)) :
    findAll? a cs = none ↔ occAll a cs = 0 := by
  induction cs with
  | nil => simp [findAll?_nil]
  | cons c cs ih =>
    have first := each c List.mem_cons_self
    have rest := ih fun d member => each d (List.mem_cons_of_mem _ member)
    rw [findAll?_cons, Option.or_eq_none_iff, occAll_cons, first, rest]
    omega

theorem find?_eq_none {a : Nat} (e : ExprRef) : find? a e = none ↔ occ a e = 0 := by
  induction e with
  | null => simp [find?]
  | node b k cs ih =>
    rw [find?_node, occ_node]
    split
    next same => simp
    next other =>
      rw [findAll?_none ih]
      omega

/-- A node that is found has the address, and everything below it is below the whole. -/
structure FoundIn (a : Nat) (n : ExprRef) (whole : Nat → Nat) : Prop where
  node : ∃ k cs, n = .node a k cs
  below : ∀ x, occ x n ≤ whole x

private theorem findAll?_found {a : Nat} {n : ExprRef} {cs : List ExprRef}
    (each : ∀ c ∈ cs, find? a c = some n → FoundIn a n (occ · c)) (found : findAll? a cs = some n) :
    FoundIn a n (occAll · cs) := by
  induction cs with
  | nil => cases found
  | cons c cs ih =>
    rw [findAll?_cons, Option.or_eq_some_iff] at found
    rcases found with first | ⟨_, rest⟩
    · have here := each c List.mem_cons_self first
      refine ⟨here.node, ?_⟩
      intro x
      have := here.below x
      rw [occAll_cons]
      omega
    · have here := ih (fun d member => each d (List.mem_cons_of_mem _ member)) rest
      refine ⟨here.node, ?_⟩
      intro x
      have := here.below x
      rw [occAll_cons]
      omega

theorem find?_found {a : Nat} {n e : ExprRef} (found : find? a e = some n) : FoundIn a n (occ · e) := by
  induction e with
  | null => cases found
  | node b k cs ih =>
    rw [find?_node] at found
    split at found
    next same =>
      cases found
      exact ⟨⟨k, cs, by rw [same]⟩, fun x => Nat.le_refl _⟩
    next other =>
      have here := findAll?_found (fun c member => ih c member) found
      refine ⟨here.node, ?_⟩
      intro x
      have := here.below x
      rw [occ_node]
      omega

theorem findAll?_found_in {a : Nat} {n : ExprRef} {es : List ExprRef} (found : findAll? a es = some n) :
    FoundIn a n (occAll · es) :=
  findAll?_found (fun _ _ here => find?_found here) found

/-! ## Without the addresses -/

theorem exprs_eq_map (cs : List ExprRef) : exprs cs = cs.map expr := by
  induction cs with
  | nil => rfl
  | cons c cs ih => rw [exprs, ih, List.map_cons]

theorem expr_node (a : Nat) (k : Kind) (cs : List ExprRef) :
    (node a k cs).expr = .node k (cs.map expr) := by
  rw [expr, exprs_eq_map]

/-! ## Writing to a node -/

theorem writeAll_cons (a : Nat) (change : Write) (c : ExprRef) (cs : List ExprRef) :
    writeAll a change (c :: cs) = write a change c :: writeAll a change cs := rfl

theorem writeAll_eq_map (a : Nat) (change : Write) (cs : List ExprRef) :
    writeAll a change cs = cs.map (write a change) := by
  induction cs with
  | nil => rfl
  | cons c cs ih => rw [writeAll_cons, ih, List.map_cons]

theorem write_node (a b : Nat) (change : Write) (k : Kind) (cs : List ExprRef) :
    write a change (.node b k cs) =
      if b = a then .node b (change k cs).1 (change k cs).2 else .node b k (writeAll a change cs) := rfl

@[simp] theorem addr?_write (a : Nat) (change : Write) (e : ExprRef) :
    (write a change e).addr? = e.addr? := by
  cases e with
  | null => rfl
  | node b k cs =>
    rw [write_node]
    split <;> rfl

theorem length_writeAll (a : Nat) (change : Write) (cs : List ExprRef) :
    (writeAll a change cs).length = cs.length := by
  simp [writeAll_eq_map]

private theorem writeAll_absent {a : Nat} {change : Write} {cs : List ExprRef}
    (each : ∀ c ∈ cs, occ a c = 0 → write a change c = c) (absent : occAll a cs = 0) :
    writeAll a change cs = cs := by
  induction cs with
  | nil => rfl
  | cons c cs ih =>
    rw [occAll_cons] at absent
    rw [writeAll_cons, each c List.mem_cons_self (by omega),
      ih (fun d member => each d (List.mem_cons_of_mem _ member)) (by omega)]

/-- A write to an address that does not occur changes nothing. -/
theorem write_of_absent {a : Nat} {change : Write} {e : ExprRef} (absent : occ a e = 0) :
    write a change e = e := by
  induction e with
  | null => rfl
  | node b k cs ih =>
    rw [occ_node] at absent
    rw [write_node]
    split
    next same => simp [same] at absent
    next other => rw [writeAll_absent ih (by omega)]

theorem writeAll_of_absent {a : Nat} {change : Write} {es : List ExprRef} (absent : occAll a es = 0) :
    writeAll a change es = es :=
  writeAll_absent (fun _ _ here => write_of_absent here) absent

section
variable {a : Nat} {change : Write} {k : Kind} {cs : List ExprRef}

private theorem occAll_writeAll {es : List ExprRef} (unique : occAll a es ≤ 1)
    (each : ∀ e ∈ es, occ a e ≤ 1 → find? a e = some (.node a k cs) → ∀ x,
      occ x (write a change e) + occAll x cs = occ x e + occAll x (change k cs).2)
    (found : findAll? a es = some (.node a k cs)) (x : Nat) :
    occAll x (writeAll a change es) + occAll x cs = occAll x es + occAll x (change k cs).2 := by
  induction es with
  | nil => cases found
  | cons e es ih =>
    rw [findAll?_cons, Option.or_eq_some_iff] at found
    rw [occAll_cons] at unique
    rw [writeAll_cons, occAll_cons, occAll_cons]
    rcases found with first | ⟨missing, rest⟩
    · -- the one occurrence is in the head
      have positive : occ a e ≠ 0 := by
        intro absent
        rw [(find?_eq_none e).mpr absent] at first
        cases first
      have here := each e List.mem_cons_self (by omega) first x
      have absent : occAll a es = 0 := by omega
      rw [writeAll_of_absent absent]
      omega
    · have absent := (find?_eq_none e).mp missing
      have there := ih (by omega) (fun d member => each d (List.mem_cons_of_mem _ member)) rest
      rw [write_of_absent absent]
      omega

/-- A write exchanges what is below the node. -/
theorem occ_write {e : ExprRef} (unique : occ a e ≤ 1) (found : find? a e = some (.node a k cs))
    (x : Nat) : occ x (write a change e) + occAll x cs = occ x e + occAll x (change k cs).2 := by
  induction e generalizing x with
  | null => cases found
  | node b kb bs ih =>
    rw [find?_node] at found
    rw [occ_node] at unique
    rw [write_node]
    split at found
    next same =>
      cases found
      rw [if_pos same, occ_node, occ_node]
      omega
    next other =>
      rw [if_neg other, occ_node, occ_node]
      have := occAll_writeAll (by omega) (fun e member one here y => ih e member one here y) found x
      omega

theorem occAll_write {es : List ExprRef} (unique : occAll a es ≤ 1)
    (found : findAll? a es = some (.node a k cs)) (x : Nat) :
    occAll x (writeAll a change es) + occAll x cs = occAll x es + occAll x (change k cs).2 :=
  occAll_writeAll unique (fun _ _ one here => occ_write one here) found x

/-! ## Finding after writing -/

private theorem findAll?_writeAll_same {es : List ExprRef}
    (each : ∀ e ∈ es, find? a e = some (.node a k cs) →
      find? a (write a change e) = some (.node a (change k cs).1 (change k cs).2))
    (found : findAll? a es = some (.node a k cs)) :
    findAll? a (writeAll a change es) = some (.node a (change k cs).1 (change k cs).2) := by
  induction es with
  | nil => cases found
  | cons e es ih =>
    rw [findAll?_cons, Option.or_eq_some_iff] at found
    rw [writeAll_cons, findAll?_cons, Option.or_eq_some_iff]
    rcases found with first | ⟨missing, rest⟩
    · exact .inl (each e List.mem_cons_self first)
    · have absent := (find?_eq_none e).mp missing
      refine .inr ⟨?_, ih (fun d member => each d (List.mem_cons_of_mem _ member)) rest⟩
      rw [write_of_absent absent]
      exact missing

theorem find?_write_same {e : ExprRef} (found : find? a e = some (.node a k cs)) :
    find? a (write a change e) = some (.node a (change k cs).1 (change k cs).2) := by
  induction e with
  | null => cases found
  | node b kb bs ih =>
    rw [find?_node] at found
    rw [write_node]
    split at found
    next same =>
      cases found
      rw [if_pos same, find?_node, if_pos same]
    next other =>
      rw [if_neg other, find?_node, if_neg other]
      exact findAll?_writeAll_same (fun e member here => ih e member here) found

theorem findAll?_write_same {es : List ExprRef} (found : findAll? a es = some (.node a k cs)) :
    findAll? a (writeAll a change es) = some (.node a (change k cs).1 (change k cs).2) :=
  findAll?_writeAll_same (fun _ _ here => find?_write_same here) found

end

section
variable {a b : Nat} {change : Write} {k : Kind} {cs : List ExprRef}

/-- The address is neither below the node that is written to nor in what is written. -/
def Apart (b : Nat) (change : Write) (written : Option ExprRef) : Prop :=
  ∀ a k cs, written = some (.node a k cs) → occAll b cs = 0 ∧ occAll b (change k cs).2 = 0

private theorem findAll?_writeAll_other {es : List ExprRef} (unique : occAll a es ≤ 1)
    (apart : Apart b change (findAll? a es))
    (each : ∀ e ∈ es, occ a e ≤ 1 → Apart b change (find? a e) →
      find? b e = some (.node b k cs) →
      find? b (write a change e) = some (.node b k (writeAll a change cs)))
    (found : findAll? b es = some (.node b k cs)) :
    findAll? b (writeAll a change es) = some (.node b k (writeAll a change cs)) := by
  induction es with
  | nil => cases found
  | cons e es ih =>
    rw [occAll_cons] at unique
    rw [writeAll_cons, findAll?_cons, Option.or_eq_some_iff]
    have headApart : Apart b change (find? a e) := by
      intro _ ka as here
      apply apart _ ka as
      rw [findAll?_cons, here, Option.some_or]
    rw [findAll?_cons, Option.or_eq_some_iff] at found
    rcases found with first | ⟨missing, rest⟩
    · exact .inl (each e List.mem_cons_self (by omega) headApart first)
    · refine .inr ⟨?_, ?_⟩
      · -- nothing that is written into the head brings the other address in
        rw [find?_eq_none] at missing ⊢
        cases here : find? a e with
        | none => rw [write_of_absent ((find?_eq_none e).mp here), missing]
        | some n =>
          obtain ⟨ka, as, rfl⟩ := (find?_found here).node
          have exchanged := @occ_write _ change _ _ _ (by omega) here b
          have := headApart _ ka as here
          omega
      · cases here : find? a e with
        | some n =>
          -- the one occurrence of the written address is in the head
          have positive : occ a e ≠ 0 := by
            intro absent
            rw [(find?_eq_none e).mpr absent] at here
            cases here
          have absent : occAll a es = 0 := by omega
          have below := (findAll?_found_in rest).below a
          rw [occ_node] at below
          rw [writeAll_of_absent absent, writeAll_of_absent (by omega)]
          exact rest
        | none =>
          refine ih (by omega) ?_ (fun d member => each d (List.mem_cons_of_mem _ member)) rest
          intro _ ka as there
          apply apart _ ka as
          rw [findAll?_cons, here, Option.none_or, there]

/-- Another node keeps its kind, and the write goes on into its children. -/
theorem find?_write_other {e : ExprRef} (unique : occ a e ≤ 1) (differ : b ≠ a)
    (apart : Apart b change (find? a e)) (found : find? b e = some (.node b k cs)) :
    find? b (write a change e) = some (.node b k (writeAll a change cs)) := by
  induction e with
  | null => cases found
  | node d kd ds ih =>
    rw [occ_node] at unique
    rw [find?_node] at found
    rw [write_node]
    split at found
    next same =>
      cases found
      rw [if_neg (by omega), find?_node, if_pos same]
    next other =>
      by_cases written : d = a
      · have := apart _ kd ds (by rw [find?_node, if_pos written])
        have below := (findAll?_found_in found).below b
        rw [occ_node, if_pos rfl] at below
        omega
      · rw [if_neg written, find?_node, if_neg other]
        refine findAll?_writeAll_other (by omega) ?_ (fun e member one away here => ih e member one away here)
          found
        intro _ ka as here
        apply apart _ ka as
        rw [find?_node, if_neg written, here]

theorem findAll?_write_other {es : List ExprRef} (unique : occAll a es ≤ 1) (differ : b ≠ a)
    (apart : Apart b change (findAll? a es)) (found : findAll? b es = some (.node b k cs)) :
    findAll? b (writeAll a change es) = some (.node b k (writeAll a change cs)) :=
  findAll?_writeAll_other unique apart (fun _ _ one away here => find?_write_other one differ away here)
    found

end

/-! ## Copies -/

/-- Two ranges side by side. -/
theorem span_append {low mid high : Nat} (first : low ≤ mid) (second : mid ≤ high) (x : Nat) :
    (if low ≤ x ∧ x < mid then 1 else 0) + (if mid ≤ x ∧ x < high then 1 else 0) =
      if low ≤ x ∧ x < high then 1 else 0 := by
  grind

private theorem place_spec (e : Expr) (next : Nat) :
    next ≤ (place e next).2 ∧
      ∀ x, occ x (place e next).1 = if next ≤ x ∧ x < (place e next).2 then 1 else 0 := by
  induction e generalizing next with
  | null =>
    refine ⟨Nat.le_refl _, ?_⟩
    intro x
    have : ¬ (next ≤ x ∧ x < next) := by omega
    simp [place, this]
  | node k cs ih =>
    have all : ∀ next, next ≤ (placeAll cs next).2 ∧
        ∀ x, occAll x (placeAll cs next).1 = if next ≤ x ∧ x < (placeAll cs next).2 then 1 else 0 := by
      clear next
      induction cs with
      | nil =>
        intro next
        refine ⟨Nat.le_refl _, ?_⟩
        intro x
        have : ¬ (next ≤ x ∧ x < next) := by omega
        simp [placeAll, this]
      | cons c cs rest =>
        intro next
        have head := ih c List.mem_cons_self next
        have tail := rest (fun d member => ih d (List.mem_cons_of_mem _ member)) (place c next).2
        simp only [placeAll]
        refine ⟨by omega, ?_⟩
        intro x
        rw [occAll_cons, head.2 x, tail.2 x]
        exact span_append head.1 tail.1 x
    have here := all (next + 1)
    simp only [place]
    refine ⟨by omega, ?_⟩
    intro x
    have first : (if next = x then 1 else 0) = if next ≤ x ∧ x < next + 1 then 1 else 0 :=
      if_congr (by omega) rfl rfl
    rw [occ_node, here.2 x, first]
    exact span_append (Nat.le_succ next) here.1 x

/-- The nodes of a copy are at the addresses from the next free one on. -/
theorem occ_place (e : Expr) (next x : Nat) :
    occ x (place e next).1 = if next ≤ x ∧ x < (place e next).2 then 1 else 0 :=
  (place_spec e next).2 x

/-- No address occurs twice in a copy. -/
theorem occ_place_le_one (e : Expr) (next x : Nat) : occ x (place e next).1 ≤ 1 := by
  rw [occ_place]
  split <;> omega

theorem le_place (e : Expr) (next : Nat) : next ≤ (place e next).2 := (place_spec e next).1

/-! ## Where a node is -/

/-- A node that is found in one of the bodies is found in the list. -/
theorem findAll?_of_mem {a : Nat} {n e : ExprRef} {es : List ExprRef} (unique : occAll a es ≤ 1)
    (member : e ∈ es) (found : find? a e = some n) : findAll? a es = some n := by
  induction es with
  | nil => cases member
  | cons d es ih =>
    rw [occAll_cons] at unique
    have positive : occ a e ≠ 0 := by
      intro absent
      rw [(find?_eq_none e).mpr absent] at found
      cases found
    rw [findAll?_cons, Option.or_eq_some_iff]
    rcases List.mem_cons.mp member with rfl | rest
    · exact .inl found
    · have := occ_le_occAll rest a
      exact .inr ⟨(find?_eq_none d).mpr (by omega), ih (by omega) rest⟩

/-- The body that has the address has the node. -/
theorem find?_of_findAll? {a : Nat} {n e : ExprRef} {es : List ExprRef} (unique : occAll a es ≤ 1)
    (member : e ∈ es) (here : 0 < occ a e) (found : findAll? a es = some n) : find? a e = some n := by
  cases missing : find? a e with
  | none =>
    have := (find?_eq_none e).mp missing
    omega
  | some m =>
    have same := findAll?_of_mem unique member missing
    rw [found] at same
    cases same
    rfl

theorem find?_root {a : Nat} {e : ExprRef} (root : e.addr? = some a) : find? a e = some e := by
  cases e with
  | null => cases root
  | node b k cs =>
    cases root
    rw [find?_node, if_pos rfl]

theorem occ_root {a : Nat} {e : ExprRef} (root : e.addr? = some a) : 0 < occ a e := by
  cases e with
  | null => cases root
  | node b k cs =>
    cases root
    rw [occ_node, if_pos rfl]
    omega

/-- The children of a node that is found are found. -/
theorem find?_child {a c : Nat} {k : Kind} {cs : List ExprRef} {old e : ExprRef}
    (unique : occ c e ≤ 1) (found : find? a e = some (.node a k cs)) (member : old ∈ cs)
    (addr : old.addr? = some c) : find? c e = some old := by
  have inside := occ_le_occAll member c
  have positive := occ_root addr
  induction e with
  | null => cases found
  | node d kd ds ih =>
    rw [occ_node] at unique
    rw [find?_node] at found ⊢
    split at found
    next same =>
      cases found
      rw [if_neg (by intro equal; rw [if_pos equal] at unique; omega)]
      exact findAll?_of_mem (by omega) member (find?_root addr)
    next other =>
      have below := (findAll?_found_in found).below c
      rw [occ_node] at below
      rw [if_neg (by intro equal; rw [if_pos equal] at unique; omega)]
      obtain ⟨f, among, here⟩ : ∃ f ∈ ds, find? a f = some (.node a k cs) := by
        clear ih unique below
        induction ds with
        | nil => cases found
        | cons f ds rest =>
          rw [findAll?_cons, Option.or_eq_some_iff] at found
          rcases found with first | ⟨_, later⟩
          · exact ⟨f, List.mem_cons_self, first⟩
          · obtain ⟨g, among, here⟩ := rest later
            exact ⟨g, List.mem_cons_of_mem _ among, here⟩
      have part := occ_le_occAll among c
      exact findAll?_of_mem (by omega) among (ih f among (by omega) here)

theorem exists_find? {a : Nat} {n : ExprRef} {es : List ExprRef} (found : findAll? a es = some n) :
    ∃ e ∈ es, find? a e = some n := by
  induction es with
  | nil => cases found
  | cons e es ih =>
    rw [findAll?_cons, Option.or_eq_some_iff] at found
    rcases found with first | ⟨_, rest⟩
    · exact ⟨e, List.mem_cons_self, first⟩
    · obtain ⟨d, member, here⟩ := ih rest
      exact ⟨d, List.mem_cons_of_mem _ member, here⟩

theorem findAll?_child {a c : Nat} {k : Kind} {cs es : List ExprRef} {old : ExprRef}
    (unique : occAll c es ≤ 1) (found : findAll? a es = some (.node a k cs)) (member : old ∈ cs)
    (addr : old.addr? = some c) : findAll? c es = some old := by
  obtain ⟨e, among, here⟩ := exists_find? found
  have part := occ_le_occAll among c
  exact findAll?_of_mem unique among (find?_child (by omega) here member addr)

/-! ## Writing a slot -/

/-- A write that puts something in the place of a child, for some kinds of nodes. -/
def slot (p : Kind → Bool) (i : Nat) (new : ExprRef) : Write :=
  fun k cs => if p k then (k, cs.set i new) else (k, cs)

theorem slot_eq {p : Kind → Bool} {k : Kind} (allowed : p k = true) (i : Nat) (new : ExprRef)
    (cs : List ExprRef) : slot p i new k cs = (k, cs.set i new) :=
  if_pos allowed

/-- Two writes to one node are one. -/
theorem write_write (a : Nat) (first second : Write) (e : ExprRef) :
    write a second (write a first e) =
      write a (fun k cs => second (first k cs).1 (first k cs).2) e := by
  induction e with
  | null => rfl
  | node b k cs ih =>
    rw [write_node, write_node]
    split
    next same => rw [write_node, if_pos same]
    next other =>
      rw [write_node, if_neg other, writeAll_eq_map, writeAll_eq_map, writeAll_eq_map, List.map_map]
      congr 1
      exact List.map_congr_left fun c member => ih c member

theorem writeAll_writeAll (a : Nat) (first second : Write) (es : List ExprRef) :
    writeAll a second (writeAll a first es) =
      writeAll a (fun k cs => second (first k cs).1 (first k cs).2) es := by
  rw [writeAll_eq_map, writeAll_eq_map, writeAll_eq_map, List.map_map]
  exact List.map_congr_left fun e _ => write_write a first second e

/-- Only what is written to the one node counts. -/
theorem write_congr {a : Nat} {k : Kind} {cs : List ExprRef} {change change' : Write} {e : ExprRef}
    (unique : occ a e ≤ 1) (found : find? a e = some (.node a k cs))
    (same : change k cs = change' k cs) : write a change e = write a change' e := by
  induction e with
  | null => cases found
  | node d kd ds ih =>
    rw [occ_node] at unique
    rw [find?_node] at found
    rw [write_node, write_node]
    split at found
    next here =>
      cases found
      rw [if_pos here, if_pos here, same]
    next other =>
      rw [if_neg other, if_neg other]
      congr 1
      rw [writeAll_eq_map, writeAll_eq_map]
      apply List.map_congr_left
      intro f among
      have part := occ_le_occAll among a
      by_cases absent : occ a f = 0
      · rw [write_of_absent absent, write_of_absent absent]
      · exact ih f among (by omega) (find?_of_findAll? (by omega) among (by omega) found)

theorem writeAll_congr {a : Nat} {k : Kind} {cs : List ExprRef} {change change' : Write}
    {es : List ExprRef} (unique : occAll a es ≤ 1) (found : findAll? a es = some (.node a k cs))
    (same : change k cs = change' k cs) : writeAll a change es = writeAll a change' es := by
  rw [writeAll_eq_map, writeAll_eq_map]
  apply List.map_congr_left
  intro f among
  have part := occ_le_occAll among a
  by_cases absent : occ a f = 0
  · rw [write_of_absent absent, write_of_absent absent]
  · exact write_congr (by omega) (find?_of_findAll? unique among (by omega) found) same

/-- An address that occurs in one element does not occur in another. -/
theorem absent_elsewhere {x i j : Nat} {f g : ExprRef} {es : List ExprRef} (unique : occAll x es ≤ 1)
    (atF : es[i]? = some f) (atG : es[j]? = some g) (differ : i ≠ j) (there : 0 < occ x g) :
    occ x f = 0 := by
  have exchanged := occAll_set atF .null x
  have kept : (es.set i .null)[j]? = some g := by
    rw [List.getElem?_set_ne differ]
    exact atG
  have := occ_le_occAll (List.mem_of_getElem? kept) x
  rw [occ_null] at exchanged
  omega

section
variable {a c i : Nat} {k : Kind} {cs : List ExprRef} {old new : ExprRef} {change : Write}
  {p : Kind → Bool} (here : cs[i]? = some old) (addr : old.addr? = some c)
include here addr

private theorem occ_slot : 0 < occ c (.node a k cs) := by
  have inside := occ_le_occAll (List.mem_of_getElem? here) c
  have positive := occ_root addr
  rw [occ_node]
  omega

private theorem writeAll_slot_of {es : List ExprRef} (unique : occAll c es ≤ 1)
    (single : occAll a es ≤ 1)
    (each : ∀ e ∈ es, occ c e ≤ 1 → occ a e ≤ 1 → find? a e = some (.node a k cs) →
      write a (slot p i new) (write c change e) = write a (slot p i new) e)
    (found : findAll? a es = some (.node a k cs)) :
    writeAll a (slot p i new) (writeAll c change es) = writeAll a (slot p i new) es := by
  rw [writeAll_eq_map, writeAll_eq_map, writeAll_eq_map, List.map_map]
  apply List.map_congr_left
  intro f among
  have part := occ_le_occAll among c
  have part' := occ_le_occAll among a
  cases missing : find? a f with
  | some n =>
    have same := findAll?_of_mem single among missing
    rw [found] at same
    cases same
    exact each f among (by omega) (by omega) missing
  | none =>
    -- the node, and with it the child, is in another element
    obtain ⟨g, amongG, foundG⟩ := exists_find? found
    obtain ⟨j, atG⟩ := List.mem_iff_getElem?.mp amongG
    obtain ⟨l, atF⟩ := List.mem_iff_getElem?.mp among
    have differ : l ≠ j := by
      intro equal
      rw [equal, atG] at atF
      cases atF
      rw [missing] at foundG
      cases foundG
    have below := (find?_found foundG).below c
    have positive := occ_slot (a := a) (k := k) here addr
    have away := absent_elsewhere unique atF atG differ (by omega)
    rw [Function.comp_apply, @write_of_absent _ change _ away]

variable (allowed : p k = true)
include allowed

/-- What is written into a child is lost when the child is replaced. -/
theorem write_slot {e : ExprRef} (unique : occ c e ≤ 1) (single : occ a e ≤ 1)
    (found : find? a e = some (.node a k cs)) :
    write a (slot p i new) (write c change e) = write a (slot p i new) e := by
  have positive := occ_slot (a := a) (k := k) here addr
  induction e with
  | null => cases found
  | node d kd ds ih =>
    have below := (find?_found found).below c
    rw [occ_node] at unique single
    rw [find?_node] at found
    have apart : d ≠ c := by
      intro equal
      rw [if_pos equal] at unique
      split at found
      · cases found
        rw [occ_node, if_pos equal] at positive
        have inside := occ_le_occAll (List.mem_of_getElem? here) c
        have := occ_root addr
        omega
      · have inside := (findAll?_found_in found).below c
        omega
    rw [write_node c, if_neg apart, write_node, write_node]
    split at found
    next same =>
      cases found
      rw [if_pos same, if_pos same, slot_eq allowed, slot_eq allowed]
      congr 1
      apply List.ext_getElem?
      intro j
      dsimp only
      by_cases equal : i = j
      · subst equal
        rw [List.getElem?_set_self', List.getElem?_set_self', writeAll_eq_map, List.getElem?_map, here]
        rfl
      · rw [List.getElem?_set_ne equal, List.getElem?_set_ne equal, writeAll_eq_map,
          List.getElem?_map]
        cases sibling : cs[j]? with
        | none => rfl
        | some f =>
          have absent := absent_elsewhere (by omega) sibling here (Ne.symm equal) (occ_root addr)
          rw [Option.map_some, write_of_absent absent]
    next other =>
      rw [if_neg other, if_neg other]
      congr 1
      exact writeAll_slot_of here addr (by omega) (by omega)
        (fun f among one one' foundF => ih f among one one' foundF) found

theorem writeAll_slot {es : List ExprRef} (unique : ∀ x, occAll x es ≤ 1)
    (found : findAll? a es = some (.node a k cs)) :
    writeAll a (slot p i new) (writeAll c change es) = writeAll a (slot p i new) es :=
  writeAll_slot_of here addr (unique c) (unique a)
    (fun _ _ one one' foundF => write_slot here addr allowed one one' foundF) found

end

/-! ## Properties of all nodes -/

section
variable {P : Kind → List ExprRef → Prop}

theorem everywhereAll_iff {cs : List ExprRef} : EverywhereAll P cs ↔ ∀ c ∈ cs, Everywhere P c := by
  induction cs with
  | nil => simp [EverywhereAll]
  | cons c cs ih => simp [EverywhereAll, ih]

/-- The node that is found has the property everywhere, too. -/
theorem Everywhere.find? {a : Nat} {n e : ExprRef} (all : Everywhere P e) (found : find? a e = some n) :
    Everywhere P n := by
  induction e with
  | null => cases found
  | node b k cs ih =>
    rw [find?_node] at found
    split at found
    next here =>
      cases found
      exact all
    next other =>
      obtain ⟨c, member, inside⟩ := exists_find? found
      exact ih c member (everywhereAll_iff.mp all.2 c member) inside

theorem EverywhereAll.findAll? {a : Nat} {n : ExprRef} {es : List ExprRef} (all : EverywhereAll P es)
    (found : findAll? a es = some n) : Everywhere P n := by
  obtain ⟨e, member, here⟩ := exists_find? found
  exact (everywhereAll_iff.mp all e member).find? here

variable {a : Nat} {change : Write}
  (stable : ∀ k cs, P k cs → P k (writeAll a change cs))
  (changed : ∀ k cs, P k cs → EverywhereAll P cs →
    P (change k cs).1 (change k cs).2 ∧ EverywhereAll P (change k cs).2)
include stable changed

theorem Everywhere.write {e : ExprRef} (all : Everywhere P e) : Everywhere P (write a change e) := by
  induction e with
  | null => trivial
  | node b k cs ih =>
    rw [write_node]
    split
    next here => exact changed k cs all.1 all.2
    next other =>
      refine ⟨stable k cs all.1, everywhereAll_iff.mpr ?_⟩
      intro d member
      rw [writeAll_eq_map] at member
      obtain ⟨c, inside, rfl⟩ := List.mem_map.mp member
      exact ih c inside (everywhereAll_iff.mp all.2 c inside)

theorem EverywhereAll.writeAll {es : List ExprRef} (all : EverywhereAll P es) :
    EverywhereAll P (writeAll a change es) := by
  rw [everywhereAll_iff] at all ⊢
  intro d member
  rw [writeAll_eq_map] at member
  obtain ⟨c, inside, rfl⟩ := List.mem_map.mp member
  exact (all c inside).write stable changed

end

theorem EverywhereAll.set {P : Kind → List ExprRef → Prop} {es : List ExprRef} {new : ExprRef}
    (all : EverywhereAll P es) (here : Everywhere P new) (i : Nat) : EverywhereAll P (es.set i new) := by
  rw [everywhereAll_iff] at all ⊢
  intro d member
  rcases List.mem_or_eq_of_mem_set member with old | rfl
  · exact all d old
  · exact here

end Swam.Binaryen.ExprRef
