import Swam.Mutating

/-!
# Runs of a mutator

What holds along a whole run of a mutator follows from what its visits keep. A condition on
visits can be asked of every visit that the run makes.
-/
namespace Swam.Mut

open Binaryen Lib

/-! ## Conditions along a run -/

/-- Every step of the loop over the children starts in a state that meets the condition. -/
def ChildrenMeet (cond : Nat → Nat → MutState → Prop) (visit : Nat → Nat → Mut Unit) :
    List (Option Nat) → Nat → MutState → Prop
  | [], _, _ => True
  | none :: rest, ind, s => ChildrenMeet cond visit rest (ind + 1) s
  | some child :: rest, ind, s =>
    cond ind child s ∧
      ∀ t, visit ind child s = .ok () t → ChildrenMeet cond visit rest (ind + 1) t

/-- Every visit of the loop over the references does. -/
def WalkMeets (cond : Bool → Nat → MutState → Prop) (visit : Bool → Nat → Mut Unit) (maxCnt : Nat) :
    Nat → Bool → MutState → Prop
  | 0, _, _ => True
  | n + 1, whetherRootNode, s =>
    ∀ el rest, s.childNodeList = el :: rest →
      cond whetherRootNode el { s with childNodeList := rest } ∧
        ∀ t, visit whetherRootNode el { s with childNodeList := rest } = .ok () t →
          t.curCnt < maxCnt → WalkMeets cond visit maxCnt n false t

/-- Every visit of the loop over the functions does. -/
def FunctionsMeet (cond : Nat → Nat → Bool → Nat → MutState → Prop)
    (visit : Nat → Nat → Bool → Nat → Mut Unit) (maxCnt : Nat) : List Nat → MutState → Prop
  | [], _ => True
  | idx :: rest, s =>
    (s.bodies[idx]?.bind ExprRef.addr? = none → FunctionsMeet cond visit maxCnt rest s) ∧
      ∀ body, s.bodies[idx]?.bind ExprRef.addr? = some body →
        let start := { s with childNodeList := s.childNodeList ++ [body] }
        WalkMeets (cond idx body) (visit idx body) maxCnt s.patience true start ∧
          ∀ t, walk (visit idx body) maxCnt s.patience true start = .ok false t →
            FunctionsMeet cond visit maxCnt rest t

/-- Every visit of the mutator does. -/
def RunMeets (cond : Nat → Nat → Bool → Nat → MutState → Prop) (limit : Nat)
    (visit : Nat → Nat → Bool → Nat → Mut Unit) (s : MutState) : Prop :=
  ∀ extra t, draw (Gen.below limit) { s with childNodeList := [], curCnt := 0 } = .ok extra t →
    ∀ funcShuffle u, draw (Gen.shuffle (List.range t.mod.functions.length)) t = .ok funcShuffle u →
      FunctionsMeet cond visit (extra + 1) funcShuffle u

theorem ChildrenMeet.of_all {cond : Nat → Nat → MutState → Prop} {visit : Nat → Nat → Mut Unit}
    (always : ∀ ind child s, cond ind child s) (children : List (Option Nat)) (ind : Nat)
    (s : MutState) : ChildrenMeet cond visit children ind s := by
  induction children generalizing ind s with
  | nil => trivial
  | cons child rest ih =>
    cases child with
    | none => exact ih _ _
    | some addr => exact ⟨always _ _ _, fun t _ => ih _ t⟩

theorem WalkMeets.of_all {cond : Bool → Nat → MutState → Prop} {visit : Bool → Nat → Mut Unit}
    (always : ∀ whetherRootNode el s, cond whetherRootNode el s) (maxCnt n : Nat)
    (whetherRootNode : Bool) (s : MutState) : WalkMeets cond visit maxCnt n whetherRootNode s := by
  induction n generalizing whetherRootNode s with
  | zero => trivial
  | succ n ih => exact fun el rest _ => ⟨always _ _ _, fun t _ _ => ih false t⟩

/-- A condition that always holds is met by every run. -/
theorem RunMeets.of_all {cond : Nat → Nat → Bool → Nat → MutState → Prop} {limit : Nat}
    {visit : Nat → Nat → Bool → Nat → Mut Unit}
    (always : ∀ func body whetherRootNode el s, cond func body whetherRootNode el s) (s : MutState) :
    RunMeets cond limit visit s := by
  intro extra t _ funcShuffle u shuffled
  clear shuffled
  induction funcShuffle generalizing u with
  | nil => trivial
  | cons idx rest ih =>
    exact ⟨fun _ => ih u, fun body _ => ⟨.of_all (always idx body) _ _ _ _, fun v _ => ih v⟩⟩

/-! ## Invariants along a run -/

section
variable {P : Nat → Nat → MutState → Prop} {I : MutState → Prop}

/-- The loop over the children keeps an invariant when each step keeps it, and with it what is
known of the children still to come. -/
theorem eachChild_ends {cond : Nat → Nat → MutState → Prop} {visit : Nat → Nat → Mut Unit}
    (step : ∀ ind child s, I s → P ind child s → cond ind child s →
      Ends (visit ind child) s
        (fun _ t => I t ∧ ∀ j d, j ≠ ind → P j d s → P j d t) fun _ _ => True)
    {children : List (Option Nat)} {ind : Nat} {s : MutState} (start : I s)
    (known : ∀ j child, children[j]? = some (some child) → P (ind + j) child s)
    (meets : ChildrenMeet cond visit children ind s) :
    Ends (eachChild visit children ind) s (fun _ t => I t) fun _ _ => True := by
  induction children generalizing ind s with
  | nil => exact start
  | cons child rest ih =>
    have shifted : ∀ j d, rest[j]? = some (some d) → P (ind + 1 + j) d s := by
      intro j d here
      have later := known (j + 1) d here
      rwa [show ind + 1 + j = ind + (j + 1) by omega]
    cases child with
    | none => exact ih start shifted meets
    | some c =>
      rw [eachChild, ends_bind]
      have kept := step ind c s start (known 0 c rfl) meets.1
      apply (kept.and (ends_self (visit ind c) s)).mono
      · rintro _ t ⟨⟨inside, others⟩, run⟩
        refine ih inside ?_ (meets.2 t run)
        intro j d here
        exact others _ d (by omega) (shifted j d here)
      · exact fun _ _ _ => trivial

variable {cond : Nat → Nat → Bool → Nat → MutState → Prop}
  {visit : Nat → Nat → Bool → Nat → Mut Unit}
  (quiet : ∀ s list cnt rand, I s → I { s with childNodeList := list, curCnt := cnt, rand := rand })
  (later : ∀ func body el s, I s → cond func body false el s →
    Ends (visit func body false el) s (fun _ t => I t) fun _ _ => True)
include quiet later

theorem walk_ends {func body maxCnt n : Nat} {s : MutState} (start : I s)
    (meets : WalkMeets (cond func body) (visit func body) maxCnt n false s) :
    Ends (walk (visit func body) maxCnt n false) s
      (fun full t => I t ∧ (full = false → t.childNodeList = [])) fun _ _ => True := by
  induction n generalizing s with
  | zero => trivial
  | succ n ih =>
    rw [walk, ends_bind, ends_get]
    split
    next empty => exact ⟨start, fun _ => empty⟩
    next el rest filled =>
      obtain ⟨here, onward⟩ := meets el rest filled
      have popped := quiet s rest s.curCnt s.rand start
      rw [ends_bind, ends_modify, ends_bind]
      apply ((later func body el _ popped here).and (ends_self _ _)).mono
      · rintro _ t ⟨inside, run⟩
        rw [ends_bind, ends_get, ends_ite]
        constructor
        · intro _
          exact ⟨inside, fun impossible => by cases impossible⟩
        · intro below
          exact ih inside (onward t run (by omega))
      · exact fun _ _ _ => trivial

variable (first : ∀ func body s, I s → s.bodies[func]?.bind ExprRef.addr? = some body →
  cond func body true body s → Ends (visit func body true body) s (fun _ t => I t) fun _ _ => True)
include first

/-- The first reference of the list is the root of the body. -/
theorem walk_root_ends {func body maxCnt n : Nat} {s : MutState} (start : I s)
    (list : s.childNodeList = [body]) (root : s.bodies[func]?.bind ExprRef.addr? = some body)
    (meets : WalkMeets (cond func body) (visit func body) maxCnt n true s) :
    Ends (walk (visit func body) maxCnt n true) s
      (fun full t => I t ∧ (full = false → t.childNodeList = [])) fun _ _ => True := by
  cases n with
  | zero => trivial
  | succ n =>
    rw [walk, ends_bind, ends_get, list]
    obtain ⟨here, onward⟩ := meets body [] list
    have popped := quiet s [] s.curCnt s.rand start
    rw [ends_bind, ends_modify, ends_bind]
    apply ((first func body _ popped root here).and (ends_self _ _)).mono
    · rintro _ t ⟨inside, run⟩
      rw [ends_bind, ends_get, ends_ite]
      constructor
      · intro _
        exact ⟨inside, fun impossible => by cases impossible⟩
      · intro below
        exact walk_ends quiet later inside (onward t run (by omega))
    · exact fun _ _ _ => trivial

theorem eachFunction_ends {maxCnt : Nat} {indices : List Nat} {s : MutState} (start : I s)
    (list : s.childNodeList = []) (meets : FunctionsMeet cond visit maxCnt indices s) :
    Ends (eachFunction visit maxCnt indices) s (fun _ t => I t) fun _ _ => True := by
  induction indices generalizing s with
  | nil => exact start
  | cons idx rest ih =>
    rw [eachFunction, ends_bind, ends_get]
    split
    next imported => exact ih start list (meets.1 imported)
    next body root =>
      obtain ⟨inside, onward⟩ := meets.2 body root
      have queued := quiet s (s.childNodeList ++ [body]) s.curCnt s.rand start
      rw [ends_bind, enqueue, ends_modify, ends_bind]
      have walked := walk_root_ends quiet later first queued (by rw [list]; rfl) root inside
      apply (walked.and (ends_self _ _)).mono
      · rintro full t ⟨⟨kept, empty⟩, run⟩
        rw [ends_ite]
        constructor
        · intro _
          exact kept
        · intro open_
          have ended : full = false := by simpa using open_
          rw [ended] at run
          exact ih kept (empty ended) (onward t run)
      · exact fun _ _ _ => trivial

/-- A mutator keeps what the visit of a root and the visits of other nodes keep. -/
theorem mutate_ends {limit : Nat} {s : MutState} (start : I s)
    (meets : RunMeets cond limit visit s) :
    Ends (mutate limit visit) s (fun _ t => I t) fun _ _ => True := by
  rw [mutate, ends_bind, ends_modify, ends_bind]
  apply (ends_self (draw (Gen.below limit)) _).mono
  · intro extra t drawn
    have here : I t ∧ t.childNodeList = [] := by
      cases drawn
      exact ⟨quiet s [] 0 _ start, rfl⟩
    rw [ends_bind, ends_get, ends_bind]
    apply (ends_self (draw (Gen.shuffle _)) t).mono
    · intro funcShuffle u shuffled
      have there : I u ∧ u.childNodeList = [] := by
        cases shuffled
        exact ⟨quiet t t.childNodeList t.curCnt _ here.1, here.2⟩
      rw [ends_bind]
      apply (eachFunction_ends quiet later first there.1 there.2
        (meets extra t drawn funcShuffle u shuffled)).mono
      · exact fun _ _ kept => kept
      · exact fun _ _ kept => kept
    · intro e u impossible
      cases impossible
  · intro e t impossible
    cases impossible

end

/-! ## Conditions that an invariant implies -/

section
variable {P : Nat → Nat → MutState → Prop} {I : MutState → Prop}

theorem ChildrenMeet.of_invariant {cond : Nat → Nat → MutState → Prop} {visit : Nat → Nat → Mut Unit}
    (step : ∀ ind child s, I s → P ind child s → cond ind child s ∧
      Ends (visit ind child) s
        (fun _ t => I t ∧ ∀ j d, j ≠ ind → P j d s → P j d t) fun _ _ => True)
    {children : List (Option Nat)} {ind : Nat} {s : MutState} (start : I s)
    (known : ∀ j child, children[j]? = some (some child) → P (ind + j) child s) :
    ChildrenMeet cond visit children ind s := by
  induction children generalizing ind s with
  | nil => trivial
  | cons child rest ih =>
    have shifted : ∀ j d, rest[j]? = some (some d) → P (ind + 1 + j) d s := by
      intro j d here
      have later := known (j + 1) d here
      rwa [show ind + 1 + j = ind + (j + 1) by omega]
    cases child with
    | none => exact ih start shifted
    | some c =>
      obtain ⟨here, kept⟩ := step ind c s start (known 0 c rfl)
      refine ⟨here, fun t run => ?_⟩
      obtain ⟨inside, others⟩ := kept.ok run
      exact ih inside fun j d listed => others _ d (by omega) (shifted j d listed)

variable {cond : Nat → Nat → Bool → Nat → MutState → Prop}
  {visit : Nat → Nat → Bool → Nat → Mut Unit}
  (quiet : ∀ s list cnt rand, I s → I { s with childNodeList := list, curCnt := cnt, rand := rand })
  (later : ∀ func body el s, I s → cond func body false el s ∧
    Ends (visit func body false el) s (fun _ t => I t) fun _ _ => True)
include quiet later

theorem WalkMeets.of_invariant {func body maxCnt n : Nat} {s : MutState} (start : I s) :
    WalkMeets (cond func body) (visit func body) maxCnt n false s := by
  induction n generalizing s with
  | zero => trivial
  | succ n ih =>
    intro el rest _
    obtain ⟨here, kept⟩ := later func body el _ (quiet s rest s.curCnt s.rand start)
    exact ⟨here, fun t run _ => ih (kept.ok run)⟩

variable (first : ∀ func body s, I s → s.bodies[func]?.bind ExprRef.addr? = some body →
  cond func body true body s ∧
    Ends (visit func body true body) s (fun _ t => I t) fun _ _ => True)
include first

theorem WalkMeets.of_root {func body maxCnt n : Nat} {s : MutState} (start : I s)
    (list : s.childNodeList = [body]) (root : s.bodies[func]?.bind ExprRef.addr? = some body) :
    WalkMeets (cond func body) (visit func body) maxCnt n true s := by
  cases n with
  | zero => trivial
  | succ n =>
    intro el rest filled
    rw [list] at filled
    cases filled
    obtain ⟨here, kept⟩ := first func body _ (quiet s [] s.curCnt s.rand start) root
    exact ⟨here, fun t run _ => .of_invariant quiet later (kept.ok run)⟩

theorem FunctionsMeet.of_invariant {maxCnt : Nat} {indices : List Nat} {s : MutState} (start : I s)
    (list : s.childNodeList = []) : FunctionsMeet cond visit maxCnt indices s := by
  induction indices generalizing s with
  | nil => trivial
  | cons idx rest ih =>
    refine ⟨fun _ => ih start list, ?_⟩
    intro body root
    have queued := quiet s (s.childNodeList ++ [body]) s.curCnt s.rand start
    have alone : s.childNodeList ++ [body] = [body] := by rw [list]; rfl
    have inside : WalkMeets (cond idx body) (visit idx body) maxCnt s.patience true
        { s with childNodeList := s.childNodeList ++ [body] } :=
      .of_root quiet later first queued alone root
    refine ⟨inside, fun t run => ?_⟩
    -- the walk has come to the end of its list
    have walked := walk_root_ends quiet (fun f b el u here _ => (later f b el u here).2)
      (fun f b u here at_ _ => (first f b u here at_).2) queued alone root inside
    obtain ⟨kept, ended⟩ := walked.ok run
    exact ih kept (ended rfl)

/-- Where the invariant implies the condition, every run meets it. -/
theorem RunMeets.of_invariant {limit : Nat} {s : MutState} (start : I s) :
    RunMeets cond limit visit s := by
  intro extra t drawn funcShuffle u shuffled
  have here : I t ∧ t.childNodeList = [] := by
    cases drawn
    exact ⟨quiet s [] 0 _ start, rfl⟩
  have there : I u ∧ u.childNodeList = [] := by
    cases shuffled
    exact ⟨quiet t t.childNodeList t.curCnt _ here.1, here.2⟩
  exact .of_invariant quiet later first there.1 there.2

end

/-! ## Errors along a run -/

section
variable {e : Stop}

/-- The loop over the children avoids an error just when each of its steps does. -/
theorem eachChild_avoids {cond : Nat → Nat → MutState → Prop} {visit : Nat → Nat → Mut Unit}
    (step : ∀ ind child s, Avoids e (visit ind child) s ↔ cond ind child s)
    (children : List (Option Nat)) (ind : Nat) (s : MutState) :
    Avoids e (eachChild visit children ind) s ↔ ChildrenMeet cond visit children ind s := by
  induction children generalizing ind s with
  | nil => exact iff_of_true trivial trivial
  | cons child rest ih =>
    cases child with
    | none => exact ih _ _
    | some addr =>
      rw [eachChild, Avoids.bind_iff, step, ChildrenMeet]
      apply and_congr_right
      intro _
      constructor
      · exact fun after t run => (ih _ _).mp (after () t run)
      · exact fun after _ t run => (ih _ _).mpr (after t run)

variable {cond : Nat → Nat → Bool → Nat → MutState → Prop}
  {visit : Nat → Nat → Bool → Nat → Mut Unit} (bounded : Stop.endless ≠ e)
  (step : ∀ func body whetherRootNode el s,
    Avoids e (visit func body whetherRootNode el) s ↔ cond func body whetherRootNode el s)
include bounded step

theorem walk_avoids (func body maxCnt n : Nat) (whetherRootNode : Bool) (s : MutState) :
    Avoids e (walk (visit func body) maxCnt n whetherRootNode) s ↔
      WalkMeets (cond func body) (visit func body) maxCnt n whetherRootNode s := by
  induction n generalizing whetherRootNode s with
  | zero => exact iff_of_true bounded trivial
  | succ n ih =>
    rw [walk, Avoids.get_iff, WalkMeets]
    cases list : s.childNodeList with
    | nil => exact iff_of_true trivial nofun
    | cons el rest =>
      dsimp only
      rw [Avoids.modify_iff, Avoids.bind_iff, step]
      have onward : ∀ t, Avoids e (get >>= fun u => if u.curCnt ≥ maxCnt then pure true
          else walk (visit func body) maxCnt n false) t ↔
          (t.curCnt < maxCnt → WalkMeets (cond func body) (visit func body) maxCnt n false t) := by
        intro t
        rw [Avoids.get_iff, Avoids.ite_iff, ih, not_le]
        exact and_iff_right fun _ => trivial
      constructor
      · rintro ⟨here, after⟩ el' rest' equal
        cases equal
        exact ⟨here, fun t run => (onward t).mp (after () t run)⟩
      · intro meets
        obtain ⟨here, after⟩ := meets el rest rfl
        exact ⟨here, fun _ t run => (onward t).mpr (after t run)⟩

theorem eachFunction_avoids (maxCnt : Nat) (indices : List Nat) (s : MutState) :
    Avoids e (eachFunction visit maxCnt indices) s ↔ FunctionsMeet cond visit maxCnt indices s := by
  induction indices generalizing s with
  | nil => exact iff_of_true trivial trivial
  | cons idx rest ih =>
    rw [eachFunction, Avoids.get_iff, FunctionsMeet]
    cases root : s.bodies[idx]?.bind ExprRef.addr? with
    | none =>
      dsimp only
      rw [ih]
      constructor
      · exact fun meets => ⟨fun _ => meets, nofun⟩
      · exact fun meets => meets.1 rfl
    | some body =>
      dsimp only
      rw [enqueue, Avoids.modify_iff, Avoids.bind_iff, walk_avoids bounded step]
      constructor
      · rintro ⟨inside, after⟩
        refine ⟨nofun, ?_⟩
        intro body' equal
        cases equal
        exact ⟨inside, fun t run => (ih t).mp ((Avoids.ite_iff.mp (after false t run)).2 (by decide))⟩
      · rintro ⟨-, meets⟩
        obtain ⟨inside, after⟩ := meets body rfl
        refine ⟨inside, ?_⟩
        intro full t run
        cases full with
        | true => trivial
        | false => exact (ih t).mpr (after t run)

/-- A mutator avoids an error just when each of its visits does. -/
theorem mutate_avoids (limit : Nat) (s : MutState) :
    Avoids e (mutate limit visit) s ↔ RunMeets cond limit visit s := by
  have finished : ∀ maxCnt indices t, Avoids e (eachFunction visit maxCnt indices >>= fun _ =>
      get >>= fun u => (pure u.curCnt : Mut Nat)) t ↔ FunctionsMeet cond visit maxCnt indices t := by
    intro maxCnt indices t
    rw [Avoids.bind_iff, eachFunction_avoids bounded step]
    exact and_iff_left fun _ _ _ => trivial
  rw [mutate, Avoids.modify_iff, Avoids.bind_iff, RunMeets]
  constructor
  · rintro ⟨-, after⟩ extra t drawn funcShuffle u shuffled
    have shuffling := after extra t drawn
    rw [Avoids.get_iff, Avoids.bind_iff] at shuffling
    exact (finished _ _ _).mp (shuffling.2 funcShuffle u shuffled)
  · intro meets
    refine ⟨trivial, ?_⟩
    intro extra t drawn
    rw [Avoids.get_iff, Avoids.bind_iff]
    refine ⟨trivial, ?_⟩
    intro funcShuffle u shuffled
    exact (finished _ _ _).mpr (meets extra t drawn funcShuffle u shuffled)

end

end Swam.Mut
