import Swam.MutatorRules

/-!
# The local context

The generators hand out local indices from the length of the context. Every call of a
generator only appends to the context, and each new local gets its own position as index. So
the array of variable types of a new function is filled slot by slot, and the variables that
branch target mutation adds get the indices its code already uses.
-/
namespace Swam

open Binaryen Mut Lib

/-- The element at a position has that position as its index. -/
def Indexed (localCxt : List LocalCxt) : Prop :=
  ∀ (i : Nat) (el : LocalCxt), localCxt[i]? = some el → el.localIdx = i

/-- New locals, numbered from some position on. -/
def Numbered (start : Nat) (added : List LocalCxt) : Prop :=
  ∀ (i : Nat) (el : LocalCxt), added[i]? = some el → el.localIdx = start + i ∧ el.preAdded = false

theorem Numbered.append {start : Nat} {added more : List LocalCxt} (first : Numbered start added)
    (second : Numbered (start + added.length) more) : Numbered start (added ++ more) := by
  intro i el found
  by_cases before : i < added.length
  · rw [List.getElem?_append_left before] at found
    exact first i el found
  · rw [List.getElem?_append_right (by omega)] at found
    have later := second _ el found
    exact ⟨by omega, later.2⟩

/-- The old elements stay in place, and those behind them are numbered by position. -/
def Grows (old new : List LocalCxt) : Prop :=
  ∃ added, new = old ++ added ∧ Numbered old.length added

namespace Grows

variable {old new newer : List LocalCxt}

theorem refl (localCxt : List LocalCxt) : Grows localCxt localCxt :=
  ⟨[], by simp, by simp [Numbered]⟩

theorem trans (first : Grows old new) (second : Grows new newer) : Grows old newer := by
  obtain ⟨added, rfl, numbered⟩ := first
  obtain ⟨more, rfl, numbered'⟩ := second
  rw [List.length_append] at numbered'
  exact ⟨added ++ more, List.append_assoc _ _ _, numbered.append numbered'⟩

theorem append (localCxt : List LocalCxt) (ty : Ty) :
    Grows localCxt (localCxt ++ [⟨false, ty, localCxt.length⟩]) := by
  refine ⟨_, rfl, ?_⟩
  intro i el found
  obtain ⟨rfl, rfl⟩ : i = 0 ∧ el = ⟨false, ty, localCxt.length⟩ := by
    cases i with
    | zero => exact ⟨rfl, by simpa using found.symm⟩
    | succ i => simp at found
  exact ⟨rfl, rfl⟩

theorem indexed (grows : Grows old new) (indexed : Indexed old) : Indexed new := by
  obtain ⟨added, rfl, numbered⟩ := grows
  intro i el found
  by_cases before : i < old.length
  · rw [List.getElem?_append_left before] at found
    exact indexed i el found
  · rw [List.getElem?_append_right (by omega)] at found
    have later := (numbered _ el found).1
    omega

end Grows

/-- Every step of a generator lets the context grow. -/
theorem growsRule : GenRule (fun s t => Grows s.localCxt t.localCxt)
    fun s _ t => Grows s.localCxt t.localCxt where
  refl := fun s => .refl s.localCxt
  trans := Grows.trans
  stop := Grows.trans
  rand := fun s _ => .refl s.localCxt
  instr := fun _ => .refl _
  table := fun _ => .refl _
  newLocal := fun s ty => .append s.localCxt ty
  fatal := fun s => .refl s.localCxt
  endless := fun s => .refl s.localCxt
  tableTaken := fun s _ => .refl s.localCxt
  newGlobal := fun s _ _ => .refl s.localCxt
  globalTaken := fun s _ => .refl s.localCxt
  newName := fun s => .refl s.localCxt
  label := fun _ inside => inside
  labelStop := fun _ inside => inside

/-- A call of a generator. -/
inductive GenCall where
  | topLevel (result : Ty) (depth : Nat)
  | baseCase (result : Ty) (depth : Nat)
  | localGlobalSet (useLocal : Bool) (depth : Nat)
  | localGlobalGet (result : Ty) (useLocal : Bool)
  | localTee (result : Ty) (depth : Nat)
  | controlTransfer (result : Ty) (depth : Nat)
  | call (result : Ty) (depth : Nat)
  | callIndirect (result : Ty) (depth : Nat)

def GenCall.run : GenCall → Gen Expr
  | .topLevel result depth => wasmGenerateInstrSeqsTopLevel depth result
  | .baseCase result depth => wasmGenerateInstrSeqsBaseCase depth result
  | .localGlobalSet useLocal depth =>
    wasmGenerateOneLocalGlobalSet (wasmGenerateInstrSeqsBaseCase (depth - 1)) useLocal
  | .localGlobalGet result useLocal => wasmGenerateOneLocalGlobalGet result useLocal
  | .localTee result depth =>
    wasmGenerateOneLocalTee (wasmGenerateInstrSeqsBaseCase (depth - 1)) result
  | .controlTransfer result depth =>
    wasmGenerateOneControlTransfer (wasmGenerateInstrSeqsBaseCase (depth - 1)) result
  | .call result depth => wasmGenerateOneCall (wasmGenerateInstrSeqsBaseCase (depth - 1)) result
  | .callIndirect result depth =>
    wasmGenerateOneCallIndirect (wasmGenerateInstrSeqsBaseCase (depth - 1)) result

theorem GenCall.generates (c : GenCall) : Generates c.run := by
  intro R E rule
  cases c with
  | topLevel result depth => exact rule.topLevel depth result
  | baseCase result depth => exact rule.anyBaseCase depth result
  | localGlobalSet useLocal depth =>
    exact rule.localGlobalSet (rule.baseCase _) (sameGlobals.baseCase _) useLocal
  | localGlobalGet result useLocal => exact rule.localGlobalGet result useLocal
  | localTee result depth => exact rule.localTee (rule.baseCase _) result
  | controlTransfer result depth => exact rule.controlTransfer (rule.baseCase _) result
  | call result depth => exact rule.call (rule.baseCase _) result
  | callIndirect result depth => exact rule.callIndirect (rule.baseCase _) result

/-- The functions of the module and the record of new variables are the same. -/
def FunctionsKept (s t : MutState) : Prop :=
  t.mod.functions = s.mod.functions ∧ t.addedVars = s.addedVars

theorem FunctionsKept.refl (s : MutState) : FunctionsKept s s := ⟨rfl, rfl⟩

theorem FunctionsKept.trans {s t u : MutState} (first : FunctionsKept s t)
    (second : FunctionsKept t u) : FunctionsKept s u :=
  ⟨second.1.trans first.1, second.2.trans first.2⟩

theorem sameFunctions : GenRule (fun s t => t.mod.functions = s.mod.functions)
    fun s _ t => t.mod.functions = s.mod.functions where
  refl := fun _ => rfl
  trans := fun first second => second.trans first
  stop := fun first second => second.trans first
  rand := fun _ _ => rfl
  instr := fun built => (wasmGenerateOneSimpleExpr_adds built).functions
  table := fun found => (findTable_adds found).functions
  newLocal := fun _ _ => rfl
  fatal := fun _ => rfl
  endless := fun _ => rfl
  tableTaken := fun _ _ => rfl
  newGlobal := fun _ _ _ => rfl
  globalTaken := fun _ _ => rfl
  newName := fun _ => rfl
  label := fun _ inside => inside
  labelStop := fun _ inside => inside

/-- The elements of a record that are about one function. -/
def createdFor (new : List AddedVar) (func : Nat) : List LocalCxt :=
  (new.filter (·.func = func)).map (·.el)

/-- A function with further variables. -/
def Binaryen.Func.addVars (f : Func) (added : List LocalCxt) : Func :=
  { f with vars := f.vars ++ added.map (·.localType) }

/-- What became a variable was given its index before: the variables of each function are the old
ones and those of the elements that are new in the record, each at its own index. -/
def AddsInPlace (s t : MutState) : Prop :=
  ∃ new, t.addedVars = s.addedVars ++ new ∧ (∀ a ∈ new, a.created = a.el.localIdx) ∧
    t.mod.functions.length = s.mod.functions.length ∧
    ∀ (n : Nat) (f : Func), s.mod.functions[n]? = some f →
      t.mod.functions[n]? = some (f.addVars (createdFor new n)) ∧
      Numbered (f.params.expand.length + f.vars.length) (createdFor new n)

theorem FunctionsKept.addsInPlace {s t : MutState} (quiet : FunctionsKept s t) : AddsInPlace s t := by
  refine ⟨[], by simp [quiet.2], by simp, by rw [quiet.1], ?_⟩
  intro n f found
  rw [quiet.1, found]
  exact ⟨by simp [createdFor, Func.addVars], fun i el at_ => by simp [createdFor] at at_⟩

theorem AddsInPlace.refl (s : MutState) : AddsInPlace s s := (FunctionsKept.refl s).addsInPlace

theorem AddsInPlace.trans {s t u : MutState} (first : AddsInPlace s t) (second : AddsInPlace t u) :
    AddsInPlace s u := by
  obtain ⟨new, record, matched, length, each⟩ := first
  obtain ⟨more, record', matched', length', each'⟩ := second
  -- the second run numbers on from where the first one stopped
  have both (n : Nat) : createdFor (new ++ more) n = createdFor new n ++ createdFor more n := by
    simp [createdFor]
  refine ⟨new ++ more, by rw [record', record, List.append_assoc], ?_, length'.trans length, ?_⟩
  · intro a member
    rcases List.mem_append.mp member with early | late
    · exact matched a early
    · exact matched' a late
  · intro n f found
    obtain ⟨here, numbered⟩ := each n f found
    obtain ⟨there, numbered'⟩ := each' n _ here
    rw [both]
    constructor
    · rw [there]
      simp [Func.addVars]
    · apply numbered.append
      simpa [Func.addVars, Nat.add_assoc] using numbered'

/-- The elements of a context that are to become variables. -/
def newLocals (localCxt : List LocalCxt) : List LocalCxt := localCxt.filter (!·.preAdded)

/-- What is known of a branch that was visited: the context grew, and each element that was not there
before is now the variable of the function that has its index. -/
structure VarsAdded (site : Site) (kind : Kind) (value cond : ExprRef) (s t : MutState) : Prop where
  added : ∃ func labels changed localCxt u, s.mod.functions[site.func]? = some func ∧
    retargetKind site kind value cond (wasmFindAvailableLocals func) labels s = .ok (changed, localCxt) u ∧
    Grows (wasmFindAvailableLocals func) localCxt ∧ Indexed localCxt ∧
    Numbered (func.params.expand.length + func.vars.length) (newLocals localCxt) ∧
    t.mod.functions = s.mod.functions.modify site.func (·.addVars (newLocals localCxt)) ∧
    t.addedVars = s.addedVars ++ (newLocals localCxt).map fun el => ⟨site.func, el, el.localIdx⟩

theorem VarsAdded.addsInPlace {site : Site} {kind : Kind} {value cond : ExprRef} {s t : MutState}
    (added : VarsAdded site kind value cond s t) : AddsInPlace s t := by
  obtain ⟨func, _, _, localCxt, _, found, _, _, _, numbered, functions, record⟩ := added.added
  refine ⟨_, record, ?_, ?_, ?_⟩
  · intro a member
    obtain ⟨el, _, rfl⟩ := List.mem_map.mp member
    rfl
  · rw [functions, List.length_modify]
  · intro n f held
    rw [functions]
    by_cases here : site.func = n
    · subst here
      obtain rfl : func = f := Option.some.inj (found.symm.trans held)
      have own : createdFor ((newLocals localCxt).map fun el => ⟨site.func, el, el.localIdx⟩) site.func =
          newLocals localCxt := by
        simp [createdFor, List.filter_map, Function.comp_def]
      rw [own]
      exact ⟨by simp [held], numbered⟩
    · have other : createdFor ((newLocals localCxt).map fun el => ⟨site.func, el, el.localIdx⟩) n = [] := by
        simp [createdFor, List.filter_map, Function.comp_def, here]
      rw [other]
      exact ⟨by simp [held, here, Func.addVars], fun i el at_ => by simp at at_⟩

end Swam
