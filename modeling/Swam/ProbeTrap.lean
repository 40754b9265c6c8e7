import Swam.Binaryen.Evaluation
import Swam.Probe

/-!
# When a probe traps

For every catalog row with a known outcome, the address and the instruction of its
probe trap exactly when the row says so, at every memory size whose byte count the
address arithmetic represents.
-/
namespace Swam

open Binaryen

/-- An instruction that traps or completes according to a condition on the state
before it, and leaves the globals and segments alone. -/
structure TrapsUnless (R : Runtime) (e : Expr) (σ : State) (fits : Prop) : Prop where
  runs : ∃ r σ', Exec R (.one e) σ r σ'
  completes : fits → ∀ {r σ'}, Exec R (.one e) σ r σ' → ∃ vs, r = .done [vs]
  traps : ¬ fits → ∀ {r σ'}, Exec R (.one e) σ r σ' → r = .stop .trap
  keeps : ∀ {r σ'}, Exec R (.one e) σ r σ' → σ.Keeps σ'

section Instructions

variable {R : Runtime} {σ : State}

theorem TrapsUnless.congr {e : Expr} {fits fits' : Prop} (ends : TrapsUnless R e σ fits)
    (equal : fits ↔ fits') : TrapsUnless R e σ fits' :=
  propext equal ▸ ends

theorem Prim.access_iff {k : Kind} {a : Access} (of : k.access = some a) {v : Val} {base : Nat}
    (address : v.index = some base) {vss : List (List Val)} {r : Res} {σ' : State}
    (act : Prim R k ([v] :: vss) σ r σ') :
    σ.Keeps σ' ∧
      ((a.Fits base (σ.mems a.mem).size ∧ ∃ vs, r = .done [vs]) ∨
        (¬ a.Fits base (σ.mems a.mem).size ∧ r = .stop .trap)) := by
  cases act with
  | access of' address' fits =>
    rw [of] at of'
    rw [address] at address'
    cases of'
    cases address'
    exact ⟨⟨rfl, rfl⟩, .inl ⟨fits, _, rfl⟩⟩
  | accessTrap of' address' outside =>
    rw [of] at of'
    rw [address] at address'
    cases of'
    cases address'
    exact ⟨⟨rfl, rfl⟩, .inr ⟨outside, rfl⟩⟩
  | compute pure => cases k <;> simp [Kind.access, Kind.isPure] at of pure
  | computeTrap pure => cases k <;> simp [Kind.access, Kind.isPure] at of pure
  | host isHost => cases k <;> simp [Kind.access, Kind.isHost] at of isHost
  | _ => simp [Kind.access] at of

/-- An instruction over yielding operands with two possible actions. -/
private theorem ends_of_prim {k : Kind} {fits : Prop} (isStrict : k.isStrict) {es : List Expr}
    {vs : List Val} (operands : List.Forall₂ (fun e v => Yields R e σ v) es vs)
    (runs : ∃ r σ', Prim R k (vs.map ([·])) σ r σ')
    (inv : ∀ r σ', Prim R k (vs.map ([·])) σ r σ' → σ.Keeps σ' ∧
      ((fits ∧ ∃ vs, r = .done [vs]) ∨ (¬ fits ∧ r = .stop .trap))) :
    TrapsUnless R (.node k es) σ fits := by
  have step (r σ') : Exec R (.one (.node k es)) σ r σ' ↔ Prim R k (vs.map ([·])) σ r σ' :=
    Yields.strict isStrict operands
  refine ⟨?_, ?_, ?_, fun run => (inv _ _ ((step _ _).mp run)).1⟩
  · obtain ⟨r, σ', act⟩ := runs
    exact ⟨r, σ', (step r σ').mpr act⟩
  · intro h r σ' run
    rcases (inv r σ' ((step r σ').mp run)).2 with ⟨_, done⟩ | ⟨outside, _⟩
    · exact done
    · exact absurd h outside
  · intro h r σ' run
    rcases (inv r σ' ((step r σ').mp run)).2 with ⟨inside, _⟩ | ⟨_, trap⟩
    · exact absurd inside h
    · exact trap

theorem ends_access {k : Kind} {a : Access} (isStrict : k.isStrict) (of : k.access = some a)
    {es : List Expr} {v : Val} {vs : List Val} {base : Nat} (address : v.index = some base)
    (operands : List.Forall₂ (fun e v => Yields R e σ v) es (v :: vs)) :
    TrapsUnless R (.node k es) σ (a.Fits base (σ.mems a.mem).size) := by
  refine ends_of_prim isStrict operands ?_ fun r σ' act => Prim.access_iff of address act
  by_cases fits : a.Fits base (σ.mems a.mem).size
  · exact ⟨_, _, .access of address fits⟩
  · exact ⟨_, _, .accessTrap of address fits⟩

theorem ends_memoryCopy {dst src : String} {es : List Expr} {v w u : Val} {dest source n : Nat}
    (operands : List.Forall₂ (fun e v => Yields R e σ v) es [v, w, u])
    (hd : v.index = some dest) (hs : w.index = some source) (hn : u.index = some n) :
    TrapsUnless R (.node (.memoryCopy dst src) es) σ
      (dest + n ≤ (σ.mems dst).size ∧ source + n ≤ (σ.mems src).size) := by
  refine ends_of_prim rfl operands ?_ fun r σ' act => ?_
  · by_cases fits : dest + n ≤ (σ.mems dst).size ∧ source + n ≤ (σ.mems src).size
    · exact ⟨_, _, .memoryCopy hd hs hn fits⟩
    · exact ⟨_, _, .memoryCopyTrap hd hs hn fits⟩
  · cases act with
    | memoryCopy hd' hs' hn' fits =>
      simp only [hd, hs, hn, Option.some.injEq] at hd' hs' hn'
      subst hd' hs' hn'
      exact ⟨⟨rfl, rfl⟩, .inl ⟨fits, _, rfl⟩⟩
    | memoryCopyTrap hd' hs' hn' outside =>
      simp only [hd, hs, hn, Option.some.injEq] at hd' hs' hn'
      subst hd' hs' hn'
      exact ⟨⟨rfl, rfl⟩, .inr ⟨outside, rfl⟩⟩
    | _ => simp_all [Kind.isPure, Kind.access, Kind.isHost]

theorem ends_memoryFill {mem : String} {es : List Expr} {v u : Val} {b : BitVec 32}
    {dest n : Nat} (operands : List.Forall₂ (fun e v => Yields R e σ v) es [v, .i32 b, u])
    (hd : v.index = some dest) (hn : u.index = some n) :
    TrapsUnless R (.node (.memoryFill mem) es) σ (dest + n ≤ (σ.mems mem).size) := by
  refine ends_of_prim rfl operands ?_ fun r σ' act => ?_
  · by_cases fits : dest + n ≤ (σ.mems mem).size
    · exact ⟨_, _, .memoryFill hd hn fits⟩
    · exact ⟨_, _, .memoryFillTrap hd hn fits⟩
  · cases act with
    | memoryFill hd' hn' fits =>
      simp only [hd, hn, Option.some.injEq] at hd' hn'
      subst hd' hn'
      exact ⟨⟨rfl, rfl⟩, .inl ⟨fits, _, rfl⟩⟩
    | memoryFillTrap hd' hn' outside =>
      simp only [hd, hn, Option.some.injEq] at hd' hn'
      subst hd' hn'
      exact ⟨⟨rfl, rfl⟩, .inr ⟨outside, rfl⟩⟩
    | _ => simp_all [Kind.isPure, Kind.access, Kind.isHost]

theorem ends_memoryInit {seg mem : String} {es : List Expr} {v w u : Val}
    {dest source n : Nat} (operands : List.Forall₂ (fun e v => Yields R e σ v) es [v, w, u])
    (hd : v.index = some dest) (hs : w.index = some source) (hn : u.index = some n) :
    TrapsUnless R (.node (.memoryInit seg mem) es) σ
      (dest + n ≤ (σ.mems mem).size ∧ source + n ≤ (σ.segments seg).length) := by
  refine ends_of_prim rfl operands ?_ fun r σ' act => ?_
  · by_cases fits : dest + n ≤ (σ.mems mem).size ∧ source + n ≤ (σ.segments seg).length
    · exact ⟨_, _, .memoryInit hd hs hn fits⟩
    · exact ⟨_, _, .memoryInitTrap hd hs hn fits⟩
  · cases act with
    | memoryInit hd' hs' hn' fits =>
      simp only [hd, hs, hn, Option.some.injEq] at hd' hs' hn'
      subst hd' hs' hn'
      exact ⟨⟨rfl, rfl⟩, .inl ⟨fits, _, rfl⟩⟩
    | memoryInitTrap hd' hs' hn' outside =>
      simp only [hd, hs, hn, Option.some.injEq] at hd' hs' hn'
      subst hd' hs' hn'
      exact ⟨⟨rfl, rfl⟩, .inr ⟨outside, rfl⟩⟩
    | _ => simp_all [Kind.isPure, Kind.access, Kind.isHost]

theorem ends_memoryGrow {mem : String} {is64 : Bool} {e : Expr} {v : Val}
    (operand : Yields R e σ v) : TrapsUnless R (.node (.memoryGrow mem is64) [e]) σ True := by
  refine ends_of_prim rfl (.cons operand .nil) ⟨_, _, .memoryGrowFail⟩ fun r σ' act => ?_
  cases act with
  | memoryGrow => exact ⟨⟨rfl, rfl⟩, .inl ⟨trivial, _, rfl⟩⟩
  | memoryGrowFail => exact ⟨⟨rfl, rfl⟩, .inl ⟨trivial, _, rfl⟩⟩
  | _ => simp_all [Kind.isPure, Kind.access, Kind.isHost]

private theorem exec_drop {e : Expr} {r : Res} {σ' : State}
    (run : Exec R (.one (.node .drop [e])) σ r σ') :
    (∃ vs, Exec R (.one e) σ (.done [vs]) σ' ∧ r = .done [[]]) ∨
      ∃ a, Exec R (.one e) σ (.stop a) σ' ∧ r = .stop a := by
  rcases (Exec.strict_iff rfl).mp run with ⟨vss, σ₁, operands, act⟩ | ⟨a, rfl, operands⟩
  · obtain ⟨vs, rest, σ₂, rfl, first, last⟩ := Exec.many_cons_done.mp operands
    obtain ⟨equal, rfl⟩ := Exec.many_nil_iff.mp last
    cases equal
    cases act with
    | drop => exact .inl ⟨vs, first, rfl⟩
    | _ => simp_all [Kind.isPure, Kind.access, Kind.isHost]
  · rcases Exec.many_cons_stop.mp operands with first | ⟨vs, σ₁, first, last⟩
    · exact .inr ⟨a, first, rfl⟩
    · cases last

theorem TrapsUnless.drop {e : Expr} {fits : Prop} (ends : TrapsUnless R e σ fits) :
    TrapsUnless R (.node .drop [e]) σ fits := by
  refine ⟨?_, ?_, ?_, ?_⟩
  · obtain ⟨r, σ', run⟩ := ends.runs
    by_cases h : fits
    · obtain ⟨vs, rfl⟩ := ends.completes h run
      exact ⟨_, _, .strict rfl (.cons run .nil) .drop⟩
    · cases ends.traps h run
      exact ⟨_, _, .strictStop rfl (.consStop run)⟩
  · intro h r σ' run
    rcases exec_drop run with ⟨vs, _, rfl⟩ | ⟨a, stopped, _⟩
    · exact ⟨[], rfl⟩
    · obtain ⟨vs, equal⟩ := ends.completes h stopped
      cases equal
  · intro h r σ' run
    rcases exec_drop run with ⟨vs, done, _⟩ | ⟨a, stopped, rfl⟩
    · cases ends.traps h done
    · exact ends.traps h stopped
  · intro r σ' run
    rcases exec_drop run with ⟨vs, done, _⟩ | ⟨a, stopped, _⟩
    · exact ends.keeps done
    · exact ends.keeps stopped

end Instructions

/-! ## Addresses -/

section Addresses

variable {R : Runtime} {σ : State}

theorem yields_indexConst (n : Nat) (is64 : Bool) :
    Yields R (swamMakeIndexConst n is64) σ (pagesVal is64 n) := by
  cases is64 <;>
    simpa [swamMakeIndexConst, swamMakeI32Const, pagesVal, BitVec.ofInt_natCast]
      using yields_const _

theorem yields_memoryBytes (mem : String) (is64 : Bool) :
    Yields R (swamBuildMemoryBytes mem is64) σ (pagesVal is64 (σ.mems mem).size) := by
  have value := arith_mul is64 (σ.mems mem).pages pageSize
  exact (yields_memorySize mem is64).arith (yields_indexConst pageSize is64) value

/-- The base address of a row as a number, at a memory of `size` bytes. -/
def SwamScenario.base (s : SwamScenario) (range size : Nat) : Nat :=
  if s.wrap = .overflow then range - s.accessWidth
  else if s.align = .aligned ∧ s.layout = .oob then size
  else if s.align = .misaligned then
    match s.layout with
    | .interior => size / 2 + 1
    | .boundary => size - s.accessWidth - 1
    | .oob => size - s.accessWidth + 1
  else
    match s.layout with
    | .boundary => size - s.accessWidth
    | .oob => size - s.accessWidth + 1
    | .interior => size / 2

private theorem ofInt_neg_natCast {w n : Nat} (small : n ≤ 2 ^ w) :
    BitVec.ofInt w (-(n : Int)) = BitVec.ofNat w (2 ^ w - n) := by
  rw [BitVec.ofInt_neg, BitVec.ofInt_natCast]
  apply BitVec.eq_of_toNat_eq
  rw [BitVec.toNat_neg, BitVec.toNat_ofNat, BitVec.toNat_ofNat]
  rcases Nat.lt_or_eq_of_le small with lt | rfl
  · rw [Nat.mod_eq_of_lt lt]
  · simp

private theorem yields_negative {is64 : Bool} {n : Nat} (small : n ≤ indexRange is64) :
    Yields R (if is64 then swamMakeIndexConst (-n) true else swamMakeI32Const (-n)) σ
      (pagesVal is64 (indexRange is64 - n)) := by
  cases is64 with
  | false =>
    have equal := ofInt_neg_natCast (w := 32) small
    simpa [swamMakeI32Const, pagesVal, indexRange, equal] using yields_const _
  | true =>
    have equal := ofInt_neg_natCast (w := 64) small
    simpa [swamMakeIndexConst, pagesVal, indexRange, equal] using yields_const _

/-- The address expression computes the base without wrapping. -/
theorem yields_baseAddress {s : SwamScenario} {mem : String} {is64 : Bool}
    (accesses : s.opClass ≠ .memoryGrow) (positive : 0 < s.accessWidth)
    (narrow : s.accessWidth < (σ.mems mem).size)
    (small : (σ.mems mem).size < indexRange is64) :
    Yields R (swamBuildBaseAddress (some s) mem is64) σ
      (pagesVal is64 (s.base (indexRange is64) (σ.mems mem).size)) := by
  have bytes : Yields R _ σ _ := yields_memoryBytes mem is64
  have width : Yields R _ σ _ := yields_indexConst s.accessWidth is64
  have one : Yields R _ σ _ := yields_indexConst 1 is64
  have two : Yields R _ σ _ := yields_indexConst 2 is64
  have range : 2 < indexRange is64 := by cases is64 <;> simp [indexRange]
  have half := bytes.arith two (arith_divU small range (by decide))
  have below := bytes.arith width (arith_sub (Nat.lt_trans narrow small) (Nat.le_of_lt narrow))
  unfold swamBuildBaseAddress SwamScenario.base
  simp only [accesses, Nat.ne_of_gt positive, false_or, if_false]
  split
  · exact yields_negative (by omega)
  split
  · exact bytes
  split
  · cases s.layout with
    | interior => exact half.arith one (arith_add is64 _ _)
    | boundary => exact below.arith one (arith_sub (by omega) (by omega))
    | oob => exact below.arith one (arith_add is64 _ _)
  · cases s.layout with
    | interior => exact half
    | boundary => exact below
    | oob => exact below.arith one (arith_add is64 _ _)

end Addresses

/-! ## Rows -/

/-- Bytes the target instruction of a row accesses. -/
def SwamScenario.accessed (s : SwamScenario) : Nat :=
  match s.opClass with
  | .atomicWait => if swamValtypeToBinaryen s.valueType = .i32 then 4 else 8
  | .atomicNotify => 4
  | .simdLoad => if s.opKind = .v128Load then 16 else (swamSimdLoadOp s.opKind).bytes
  | .simdLoadLane | .simdStoreLane => (swamSimdLaneOp s.opKind).bytes
  | .simdStore => 16
  | .bulkCopy | .bulkFill | .bulkInit => 1
  | _ => s.accessWidth

def SwamScenario.staticOffset (s : SwamScenario) : Nat :=
  if s.wrap = .overflow then s.accessWidth else 0

/-- What the catalog promises about each of its rows. -/
structure SwamScenario.Regular (s : SwamScenario) : Prop where
  unknown : s.expected = .unknown ↔ s.opClass = .memoryGrow
  expected : s.opClass ≠ .memoryGrow →
    (s.expected = .trap ↔ s.wrap = .overflow ∨ s.layout = .oob ∨ s.align = .misaligned)
  width : s.opClass ≠ .memoryGrow → s.accessWidth ∈ [1, 2, 4, 8, 16]
  accessed : s.accessed = s.accessWidth
  misaligned : s.align = .misaligned → s.opClass.isAtomic ∧ 2 ≤ s.accessWidth
  bulk : s.opClass.isBulk → s.wrap = .noWrap

instance (s : SwamScenario) : Decidable s.Regular :=
  decidable_of_iff
    ((s.expected = .unknown ↔ s.opClass = .memoryGrow) ∧
      (s.opClass ≠ .memoryGrow →
        (s.expected = .trap ↔ s.wrap = .overflow ∨ s.layout = .oob ∨ s.align = .misaligned)) ∧
      (s.opClass ≠ .memoryGrow → s.accessWidth ∈ [1, 2, 4, 8, 16]) ∧
      s.accessed = s.accessWidth ∧
      (s.align = .misaligned → s.opClass.isAtomic ∧ 2 ≤ s.accessWidth) ∧
      (s.opClass.isBulk → s.wrap = .noWrap))
    ⟨fun ⟨a, b, c, d, e, f⟩ => ⟨a, b, c, d, e, f⟩, fun ⟨a, b, c, d, e, f⟩ => ⟨a, b, c, d, e, f⟩⟩

theorem swamScenarioCatalog_regular : ∀ s ∈ swamScenarioCatalog, s.Regular := by
  decide +kernel

/-- The access of a row, made at `base`, stays inside memory and is aligned. -/
def SwamScenario.Fits (s : SwamScenario) (base size : Nat) : Prop :=
  base + s.staticOffset + s.accessWidth ≤ size ∧
    (s.opClass.isAtomic → (base + s.staticOffset) % s.accessWidth = 0)

section TargetOp

variable {R : Runtime} {σ : State} {s : SwamScenario} {idx base : Nat} {mem : String}
  {is64 : Bool}

theorem yields_dummyValue (vt : SwamValType) :
    ∃ v, Yields R (swamMakeDummyValue vt) σ v := by
  cases vt <;> exact ⟨_, yields_const _⟩

private theorem fits_bulk (regular : s.Regular) (bulk : s.opClass.isBulk) (size : Nat) :
    s.Fits base size ↔ base + 1 ≤ size := by
  have one : s.accessWidth = 1 := by
    rw [← regular.accessed]
    cases cls : s.opClass <;> simp [cls, SwamOpClass.isBulk] at bulk <;>
      simp [SwamScenario.accessed, cls]
  simp [SwamScenario.Fits, SwamScenario.staticOffset, regular.bulk bulk, one, Nat.mod_one]

/-- The target instruction of a row traps exactly when its access does not fit. -/
theorem ends_targetOp (regular : s.Regular) (accesses : s.opClass ≠ .memoryGrow)
    (held : σ.locals idx = [pagesVal is64 base]) (small : base < indexRange is64)
    (nonempty : 1 ≤ (σ.mems mem).size)
    (segment : s.opClass = .bulkInit → 1 ≤ (σ.segments swamBulkSegmentName).length) :
    TrapsUnless R (swamBuildTargetOp (some s) idx mem is64) σ (s.Fits base (σ.mems mem).size) := by
  have ptr : Yields R _ σ _ := yields_localGet (if is64 then Ty.i64 else Ty.i32) held
  have address := pagesVal_index_of_lt small
  obtain ⟨v, dummy⟩ := @yields_dummyValue R σ s.valueType
  have zero : Yields R _ σ _ := yields_indexConst 0 is64
  have one : Yields R _ σ _ := yields_indexConst 1 is64
  have zeroIndex : (pagesVal is64 0).index = some 0 :=
    pagesVal_index_of_lt (Nat.lt_of_le_of_lt (Nat.zero_le _) small)
  have oneIndex : (pagesVal is64 1).index = some 1 :=
    pagesVal_index_of_lt (by cases is64 <;> simp [indexRange])
  -- every single-address instruction accesses what its row declares
  have row {k : Kind} {es : List Expr} {vs : List Val} (isStrict : k.isStrict)
      (of : k.access = some ⟨mem, s.accessed, s.staticOffset, s.opClass.isAtomic⟩)
      (operands : List.Forall₂ (fun e v => Yields R e σ v) es (pagesVal is64 base :: vs)) :
      TrapsUnless R (.node k es) σ (s.Fits base (σ.mems mem).size) := by
    rw [regular.accessed] at of
    exact ends_access isStrict of address operands
  have v128 : Yields R swamMakeV128Const σ _ := yields_const _
  have noCount : Yields R (swamMakeI32Const 0) σ _ := yields_const _
  have noTimeout : Yields R (.node (.const (.i64 0)) []) σ _ := yields_const _
  have byte : Yields R (swamMakeI32Const 0x42) σ _ := yields_const _
  unfold swamBuildTargetOp
  dsimp only
  cases cls : s.opClass with
  | load =>
    refine (row rfl ?_ (.cons ptr .nil)).drop
    simp [Kind.access, SwamScenario.accessed, SwamScenario.staticOffset, SwamOpClass.isAtomic, cls]
  | store =>
    refine row rfl ?_ (.cons ptr (.cons dummy .nil))
    simp [Kind.access, SwamScenario.accessed, SwamScenario.staticOffset, SwamOpClass.isAtomic, cls]
  | memoryGrow => exact absurd cls accesses
  | atomicLoad =>
    refine (row rfl ?_ (.cons ptr .nil)).drop
    simp [Kind.access, SwamScenario.accessed, SwamScenario.staticOffset, SwamOpClass.isAtomic, cls]
  | atomicStore =>
    refine row rfl ?_ (.cons ptr (.cons dummy .nil))
    simp [Kind.access, SwamScenario.accessed, SwamScenario.staticOffset, SwamOpClass.isAtomic, cls]
  | atomicRmw =>
    refine (row rfl ?_ (.cons ptr (.cons dummy .nil))).drop
    simp [Kind.access, SwamScenario.accessed, SwamScenario.staticOffset, SwamOpClass.isAtomic, cls]
  | atomicCmpxchg =>
    refine (row rfl ?_ (.cons ptr (.cons dummy (.cons dummy .nil)))).drop
    simp [Kind.access, SwamScenario.accessed, SwamScenario.staticOffset, SwamOpClass.isAtomic, cls]
  | atomicWait =>
    refine (row rfl ?_ (.cons ptr (.cons dummy (.cons noTimeout .nil)))).drop
    simp [Kind.access, SwamScenario.accessed, SwamScenario.staticOffset, SwamOpClass.isAtomic, cls]
  | atomicNotify =>
    refine (row rfl ?_ (.cons ptr (.cons noCount .nil))).drop
    simp [Kind.access, SwamScenario.accessed, SwamScenario.staticOffset, SwamOpClass.isAtomic, cls]
  | simdLoad =>
    dsimp only
    split
    next full =>
      refine (row rfl ?_ (.cons ptr .nil)).drop
      simp [Kind.access, SwamScenario.accessed, SwamScenario.staticOffset, SwamOpClass.isAtomic, cls, full]
    next part =>
      refine (row rfl ?_ (.cons ptr .nil)).drop
      simp [Kind.access, SwamScenario.accessed, SwamScenario.staticOffset, SwamOpClass.isAtomic, cls, part]
  | simdLoadLane =>
    refine (row rfl ?_ (.cons ptr (.cons v128 .nil))).drop
    simp [Kind.access, SwamScenario.accessed, SwamScenario.staticOffset, SwamOpClass.isAtomic, cls]
  | simdStore =>
    refine row rfl ?_ (.cons ptr (.cons v128 .nil))
    simp [Kind.access, SwamScenario.accessed, SwamScenario.staticOffset, SwamOpClass.isAtomic, cls]
  | simdStoreLane =>
    refine row rfl ?_ (.cons ptr (.cons v128 .nil))
    simp [Kind.access, SwamScenario.accessed, SwamScenario.staticOffset, SwamOpClass.isAtomic, cls]
  | bulkCopy =>
    refine (ends_memoryCopy (.cons ptr (.cons zero (.cons one .nil))) address zeroIndex
      oneIndex).congr ?_
    rw [fits_bulk regular (by simp [cls, SwamOpClass.isBulk])]
    exact ⟨And.left, fun fits => ⟨fits, by omega⟩⟩
  | bulkFill =>
    refine (ends_memoryFill (.cons ptr (.cons byte (.cons one .nil))) address oneIndex).congr ?_
    rw [fits_bulk regular (by simp [cls, SwamOpClass.isBulk])]
  | bulkInit =>
    refine (ends_memoryInit (.cons ptr (.cons zero (.cons one .nil))) address zeroIndex
      oneIndex).congr ?_
    rw [fits_bulk regular (by simp [cls, SwamOpClass.isBulk])]
    exact ⟨And.left, fun fits => ⟨fits, segment cls⟩⟩

end TargetOp

/-! ## The trap law -/

section TrapLaw

variable {s : SwamScenario} {pages range : Nat}

theorem SwamScenario.Regular.width_dvd (regular : s.Regular)
    (accesses : s.opClass ≠ .memoryGrow) : 0 < s.accessWidth ∧ s.accessWidth ≤ 16 ∧
      s.accessWidth ∣ 16 := by
  have width := regular.width accesses
  simp only [List.mem_cons, List.not_mem_nil, or_false] at width
  rcases width with h | h | h | h | h <;> rw [h] <;> decide

theorem SwamScenario.base_lt (regular : s.Regular) (accesses : s.opClass ≠ .memoryGrow)
    (nonempty : 1 ≤ pages) (small : pages * pageSize < range) :
    s.base range (pages * pageSize) < range := by
  obtain ⟨positive, narrow, _⟩ := regular.width_dvd accesses
  simp only [pageSize] at small ⊢
  unfold SwamScenario.base
  split
  · omega
  split
  · exact small
  split <;> cases s.layout <;> dsimp only <;> omega

/-- At an admissible memory size the access of a row fits exactly when the row does
not expect a trap. -/
theorem SwamScenario.fits_base_iff (regular : s.Regular) (accesses : s.opClass ≠ .memoryGrow)
    (nonempty : 1 ≤ pages) (small : pages * pageSize < range) :
    s.Fits (s.base range (pages * pageSize)) (pages * pageSize) ↔ s.expected ≠ .trap := by
  have width := regular.width accesses
  simp only [List.mem_cons, List.not_mem_nil, or_false] at width
  have misaligned := regular.misaligned
  rw [ne_eq, regular.expected accesses]
  unfold SwamScenario.Fits SwamScenario.base SwamScenario.staticOffset
  cases s.wrap with
  | overflow =>
    -- the unbounded sum reaches past 2^N, hence past the end of memory
    simp
    rcases width with h | h | h | h | h <;> omega
  | noWrap =>
    cases align : s.align with
    | misaligned =>
      obtain ⟨atomic, wide⟩ := misaligned align
      simp [atomic]
      cases s.layout <;> simp only <;> rcases width with h | h | h | h | h <;> rw [h] <;>
        simp only [pageSize] at * <;> omega
    | aligned =>
      cases s.layout <;> simp <;> rcases width with h | h | h | h | h <;> rw [h] <;>
        simp only [pageSize] at * <;> omega
    | na =>
      cases s.layout <;> simp <;> rcases width with h | h | h | h | h <;> rw [h] <;>
        simp only [pageSize] at * <;> omega

/-- The address computation of a probe followed by its target instruction. -/
def swamProbeAccess (s : SwamScenario) (idx : Nat) (mem : String) (is64 : Bool) : List Expr :=
  [.node (.localSet idx) [swamBuildBaseAddress (some s) mem is64],
    swamBuildTargetOp (some s) idx mem is64]

variable {R : Runtime} {σ : State} {idx : Nat} {mem : String} {is64 : Bool}

/-- What a probe writes to its markers. -/
def markerVal (id : Nat) : Val := .i32 (BitVec.ofInt 32 id)

theorem markerSet_iff {g : String} {id : Nat} {r : Res} {σ' : State} :
    Exec R (.one (swamBuildMarkerSet g id)) σ r σ' ↔
      r = .done [[]] ∧ σ' = σ.setGlobal g [markerVal id] :=
  globalSet_iff (yields_const _)

private theorem ofBlock_concat (name : Option String) (vss : List (List Val)) (vs : List Val) :
    (Res.done (vss ++ [vs])).ofBlock name = .done [vs] := by
  simp [Res.ofBlock]

/-- A probe sets the first marker, makes its access and, if that completes, sets the
second marker. -/
theorem exec_probe_iff {m : Module} {r : Res} {σ' : State} :
    Exec R (.one (swamBuildProbe m (some s) idx mem is64).2) σ r σ' ↔
      (∃ vss σ₁, Exec R (.many (swamProbeAccess s idx mem is64))
          (σ.setGlobal swamMarkerBefore [markerVal s.id]) (.done vss) σ₁ ∧
        r = .done [[]] ∧ σ' = σ₁.setGlobal swamMarkerAfter [markerVal s.id]) ∨
      ∃ a, Exec R (.many (swamProbeAccess s idx mem is64))
          (σ.setGlobal swamMarkerBefore [markerVal s.id]) (.stop a) σ' ∧ r = .stop a := by
  have children : (swamBuildProbe m (some s) idx mem is64).2 =
      .node (.block none Ty.none) (swamBuildMarkerSet swamMarkerBefore s.id ::
        (swamProbeAccess s idx mem is64 ++ [swamBuildMarkerSet swamMarkerAfter s.id])) := rfl
  rw [children, Exec.block_iff]
  constructor
  · rintro ⟨t, run, rfl⟩
    cases t with
    | done vss =>
      obtain ⟨vs, rest, σ₀, rfl, first, run⟩ := Exec.many_cons_done.mp run
      obtain ⟨_, rfl⟩ := markerSet_iff.mp first
      obtain ⟨us, ws, σ₁, rfl, access, run⟩ := Exec.many_append_done.mp run
      obtain ⟨ts, rest, σ₂, rfl, last, run⟩ := Exec.many_cons_done.mp run
      obtain ⟨equal, rfl⟩ := markerSet_iff.mp last
      obtain ⟨equal', rfl⟩ := Exec.many_nil_iff.mp run
      cases equal
      cases equal'
      exact .inl ⟨us, σ₁, access, ofBlock_concat none (vs :: us) [], rfl⟩
    | stop a =>
      have plain : (Res.stop a).ofBlock none = .stop a := by cases a <;> simp [Res.ofBlock]
      rw [plain]
      rcases Exec.many_cons_stop.mp run with first | ⟨vs, σ₀, first, run⟩
      · cases (markerSet_iff.mp first).1
      · obtain ⟨_, rfl⟩ := markerSet_iff.mp first
        rcases Exec.many_append_stop.mp run with access | ⟨us, σ₁, access, run⟩
        · exact .inr ⟨a, access, rfl⟩
        · rcases Exec.many_cons_stop.mp run with last | ⟨ws, σ₂, last, run⟩
          · cases (markerSet_iff.mp last).1
          · cases run
  · have first : Exec R (.one (swamBuildMarkerSet swamMarkerBefore s.id)) σ _ _ :=
      markerSet_iff.mpr ⟨rfl, rfl⟩
    rintro (⟨vss, σ₁, access, rfl, rfl⟩ | ⟨a, access, rfl⟩)
    · have last : Exec R (.one (swamBuildMarkerSet swamMarkerAfter s.id)) σ₁ _ _ :=
        markerSet_iff.mpr ⟨rfl, rfl⟩
      have run := Exec.many_append_done.mpr ⟨_, _, _, rfl, access, .cons last .nil⟩
      exact ⟨_, .cons first run, (ofBlock_concat none ([] :: vss) []).symm⟩
    · have run : Exec R (.many (_ ++ [swamBuildMarkerSet swamMarkerAfter s.id])) _ _ _ :=
        Exec.many_append_stop.mpr (.inl access)
      exact ⟨_, .consStopTail first run, by cases a <;> simp [Res.ofBlock]⟩

/-- Running an address computation and then an instruction on the address. -/
theorem exec_address_then {address target : Expr} {v : Val} {r : Res} {σ' : State}
    (value : Yields R address σ v) :
    Exec R (.many [.node (.localSet idx) [address], target]) σ r σ' ↔
      ∃ s, Exec R (.one target) (σ.setLocal idx [v]) s σ' ∧
        ((∃ vs, s = .done [vs] ∧ r = .done [[], vs]) ∨ ∃ a, s = .stop a ∧ r = .stop a) := by
  constructor
  · intro run
    cases r with
    | done vss =>
      obtain ⟨vs, rest, σ₁, rfl, first, tail⟩ := Exec.many_cons_done.mp run
      obtain ⟨equal, rfl⟩ := (localSet_iff value).mp first
      cases equal
      obtain ⟨ws, rest, σ₂, rfl, second, last⟩ := Exec.many_cons_done.mp tail
      obtain ⟨equal, rfl⟩ := Exec.many_nil_iff.mp last
      cases equal
      exact ⟨_, second, .inl ⟨ws, rfl, rfl⟩⟩
    | stop a =>
      rcases Exec.many_cons_stop.mp run with first | ⟨vs, σ₁, first, tail⟩
      · cases ((localSet_iff value).mp first).1
      · obtain ⟨equal, rfl⟩ := (localSet_iff value).mp first
        rcases Exec.many_cons_stop.mp tail with second | ⟨ws, σ₂, second, last⟩
        · exact ⟨_, second, .inr ⟨a, rfl, rfl⟩⟩
        · cases last
  · have first := (localSet_iff (i := idx) value).mpr ⟨rfl, rfl⟩
    rintro ⟨s, run, ⟨vs, rfl, rfl⟩ | ⟨a, rfl, rfl⟩⟩
    · exact .cons first (.cons run .nil)
    · exact .consStopTail first (.consStop run)

/-- Every run of a probe's access ends as its row expects. -/
theorem probeAccess_ends (regular : s.Regular) (accesses : s.opClass ≠ .memoryGrow)
    (nonempty : 1 ≤ (σ.mems mem).pages) (small : (σ.mems mem).size < indexRange is64)
    (segment : s.opClass = .bulkInit → 1 ≤ (σ.segments swamBulkSegmentName).length) :
    (∃ r σ', Exec R (.many (swamProbeAccess s idx mem is64)) σ r σ') ∧
      ∀ r σ', Exec R (.many (swamProbeAccess s idx mem is64)) σ r σ' →
        σ.Keeps σ' ∧ ((s.expected = .trap ∧ r = .stop .trap) ∨
          (s.expected = .noTrap ∧ ∃ vss, r = .done vss)) := by
  obtain ⟨positive, narrow, _⟩ := regular.width_dvd accesses
  have wide : s.accessWidth < (σ.mems mem).size := by
    simp only [MemInst.size, pageSize]
    omega
  have address := yields_baseAddress (R := R) accesses positive wide small
  have ends : TrapsUnless R (swamBuildTargetOp (some s) idx mem is64) _ _ :=
    ends_targetOp regular accesses
      ((σ.setLocal_self idx [pagesVal is64 (s.base (indexRange is64) (σ.mems mem).size)]))
      (SwamScenario.base_lt regular accesses nonempty small)
      (by simp only [State.setLocal_mems]; omega) segment
  have fits := SwamScenario.fits_base_iff regular accesses nonempty small
  have known : s.expected ≠ .unknown := fun h => accesses (regular.unknown.mp h)
  constructor
  · obtain ⟨r, σ', run⟩ := ends.runs
    by_cases trap : s.expected = .trap
    · cases ends.traps (fun h => fits.mp h trap) run
      exact ⟨_, _, (exec_address_then address).mpr ⟨_, run, .inr ⟨_, rfl, rfl⟩⟩⟩
    · obtain ⟨vs, rfl⟩ := ends.completes (fits.mpr trap) run
      exact ⟨_, _, (exec_address_then address).mpr ⟨_, run, .inl ⟨_, rfl, rfl⟩⟩⟩
  · intro r σ' run
    obtain ⟨t, run, shape⟩ := (exec_address_then address).mp run
    refine ⟨ends.keeps run, ?_⟩
    by_cases trap : s.expected = .trap
    · cases ends.traps (fun h => fits.mp h trap) run
      rcases shape with ⟨vs, equal, _⟩ | ⟨a, equal, rfl⟩
      · cases equal
      · cases equal
        exact .inl ⟨trap, rfl⟩
    · obtain ⟨vs, rfl⟩ := ends.completes (fits.mpr trap) run
      have noTrap : s.expected = .noTrap := by cases h : s.expected <;> simp_all
      rcases shape with ⟨_, _, rfl⟩ | ⟨a, equal, _⟩
      · exact .inr ⟨noTrap, _, rfl⟩
      · cases equal

/-- Every run of a probe ends as its row expects, and its markers say so. -/
theorem probe_ends {m : Module} (regular : s.Regular) (accesses : s.opClass ≠ .memoryGrow)
    (nonempty : 1 ≤ (σ.mems mem).pages) (small : (σ.mems mem).size < indexRange is64)
    (segment : s.opClass = .bulkInit → 1 ≤ (σ.segments swamBulkSegmentName).length) :
    (∃ r σ', Exec R (.one (swamBuildProbe m (some s) idx mem is64).2) σ r σ') ∧
      ∀ r σ', Exec R (.one (swamBuildProbe m (some s) idx mem is64).2) σ r σ' →
        (s.expected = .trap ∧ r = .stop .trap ∧
          (σ.setGlobal swamMarkerBefore [markerVal s.id]).Keeps σ') ∨
        (s.expected = .noTrap ∧ r = .done [[]] ∧
          ((σ.setGlobal swamMarkerBefore [markerVal s.id]).setGlobal
            swamMarkerAfter [markerVal s.id]).Keeps σ') := by
  obtain ⟨⟨t, σ₁, run⟩, ends⟩ := @probeAccess_ends s R
    (σ.setGlobal swamMarkerBefore [markerVal s.id]) idx mem is64 regular accesses nonempty small
    segment
  constructor
  · cases t with
    | done vss => exact ⟨_, _, exec_probe_iff.mpr (.inl ⟨vss, σ₁, run, rfl, rfl⟩)⟩
    | stop a => exact ⟨_, _, exec_probe_iff.mpr (.inr ⟨a, run, rfl⟩)⟩
  · intro r σ' run
    rcases exec_probe_iff.mp run with ⟨vss, σ₁, access, rfl, rfl⟩ | ⟨a, access, rfl⟩
    · obtain ⟨keeps, ⟨_, equal⟩ | ⟨noTrap, _⟩⟩ := ends _ _ access
      · cases equal
      · exact .inr ⟨noTrap, rfl, keeps.setGlobal _ _⟩
    · obtain ⟨keeps, ⟨trap, equal⟩ | ⟨_, vss, equal⟩⟩ := ends _ _ access
      · cases equal
        exact .inl ⟨trap, rfl, keeps⟩
      · cases equal

/-- The probe trap law: at every memory of at least one page whose byte size the
index type represents, the access of a catalog row traps if and only if the row
expects a trap, and completes if and only if it expects none. For a 64-bit memory the
bulk initialisation is executed with the 64-bit segment offset and length that the probe
has; validation, which wants 32-bit ones there, refuses the module. -/
theorem probeAccess_traps_iff_expected (R : Runtime) {s : SwamScenario}
    (member : s ∈ swamScenarioCatalog) (known : s.expected ≠ .unknown) (idx : Nat)
    (mem : String) (is64 : Bool) (σ : State) (nonempty : 1 ≤ (σ.mems mem).pages)
    (small : (σ.mems mem).pages * 65536 < if is64 then 2 ^ 64 else 2 ^ 32)
    (segment : s.opClass = .bulkInit → (σ.segments swamBulkSegmentName).length = 1) :
    ((∃ σ', Exec R (.many (swamProbeAccess s idx mem is64)) σ (.stop .trap) σ') ↔
      s.expected = .trap) ∧
    ((∃ vss σ', Exec R (.many (swamProbeAccess s idx mem is64)) σ (.done vss) σ') ↔
      s.expected = .noTrap) := by
  have regular := swamScenarioCatalog_regular s member
  have accesses : s.opClass ≠ .memoryGrow := fun h => known (regular.unknown.mpr h)
  obtain ⟨⟨r, σ', run⟩, ends⟩ := @probeAccess_ends s R σ idx mem is64 regular accesses nonempty
    small (fun h => Nat.le_of_eq (segment h).symm)
  constructor
  · constructor
    · rintro ⟨σ₁, run₁⟩
      rcases (ends _ _ run₁).2 with ⟨trap, _⟩ | ⟨_, vss, equal⟩
      · exact trap
      · cases equal
    · intro trap
      rcases (ends _ _ run).2 with ⟨_, rfl⟩ | ⟨noTrap, _⟩
      · exact ⟨σ', run⟩
      · rw [trap] at noTrap
        cases noTrap
  · constructor
    · rintro ⟨vss, σ₁, run₁⟩
      rcases (ends _ _ run₁).2 with ⟨_, equal⟩ | ⟨noTrap, _⟩
      · cases equal
      · exact noTrap
    · intro noTrap
      rcases (ends _ _ run).2 with ⟨trap, _⟩ | ⟨_, vss, rfl⟩
      · rw [trap] at noTrap
        cases noTrap
      · exact ⟨vss, σ', run⟩

/-- The out-of-bounds `i32.load` row traps on a memory of one page. -/
theorem probeAccess_oob_load_traps :
    ∃ σ', Exec .zeros (.many (swamProbeAccess
      ⟨3, .i32Load, .load, .oob, .trap, 4, false, .i32, .noWrap, .na⟩ 0 "0" false))
      (.zeros 1) (.stop .trap) σ' :=
  (probeAccess_traps_iff_expected .zeros (by decide) (by decide) 0 "0" false (.zeros 1)
    (by decide) (by decide) (by decide)).1.mpr rfl

end TrapLaw

end Swam
