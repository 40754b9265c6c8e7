import Swam.Binaryen.Semantics

/-!
# Evaluation of address expressions

`Yields` singles out operands with one outcome and no effect; instructions over
such operands reduce to `Prim`. Index values of both memory widths are written
`pagesVal`, with arithmetic modulo `indexRange`.
-/
namespace Swam.Binaryen

/-- The expression evaluates to one value, and only to it, without effect. -/
def Yields (R : Runtime) (e : Expr) (σ : State) (v : Val) : Prop :=
  ∀ r σ', Exec R (.one e) σ r σ' ↔ r = .done [[v]] ∧ σ' = σ

section Yields

attribute [local simp] Kind.isPure Kind.isHost Kind.access

variable {R : Runtime} {σ : State}

theorem Yields.of_prim {k : Kind} {v : Val} (isStrict : k.isStrict)
    (prim : ∀ r σ', Prim R k [] σ r σ' ↔ r = .done [[v]] ∧ σ' = σ) :
    Yields R (.node k []) σ v := by
  intro r σ'
  rw [Exec.leaf_iff isStrict, prim]

/-- Operands that all yield a value run to the list of these values. -/
theorem Yields.many {es : List Expr} {vs : List Val}
    (operands : List.Forall₂ (fun e v => Yields R e σ v) es vs) (r : Res) (σ' : State) :
    Exec R (.many es) σ r σ' ↔ r = .done (vs.map ([·])) ∧ σ' = σ := by
  induction operands generalizing r with
  | nil => exact Exec.many_nil_iff
  | @cons e v es vs head _ ih =>
    cases r with
    | done vss =>
      rw [Exec.many_cons_done]
      constructor
      · rintro ⟨ws, rest, σ₁, rfl, first, tail⟩
        obtain ⟨equal, rfl⟩ := (head _ _).mp first
        obtain ⟨equal', rfl⟩ := (ih _).mp tail
        cases equal
        cases equal'
        exact ⟨rfl, rfl⟩
      · rintro ⟨equal, rfl⟩
        cases equal
        exact ⟨[v], vs.map ([·]), _, rfl, (head _ _).mpr ⟨rfl, rfl⟩, (ih _).mpr ⟨rfl, rfl⟩⟩
    | stop a =>
      rw [Exec.many_cons_stop]
      constructor
      · rintro (first | ⟨ws, σ₁, first, tail⟩)
        · cases ((head _ _).mp first).1
        · obtain ⟨equal, rfl⟩ := (head _ _).mp first
          cases ((ih _).mp tail).1
      · rintro ⟨equal, _⟩
        cases equal

/-- A strict instruction over yielding operands is its primitive action. -/
theorem Yields.strict {k : Kind} (isStrict : k.isStrict) {es : List Expr} {vs : List Val}
    (operands : List.Forall₂ (fun e v => Yields R e σ v) es vs) {r : Res} {σ' : State} :
    Exec R (.one (.node k es)) σ r σ' ↔ Prim R k (vs.map ([·])) σ r σ' := by
  rw [Exec.strict_iff isStrict]
  constructor
  · rintro (⟨vss, σ₁, run, act⟩ | ⟨a, rfl, run⟩)
    · obtain ⟨equal, rfl⟩ := (Yields.many operands _ _).mp run
      cases equal
      exact act
    · cases ((Yields.many operands _ _).mp run).1
  · intro act
    exact .inl ⟨_, σ, (Yields.many operands _ _).mpr ⟨rfl, rfl⟩, act⟩

theorem yields_const (l : Literal) : Yields R (.node (.const l) []) σ (.num l) := by
  refine .of_prim rfl fun r σ' => ⟨?_, ?_⟩
  · intro act
    cases act with
    | const => exact ⟨rfl, rfl⟩
    | _ => simp_all
  · rintro ⟨rfl, rfl⟩
    exact .const

theorem yields_localGet {i : Nat} {v : Val} (ty : Ty) (holds : σ.locals i = [v]) :
    Yields R (.node (.localGet i ty) []) σ v := by
  refine .of_prim rfl fun r σ' => ⟨?_, ?_⟩
  · intro act
    cases act with
    | localGet => exact ⟨by rw [holds], rfl⟩
    | _ => simp_all
  · rintro ⟨rfl, rfl⟩
    rw [← holds]
    exact .localGet

theorem yields_memorySize (mem : String) (is64 : Bool) :
    Yields R (.node (.memorySize mem is64) []) σ (pagesVal is64 (σ.mems mem).pages) := by
  refine .of_prim rfl fun r σ' => ⟨?_, ?_⟩
  · intro act
    cases act with
    | memorySize => exact ⟨rfl, rfl⟩
    | _ => simp_all
  · rintro ⟨rfl, rfl⟩
    exact .memorySize

/-- Address arithmetic that does not trap yields its result. -/
theorem Yields.arith {op : Op} {e f : Expr} {v w u : Val} (left : Yields R e σ v)
    (right : Yields R f σ w) (value : arith op v w = some (.done [[u]])) :
    Yields R (.node (.binary op) [e, f]) σ u := by
  intro r σ'
  rw [Yields.strict rfl (.cons left (.cons right .nil))]
  constructor
  · intro act
    cases act with
    | arith known =>
      rw [value] at known
      cases known
      exact ⟨rfl, rfl⟩
    | compute _ foreign _ => simp [foreign op v w rfl rfl] at value
    | computeTrap _ foreign _ => simp [foreign op v w rfl rfl] at value
    | _ => simp_all
  · rintro ⟨rfl, rfl⟩
    exact .arith value

theorem localSet_iff {i : Nat} {e : Expr} {v : Val} (value : Yields R e σ v) {r : Res}
    {σ' : State} :
    Exec R (.one (.node (.localSet i) [e])) σ r σ' ↔
      r = .done [[]] ∧ σ' = σ.setLocal i [v] := by
  rw [Yields.strict rfl (.cons value .nil)]
  constructor
  · intro act
    cases act with
    | localSet => exact ⟨rfl, rfl⟩
    | _ => simp_all
  · rintro ⟨rfl, rfl⟩
    exact .localSet

theorem globalSet_iff {g : String} {e : Expr} {v : Val} (value : Yields R e σ v) {r : Res}
    {σ' : State} :
    Exec R (.one (.node (.globalSet g) [e])) σ r σ' ↔
      r = .done [[]] ∧ σ' = σ.setGlobal g [v] := by
  rw [Yields.strict rfl (.cons value .nil)]
  constructor
  · intro act
    cases act with
    | globalSet => exact ⟨rfl, rfl⟩
    | _ => simp_all
  · rintro ⟨rfl, rfl⟩
    exact .globalSet

end Yields

/-- Number of addresses an index type can name. -/
def indexRange (is64 : Bool) : Nat := if is64 then 2 ^ 64 else 2 ^ 32

theorem pagesVal_index (is64 : Bool) (n : Nat) :
    (pagesVal is64 n).index = some (n % indexRange is64) := by
  cases is64 <;> simp [pagesVal, Val.index, indexRange]

theorem pagesVal_index_of_lt {is64 : Bool} {n : Nat} (small : n < indexRange is64) :
    (pagesVal is64 n).index = some n := by
  rw [pagesVal_index, Nat.mod_eq_of_lt small]

section IndexArithmetic

attribute [local simp] arith

variable (is64 : Bool) (a b : Nat)

def addOp : Op := if is64 then .addInt64 else .addInt32
def subOp : Op := if is64 then .subInt64 else .subInt32
def mulOp : Op := if is64 then .mulInt64 else .mulInt32
def divUOp : Op := if is64 then .divUInt64 else .divUInt32

theorem arith_add :
    arith (addOp is64) (pagesVal is64 a) (pagesVal is64 b) =
      some (.done [[pagesVal is64 (a + b)]]) := by
  cases is64 <;> simp [addOp, pagesVal, BitVec.ofNat_add]

theorem arith_mul :
    arith (mulOp is64) (pagesVal is64 a) (pagesVal is64 b) =
      some (.done [[pagesVal is64 (a * b)]]) := by
  cases is64 <;> simp [mulOp, pagesVal, BitVec.ofNat_mul]

variable {a b}

theorem arith_sub {is64 : Bool} (hb : b < indexRange is64) (le : b ≤ a) :
    arith (subOp is64) (pagesVal is64 a) (pagesVal is64 b) =
      some (.done [[pagesVal is64 (a - b)]]) := by
  cases is64 with
  | false =>
    have h := BitVec.ofNat_sub_ofNat_of_le (w := 32) a b hb le
    simp [subOp, pagesVal, h]
  | true =>
    have h := BitVec.ofNat_sub_ofNat_of_le (w := 64) a b hb le
    simp [subOp, pagesVal, h]

private theorem ofNat_udiv {w a b : Nat} (ha : a < 2 ^ w) (hb : b < 2 ^ w) :
    BitVec.ofNat w a / BitVec.ofNat w b = BitVec.ofNat w (a / b) := by
  apply BitVec.eq_of_toNat_eq
  rw [BitVec.toNat_udiv, BitVec.toNat_ofNat, BitVec.toNat_ofNat, BitVec.toNat_ofNat,
    Nat.mod_eq_of_lt ha, Nat.mod_eq_of_lt hb,
    Nat.mod_eq_of_lt (Nat.lt_of_le_of_lt (Nat.div_le_self a b) ha)]

private theorem ofNat_ne_zero {w b : Nat} (hb : b < 2 ^ w) (positive : 0 < b) :
    BitVec.ofNat w b ≠ 0#w := by
  intro equal
  have := congrArg BitVec.toNat equal
  simp [Nat.mod_eq_of_lt hb] at this
  omega

theorem arith_divU {is64 : Bool} (ha : a < indexRange is64) (hb : b < indexRange is64)
    (positive : 0 < b) :
    arith (divUOp is64) (pagesVal is64 a) (pagesVal is64 b) =
      some (.done [[pagesVal is64 (a / b)]]) := by
  cases is64 with
  | false =>
    have nonzero := ofNat_ne_zero (w := 32) hb positive
    simp [divUOp, pagesVal, nonzero, ofNat_udiv (w := 32) ha hb]
  | true =>
    have nonzero := ofNat_ne_zero (w := 64) hb positive
    simp [divUOp, pagesVal, nonzero, ofNat_udiv (w := 64) ha hb]

end IndexArithmetic

end Swam.Binaryen
