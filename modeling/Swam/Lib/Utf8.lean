import Mathlib.Algebra.Order.Ring.Int
import Mathlib.Tactic.Common

/-!
# UTF-8

The bytes of a Unicode scalar value, and the table of the byte sequences of two, three and four
bytes that are well formed: no longer than need be, and no surrogate.
-/
namespace Swam.Lib

/-- Every code point but the surrogates. -/
def IsScalar (v : Nat) : Prop := v < 0xd800 ∨ (0xdfff < v ∧ v < 0x110000)

def scalarBytes (v : Nat) : List (BitVec 8) :=
  if v < 0x80 then [.ofNat 8 v]
  else if v < 0x800 then [.ofNat 8 (0xc0 + v / 64), .ofNat 8 (0x80 + v % 64)]
  else if v < 0x10000 then
    [.ofNat 8 (0xe0 + v / 4096), .ofNat 8 (0x80 + v / 64 % 64), .ofNat 8 (0x80 + v % 64)]
  else
    [.ofNat 8 (0xf0 + v / 262144), .ofNat 8 (0x80 + v / 4096 % 64), .ofNat 8 (0x80 + v / 64 % 64),
      .ofNat 8 (0x80 + v % 64)]

/-- The bytes of a character behind its first. -/
def IsTail (b : BitVec 8) : Prop := 0x80 ≤ b.toNat ∧ b.toNat ≤ 0xbf

section
variable {a b c d : BitVec 8}

private theorem ofNat_eq_iff {n : Nat} (small : n < 256) (x : BitVec 8) :
    BitVec.ofNat 8 n = x ↔ n = x.toNat := by
  rw [← BitVec.toNat_inj, BitVec.toNat_ofNat, Nat.mod_eq_of_lt small]

theorem scalarBytes_one {v : Nat} (ascii : v < 0x80) : scalarBytes v = [a] ↔ v = a.toNat := by
  rw [scalarBytes, if_pos ascii, List.cons.injEq, ofNat_eq_iff (by omega)]
  simp

theorem scalarBytes_two {v : Nat} (low : 0x80 ≤ v) (high : v < 0x800) :
    scalarBytes v = [a, b] ↔ 0xc0 + v / 64 = a.toNat ∧ 0x80 + v % 64 = b.toNat := by
  rw [scalarBytes, if_neg (by omega), if_pos high, List.cons.injEq, List.cons.injEq,
    ofNat_eq_iff (by omega), ofNat_eq_iff (by omega)]
  simp

theorem scalarBytes_three {v : Nat} (low : 0x800 ≤ v) (high : v < 0x10000) :
    scalarBytes v = [a, b, c] ↔
      0xe0 + v / 4096 = a.toNat ∧ 0x80 + v / 64 % 64 = b.toNat ∧ 0x80 + v % 64 = c.toNat := by
  rw [scalarBytes, if_neg (by omega), if_neg (by omega), if_pos high, List.cons.injEq,
    List.cons.injEq, List.cons.injEq, ofNat_eq_iff (by omega), ofNat_eq_iff (by omega),
    ofNat_eq_iff (by omega)]
  simp

theorem scalarBytes_four {v : Nat} (low : 0x10000 ≤ v) (high : v < 0x110000) :
    scalarBytes v = [a, b, c, d] ↔
      0xf0 + v / 262144 = a.toNat ∧ 0x80 + v / 4096 % 64 = b.toNat ∧
        0x80 + v / 64 % 64 = c.toNat ∧ 0x80 + v % 64 = d.toNat := by
  rw [scalarBytes, if_neg (by omega), if_neg (by omega), if_neg (by omega), List.cons.injEq,
    List.cons.injEq, List.cons.injEq, List.cons.injEq, ofNat_eq_iff (by omega),
    ofNat_eq_iff (by omega), ofNat_eq_iff (by omega), ofNat_eq_iff (by omega)]
  simp

/-! ## The table -/

def IsPair (a b : BitVec 8) : Prop := 0xc2 ≤ a.toNat ∧ a.toNat ≤ 0xdf ∧ IsTail b

def IsTriple (a b c : BitVec 8) : Prop :=
  IsTail c ∧
    ((a.toNat = 0xe0 ∧ 0xa0 ≤ b.toNat ∧ b.toNat ≤ 0xbf) ∨
      ((0xe1 ≤ a.toNat ∧ a.toNat ≤ 0xec ∨ a.toNat = 0xee ∨ a.toNat = 0xef) ∧ IsTail b) ∨
      (a.toNat = 0xed ∧ 0x80 ≤ b.toNat ∧ b.toNat ≤ 0x9f))

def IsQuadruple (a b c d : BitVec 8) : Prop :=
  IsTail c ∧ IsTail d ∧
    ((a.toNat = 0xf0 ∧ 0x90 ≤ b.toNat ∧ b.toNat ≤ 0xbf) ∨
      (0xf1 ≤ a.toNat ∧ a.toNat ≤ 0xf3 ∧ IsTail b) ∨
      (a.toNat = 0xf4 ∧ 0x80 ≤ b.toNat ∧ b.toNat ≤ 0x8f))

theorem isPair_iff :
    IsPair a b ↔ ∃ v, 0x80 ≤ v ∧ v < 0x800 ∧ scalarBytes v = [a, b] := by
  constructor
  · rintro ⟨low, high, tail⟩
    simp only [IsTail] at tail
    refine ⟨(a.toNat - 0xc0) * 64 + (b.toNat - 0x80), by omega, by omega, ?_⟩
    rw [scalarBytes_two (by omega) (by omega)]
    omega
  · rintro ⟨v, low, high, bytes⟩
    rw [scalarBytes_two low high] at bytes
    simp only [IsPair, IsTail]
    omega

theorem isTriple_iff :
    IsTriple a b c ↔ ∃ v, 0x800 ≤ v ∧ v < 0x10000 ∧ IsScalar v ∧ scalarBytes v = [a, b, c] := by
  constructor
  · rintro ⟨tail, first⟩
    simp only [IsTail] at tail first
    refine ⟨(a.toNat - 0xe0) * 4096 + (b.toNat - 0x80) * 64 + (c.toNat - 0x80), by omega, by omega,
      ?_, ?_⟩
    · simp only [IsScalar]
      omega
    · rw [scalarBytes_three (by omega) (by omega)]
      omega
  · rintro ⟨v, low, high, scalar, bytes⟩
    rw [scalarBytes_three low high] at bytes
    simp only [IsScalar] at scalar
    simp only [IsTriple, IsTail]
    omega

theorem isQuadruple_iff :
    IsQuadruple a b c d ↔ ∃ v, 0x10000 ≤ v ∧ v < 0x110000 ∧ scalarBytes v = [a, b, c, d] := by
  constructor
  · rintro ⟨third, fourth, first⟩
    simp only [IsTail] at third fourth first
    refine ⟨(a.toNat - 0xf0) * 262144 + (b.toNat - 0x80) * 4096 + (c.toNat - 0x80) * 64 +
      (d.toNat - 0x80), by omega, by omega, ?_⟩
    rw [scalarBytes_four (by omega) (by omega)]
    omega
  · rintro ⟨v, low, high, bytes⟩
    rw [scalarBytes_four low high] at bytes
    simp only [IsQuadruple, IsTail]
    omega

end

/-- The bytes of a scalar value are one of the four rows. -/
theorem scalarBytes_cases {v : Nat} (scalar : IsScalar v) :
    (v < 0x80 ∧ ∃ a, scalarBytes v = [a] ∧ v = a.toNat) ∨
    (0x80 ≤ v ∧ ∃ a b, scalarBytes v = [a, b] ∧ IsPair a b) ∨
    (0x80 ≤ v ∧ ∃ a b c, scalarBytes v = [a, b, c] ∧ IsTriple a b c) ∨
    (0x80 ≤ v ∧ ∃ a b c d, scalarBytes v = [a, b, c, d] ∧ IsQuadruple a b c d) := by
  have bytes := @scalarBytes.eq_def v
  split at bytes
  next one => exact .inl ⟨one, _, bytes, (scalarBytes_one one).mp bytes⟩
  next =>
    split at bytes
    next two => exact .inr (.inl ⟨by omega, _, _, bytes, isPair_iff.mpr ⟨v, by omega, two, bytes⟩⟩)
    next =>
      split at bytes
      next three =>
        exact .inr (.inr (.inl ⟨by omega, _, _, _, bytes,
          isTriple_iff.mpr ⟨v, by omega, three, scalar, bytes⟩⟩))
      next =>
        have below : v < 0x110000 := by
          simp only [IsScalar] at scalar
          omega
        exact .inr (.inr (.inr ⟨by omega, _, _, _, _, bytes,
          isQuadruple_iff.mpr ⟨v, by omega, below, bytes⟩⟩))

end Swam.Lib
