import Mathlib.Algebra.Order.Ring.Int
import Mathlib.Data.Char
import Mathlib.Data.List.Lex
import Mathlib.Data.List.Sort

/-!
# Padded numbers and the order of names

Numbers written with as many digits as asked for are in the order of the alphabet when they are in
their own, as long as no number needs more digits.
-/
namespace Swam.Lib

/-- A number in decimal, with zeros in front up to a width. -/
def padded (width n : Nat) : List Char := (Nat.toDigits 10 n).leftpad width '0'

theorem padded_one {n : Nat} (small : n < 10) : padded 1 n = [n.digitChar] := by
  unfold padded
  rw [Nat.toDigits_of_lt_base small]
  rfl

theorem padded_succ {width : Nat} (positive : 0 < width) (n : Nat) :
    padded (width + 1) n = padded width (n / 10) ++ [(n % 10).digitChar] := by
  unfold padded
  by_cases small : n < 10
  · -- the quotient is one zero more
    rw [Nat.toDigits_of_lt_base small, Nat.div_eq_of_lt small, Nat.mod_eq_of_lt small, Nat.toDigits_zero]
    obtain ⟨w, rfl⟩ := Nat.exists_eq_succ_of_ne_zero (Nat.pos_iff_ne_zero.mp positive)
    simp [List.leftpad, List.replicate_succ']
  · rw [Nat.toDigits_of_base_le (by decide) (Nat.le_of_not_lt small)]
    simp [List.leftpad]

theorem length_padded {width n : Nat} (positive : 0 < width) (fits : n < 10 ^ width) :
    (padded width n).length = width := by
  unfold padded
  rw [List.length_leftpad]
  exact Nat.max_eq_left ((Nat.length_toDigits_le_iff (by decide) positive).mpr fits)

/-- A longer number is not shortened. -/
theorem le_length_padded (width n : Nat) : width ≤ (padded width n).length := by
  unfold padded
  rw [List.length_leftpad]
  exact Nat.le_max_left _ _

/-! ## Order -/
section
variable {α : Type} [LT α]

/-- Of two lists of the same length the first difference decides. -/
theorem append_lt_append {a b : List α} (less : a < b) (same : a.length = b.length) (c d : List α) :
    a ++ c < b ++ d := by
  induction less with
  | nil => simp at same
  | rel first => exact List.Lex.rel first
  | cons _ ih => exact List.Lex.cons (ih (by simpa using same))

end

theorem digitChar_lt {m n : Nat} (less : m < n) (small : n < 10) : m.digitChar < n.digitChar := by
  rw [Char.lt_def, UInt32.lt_iff_toNat_lt]
  have first := Nat.toNat_digitChar_of_lt_ten (Nat.lt_trans less small)
  have second := Nat.toNat_digitChar_of_lt_ten small
  unfold Char.toNat at first second
  omega

theorem padded_lt {width : Nat} (positive : 0 < width) {m n : Nat} (less : m < n)
    (fits : n < 10 ^ width) : padded width m < padded width n := by
  induction width generalizing m n with
  | zero => contradiction
  | succ w ih =>
    rcases Nat.eq_zero_or_pos w with rfl | more
    · rw [padded_one (by omega), padded_one (by omega)]
      exact List.Lex.rel (digitChar_lt less (by omega))
    · have quotient : n / 10 < 10 ^ w := by
        rw [Nat.pow_succ] at fits
        omega
      rw [padded_succ more, padded_succ more]
      by_cases same : m / 10 = n / 10
      · rw [same]
        exact List.append_left_lt (List.Lex.rel (digitChar_lt (by omega) (Nat.mod_lt _ (by decide))))
      · have below : m / 10 < n / 10 := by omega
        refine append_lt_append (ih more below quotient) ?_ _ _
        rw [length_padded more quotient, length_padded more (Nat.lt_trans below quotient)]

theorem padded_inj {width m n : Nat} (positive : 0 < width) (first : m < 10 ^ width)
    (second : n < 10 ^ width) : padded width m = padded width n ↔ m = n := by
  refine ⟨fun same => ?_, fun same => by rw [same]⟩
  rcases Nat.lt_trichotomy m n with less | equal | greater
  · have := padded_lt positive less second
    rw [same] at this
    exact absurd this (List.lt_irrefl _)
  · exact equal
  · have := padded_lt positive greater first
    rw [same] at this
    exact absurd this (List.lt_irrefl _)

/-! ## Sorting -/

/-- The names of a directory in the order of the alphabet. -/
def alphasort (names : List (List Char)) : List (List Char) := names.mergeSort

/-- There is one way to put names in order. -/
theorem alphasort_eq {names sorted : List (List Char)} (same : names.Perm sorted)
    (inOrder : sorted.Pairwise (· < ·)) : alphasort names = sorted := by
  unfold alphasort
  have perm : names.mergeSort.Perm sorted := (List.mergeSort_perm _ _).trans same
  have ordered : (names.mergeSort).Pairwise (· ≤ ·) := by
    have trans (a b c : List Char) (first : decide (a ≤ b) = true) (second : decide (b ≤ c) = true) :
        decide (a ≤ c) = true := by
      rw [decide_eq_true_eq] at *
      exact le_trans first second
    have total (a b : List Char) : (decide (a ≤ b) || decide (b ≤ a)) = true := by
      rw [Bool.or_eq_true, decide_eq_true_eq, decide_eq_true_eq]
      exact le_total a b
    exact (List.pairwise_mergeSort trans total names).imp fun h => of_decide_eq_true h
  exact perm.eq_of_pairwise (fun a b _ _ first second => le_antisymm first second) ordered
    (inOrder.imp fun h => le_of_lt h)

end Swam.Lib
