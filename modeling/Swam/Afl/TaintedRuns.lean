import Swam.Lib.Spans
import Swam.Afl.ColorizationSound

/-!
# The runs of free bytes

The ranges that were kept are put together from left to right, although the list has them in no
order: a scan starts over as soon as it finds the range that goes on with the last run, and else
it finds the leftmost one.
-/
namespace Swam.Afl.Colorization

open Lib

/-! ## One scan -/

/-- A scan of ranges, with the end of the last run. -/
def scan (runEnd : Option Nat) : List (Nat × Piece) → Option Nat → Nat → Nat ⊕ Option Nat
  | [], r, _ => .inr r
  | (a, c) :: cs, r, pos =>
    if c.ok = 1 ∧ c.start < pos then
      if runEnd = some c.start then .inl a else scan runEnd cs (some a) c.start
    else scan runEnd cs r pos

section
variable {h : Heap} {ranges : Option Nat} {cs xs ys : List (Nat × Piece)} {a : Nat} {c : Piece}
  {runEnd : Option Nat} {r r' : Option Nat} {pos : Nat}

end

/-! ## The runs so far -/

/-- The runs are what the ranges put together cover, rightmost first, and the other ranges are
all to the right of them. -/
structure Merged (cs : List (Nat × Piece)) (taints : List Tainted) (positions : Nat) : Prop where
  marks : ∀ c ∈ cs, c.2.ok = 1 ∨ c.2.ok = 2
  nonempty : ∀ t ∈ taints, 0 < t.len
  separated : taints.Pairwise fun t u => u.pos + u.len < t.pos
  covers : ∀ i, (∃ c ∈ cs, c.2.ok = 2 ∧ c.2.covers i) ↔ ∃ t ∈ taints, t.pos ≤ i ∧ i < t.pos + t.len
  ahead : ∀ c ∈ cs, c.2.ok = 1 → ∀ t ∈ taints, t.pos + t.len ≤ c.2.start
  total : positions = (taints.map Tainted.len).sum

section
variable {len positions : Nat} {cs xs ys : List (Nat × Piece)} {rejected : List Nat} {a : Nat}
  {c : Piece} {taints rest : List Tainted} {t : Tainted}

/-- The runs are inside the input. -/
theorem Merged.below (merged : Merged cs taints positions) (partition : Partition len cs rejected) :
    ∀ t ∈ taints, t.pos + t.len ≤ len := by
  intro t member
  have nonempty := merged.nonempty t member
  obtain ⟨c, among, _, covers⟩ := (merged.covers (t.pos + t.len - 1)).mpr
    ⟨t, member, by omega, by omega⟩
  have := (partition.proper c among).2
  have := covers.2
  omega

/-- How many ranges are left to be put together. -/
def remaining (cs : List (Nat × Piece)) : Nat := cs.countP fun c => c.2.ok = 1

private theorem kept_put {i : Nat} (waits : c.ok = 1) :
    Kept (xs ++ (a, { c with ok := 2 }) :: ys) i ↔ Kept (xs ++ (a, c) :: ys) i := by
  simp [kept_middle, waits]

end

end Swam.Afl.Colorization
