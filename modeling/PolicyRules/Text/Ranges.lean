/-!
# Sets of code points

A character class is stored as a list of closed ranges of code points. A class of many ranges is
written down by the lengths of its runs, from which `rangesFrom` makes the ranges.
-/

namespace PolicyRules

/-- The ranges of a class whose runs have the given lengths. The lengths stand in pairs: so many
code points, from `next` on, are left out, and so many after them are in the class. -/
def rangesFrom (next : Nat) : List Nat → List (Nat × Nat)
  | skipped :: taken :: runs =>
    (next + skipped, next + skipped + taken - 1) :: rangesFrom (next + skipped + taken) runs
  | _ => []

/-- Whether a code point lies in one of the closed ranges of a table. -/
def inRanges (table : List (Nat × Nat)) (n : Nat) : Bool :=
  table.any fun range => decide (range.1 ≤ n) && decide (n ≤ range.2)

theorem inRanges_eq_true_iff {table : List (Nat × Nat)} {n : Nat} :
    inRanges table n ↔ ∃ range ∈ table, range.1 ≤ n ∧ n ≤ range.2 := by
  simp [inRanges]

end PolicyRules
