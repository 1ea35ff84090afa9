/-!
# Tables of code points

The tables of character properties are increasing lists of ranges, or of runs with a stride.

* `inRanges` : membership of a code point in a list of ranges.
* `inRuns` : membership of a code point in a list of runs.
-/

namespace CallMigration.Text

def inRanges (n : Nat) : List (Nat × Nat) → Bool
  | [] => false
  | (first, last) :: rest =>
    if n < first then false else if n ≤ last then true else inRanges n rest

/-- `n` lies in one of the runs `(first, last, stride)`, which begin in increasing order. -/
def inRuns (n : Nat) : List (Nat × Nat × Nat) → Bool
  | [] => false
  | (first, last, stride) :: rest =>
    if n < first then false
    else if n ≤ last ∧ (n - first) % stride = 0 then true else inRuns n rest

end CallMigration.Text
