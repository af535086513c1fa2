/-!
# Runs of code points

A set of code points is told by the lengths of its runs: how many code points are outside it, how
many of the next ones are inside it, and so on in turn.
-/

namespace BlFront.Text

def inRuns : List Nat → Nat → Bool
  | outside :: inside :: runs, n =>
    decide (outside ≤ n) &&
      (decide (n < outside + inside) || inRuns runs (n - (outside + inside)))
  | _, _ => false

end BlFront.Text
