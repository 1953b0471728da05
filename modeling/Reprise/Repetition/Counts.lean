/-!
# Iteration counts

The counts a repetition goes through: zero, one, two and so on, either up to a limit or without
end. A count is a 64-bit number; past the largest one an endless sequence stays where it is.
-/

namespace Reprise

/-- The largest count there is. -/
def largestCount : Nat := UInt64.size - 1

inductive Counts where
  | upTo (limit : Nat)
  | endless
  deriving DecidableEq, Repr

namespace Counts

/-- The count that follows. -/
def next (n : Nat) : Nat := if n = largestCount then n else n + 1

/-- Whether an iteration at count `n` goes on. -/
def goesOn : Counts → Nat → Bool
  | upTo limit, n => n != limit
  | endless, _ => true

/-- Whether count `n` is the end of the sequence. -/
def atEnd (c : Counts) (n : Nat) : Bool := !c.goesOn n

/-- The first `k` counts of the sequence that starts at `n`, fewer where it ends before. -/
def visit (c : Counts) : Nat → Nat → List Nat
  | 0, _ => []
  | k + 1, n => if c.goesOn n then n :: c.visit k (next n) else []

/-- How many turns a loop over the counts can take, where each turn of an endless sequence takes
one of the `available` elements at least, except the last. -/
def turns : Counts → Nat → Nat
  | upTo limit, _ => limit
  | endless, available => available + 1

end Counts

end Reprise
