import Reprise.Repetition.Counts
import Reprise.Fault

/-!
# Ranges

How often something may be repeated. A repetition asks a range only four things, so callers may
bring ranges of their own; the provided ones are a lower and an upper bound.
-/

namespace Reprise

structure Range where
  /-- No count is allowed at all. -/
  inverted : Bool
  contains : Nat → Bool
  /-- The counts to go through, cut at the largest one. -/
  capped : Counts
  /-- The counts to go through, without end where there is no upper bound. -/
  uncapped : Counts

inductive UpperBound where
  | included (n : Nat)
  | excluded (n : Nat)
  | unbounded
  deriving DecidableEq, Repr

/-- A range given by its bounds. -/
structure Bounds where
  lower : Nat
  upper : UpperBound
  deriving DecidableEq, Repr

namespace Bounds

def inclusive (low high : Nat) : Bounds := ⟨low, .included high⟩

def exclusive (low stop : Nat) : Bounds := ⟨low, .excluded stop⟩

def atLeast (low : Nat) : Bounds := ⟨low, .unbounded⟩

def atMost (high : Nat) : Bounds := inclusive 0 high

def below (stop : Nat) : Bounds := exclusive 0 stop

def exactly (n : Nat) : Bounds := inclusive n n

def unbounded : Bounds := atLeast 0

/-- The range that a plain number stands for. -/
def ofInt (n : Int) : Except Fault Bounds :=
  if n < 0 then .error .negativeCount else .ok (exactly n.toNat)

def isBounded (b : Bounds) : Bool := b.upper != .unbounded

def isInverted (b : Bounds) : Bool :=
  match b.upper with
  | .included n => n < b.lower
  | .excluded n => n ≤ b.lower
  | .unbounded => false

def contains (b : Bounds) (n : Nat) : Bool :=
  b.lower ≤ n &&
    match b.upper with
    | .included m => n ≤ m
    | .excluded m => n < m
    | .unbounded => true

/-- The most repetitions the bounds allow. -/
def most (b : Bounds) : Nat :=
  match b.upper with
  | .included n => n
  | .excluded n => n - 1
  | .unbounded => largestCount

def toRange (b : Bounds) : Range where
  inverted := b.isInverted
  contains := b.contains
  capped := .upTo b.most
  uncapped := if b.isBounded then .upTo b.most else .endless

end Bounds

end Reprise
