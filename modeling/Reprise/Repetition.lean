import Reprise.Parser
import Reprise.Repetition.Range

/-!
# Repetition

One loop stands behind all repeating parsers. It applies a parser to what the last application
left, hands each value on, and stops at the first signal, at a value that took no input, or when
the counts are used up. A repetition says which counts are allowed, which counts to go through, of
which kind its own errors are, and whether a value must take input.
-/

namespace Reprise

structure Repetition where
  range : Range
  counts : Counts
  kind : ErrorKind
  requireProgress : Bool := true

namespace Repetition

/-- Repetition within a range, each time with progress. -/
def within (range : Range) (kind : ErrorKind) : Repetition := ⟨range, range.capped, kind, true⟩

def many0 : Repetition := within Bounds.unbounded.toRange .many0

def many1 : Repetition := within (Bounds.atLeast 1).toRange .many1

def manyBetween (low high : Nat) : Repetition := within (Bounds.inclusive low high).toRange .manyBetween

def many (range : Range) : Repetition := within range .many

def many0Count : Repetition := within Bounds.unbounded.toRange .many0Count

def many1Count : Repetition := within (Bounds.atLeast 1).toRange .many1Count

def foldMany0 : Repetition := within Bounds.unbounded.toRange .foldMany0

def foldMany1 : Repetition := within (Bounds.atLeast 1).toRange .foldMany1

def foldManyBetween (low high : Nat) : Repetition :=
  within (Bounds.inclusive low high).toRange .foldManyBetween

/-- Repetition that goes on without end where its range has no upper bound. -/
def fold (range : Range) : Repetition := ⟨range, range.uncapped, .fold, true⟩

/-- Exactly `n` times, with or without progress. -/
def exactly (n : Nat) (kind : ErrorKind) : Repetition :=
  ⟨(Bounds.exactly n).toRange, (Bounds.exactly n).toRange.capped, kind, false⟩

def count (n : Nat) : Repetition := exactly n .count

def fill (n : Nat) : Repetition := exactly n .fill

def lengthCount (n : Nat) : Repetition := exactly n .lengthCount

variable {σ τ ε α β : Type} [Payload τ ε]

/-- The loop at count `i`, with a number of turns left. -/
def loop (r : Repetition) (p : Parser σ τ ε α) (sink : β → α → Run σ β) :
    Nat → Nat → β → Parser σ τ ε β
  | 0, _, held, x => return .success held x
  | turns + 1, i, held, x => do
    match ← p x with
    | .success v rest =>
      if r.requireProgress && rest.length == x.length then return .errorAt x r.kind
      else
        let held ← sink held v
        loop r p sink turns (Counts.next i) held rest
    | .signal (.error e) =>
      if r.range.contains i then return .success held x
      else return .signal (.error (Payload.append x r.kind e))
    | .signal s => return .signal s

/-- Repeats a parser and hands its values to a sink, which starts from `held`. -/
def run (r : Repetition) (p : Parser σ τ ε α) (sink : β → α → Run σ β) (held : β) :
    Parser σ τ ε β := fun x =>
  if r.range.inverted then return .failureAt x r.kind
  else loop r p sink (r.counts.turns x.length) 0 held x

/-- A range without counts is a failure before any child is called. -/
theorem run_inverted {r : Repetition} (h : r.range.inverted = true) (p : Parser σ τ ε α)
    (sink : β → α → Run σ β) (held : β) (x : Window τ) :
    r.run p sink held x = pure (.failureAt x r.kind) := by
  unfold run
  rw [if_pos h]

theorem run_eq_loop {r : Repetition} (h : r.range.inverted = false) (p : Parser σ τ ε α)
    (sink : β → α → Run σ β) (held : β) (x : Window τ) :
    r.run p sink held x = r.loop p sink (r.counts.turns x.length) 0 held x := by
  unfold run
  rw [if_neg (Bool.eq_false_iff.mp h)]

theorem inverted_exactly (n : Nat) (kind : ErrorKind) : (exactly n kind).range.inverted = false :=
  decide_eq_false (Nat.lt_irrefl n)

end Repetition

end Reprise
