import Reprise.Container
import Reprise.Repetition

/-!
# Repeating parsers

The parsers that collect, count, fold or write what a repetition yields. Each is the one loop with
a range, a kind of error and a sink of its own.
-/

namespace Reprise

namespace Parser

variable {σ τ ε α β κ : Type} [Payload τ ε]

/-- Repeats into a container that already holds something. -/
def collect (r : Repetition) (into : Container α κ) (held : κ) (p : Parser σ τ ε α) :
    Parser σ τ ε κ :=
  r.run p (fun held v => return into.insert held v) held

def many0 (into : Container α κ) (p : Parser σ τ ε α) : Parser σ τ ε κ :=
  collect .many0 into into.empty p

def many1 (into : Container α κ) (p : Parser σ τ ε α) : Parser σ τ ε κ :=
  collect .many1 into into.empty p

/-- Between `low` and `high` values, both included. Room is made for the least number. -/
def manyBetween (low high : Nat) (into : Container α κ) (p : Parser σ τ ε α) : Parser σ τ ε κ :=
  let r := Repetition.manyBetween low high
  collect r into (if r.range.inverted then into.empty else into.withRoom low) p

def many (range : Range) (into : Container α κ) (p : Parser σ τ ε α) : Parser σ τ ε κ :=
  collect (.many range) into into.empty p

/-- Exactly `n` values. -/
def count (n : Nat) (into : Container α κ) (p : Parser σ τ ε α) : Parser σ τ ε κ :=
  collect (.count n) into (into.withRoom n) p

/-- Repeats and folds the values from a start that is made anew for each application. -/
def foldOver (r : Repetition) (init : Run σ β) (step : β → α → β) (p : Parser σ τ ε α) :
    Parser σ τ ε β := fun x => do
  r.run p (fun acc v => return step acc v) (← init) x

def foldMany0 (init : Run σ β) (step : β → α → β) (p : Parser σ τ ε α) : Parser σ τ ε β :=
  foldOver .foldMany0 init step p

def foldMany1 (init : Run σ β) (step : β → α → β) (p : Parser σ τ ε α) : Parser σ τ ε β :=
  foldOver .foldMany1 init step p

def foldManyBetween (low high : Nat) (init : Run σ β) (step : β → α → β) (p : Parser σ τ ε α) :
    Parser σ τ ε β :=
  foldOver (.foldManyBetween low high) init step p

def fold (range : Range) (init : Run σ β) (step : β → α → β) (p : Parser σ τ ε α) :
    Parser σ τ ε β :=
  foldOver (.fold range) init step p

/-- How many values there are. -/
def countOver (r : Repetition) (p : Parser σ τ ε α) : Parser σ τ ε Nat :=
  collect r .counter 0 p

def many0Count (p : Parser σ τ ε α) : Parser σ τ ε Nat := countOver .many0Count p

def many1Count (p : Parser σ τ ε α) : Parser σ τ ε Nat := countOver .many1Count p

/-- Writes as many values as there are slots, each into the slot of its number. -/
def fill (slots : Nat) (write : Nat → α → Run σ Unit) (p : Parser σ τ ε α) :
    Parser σ τ ε Unit :=
  Parser.map (fun _ => ()) <| (Repetition.fill slots).run p
    (fun slot v => do write slot v; return slot + 1) 0

end Parser

end Reprise
