import Reprise.Source.Window

/-!
# Outcomes

A parser applied to a window either succeeds with a value and the window that remains, or answers
with a signal: an error another alternative may recover from, a failure nothing recovers from, or
the wish for more input.
-/

namespace Reprise

/-- How many more elements are needed. Size zero stands for an unknown amount. -/
structure Needed where
  size : Nat
  deriving DecidableEq, Repr

namespace Needed

def unknown : Needed := ⟨0⟩

def isUnknown (n : Needed) : Bool := n.size == 0

end Needed

inductive Signal (ε : Type) where
  | error (payload : ε)
  | failure (payload : ε)
  | incomplete (needed : Needed)
  deriving DecidableEq, Repr

namespace Signal

variable {ε δ : Type}

def map (f : ε → δ) : Signal ε → Signal δ
  | error e => error (f e)
  | failure e => failure (f e)
  | incomplete n => incomplete n

def isError : Signal ε → Bool
  | error _ => true
  | _ => false

def isFailure : Signal ε → Bool
  | failure _ => true
  | _ => false

def isIncomplete : Signal ε → Bool
  | incomplete _ => true
  | _ => false

/-- What an error or a failure carries. -/
def payload? : Signal ε → Option ε
  | error e => some e
  | failure e => some e
  | incomplete _ => none

/-- Turns an error into a failure. -/
def commit : Signal ε → Signal ε
  | error e => failure e
  | s => s

end Signal

inductive Outcome (τ ε α : Type) where
  | success (value : α) (rest : Window τ)
  | signal (s : Signal ε)

namespace Outcome

variable {τ ε α β : Type}

def map (f : α → β) : Outcome τ ε α → Outcome τ ε β
  | success v rest => success (f v) rest
  | signal s => signal s

def isSuccess : Outcome τ ε α → Bool
  | success _ _ => true
  | signal _ => false

/-- The value and what remains, where the outcome is a success. -/
def getSuccess : Outcome τ ε α → Except Fault (α × Window τ)
  | success v rest => .ok (v, rest)
  | signal _ => .error .absentAlternative

/-- The signal, where the outcome is one. -/
def getSignal : Outcome τ ε α → Except Fault (Signal ε)
  | success _ _ => .error .absentAlternative
  | signal s => .ok s

end Outcome

namespace Signal

variable {ε : Type}

def getError : Signal ε → Except Fault ε
  | error e => .ok e
  | _ => .error .absentAlternative

def getFailure : Signal ε → Except Fault ε
  | failure e => .ok e
  | _ => .error .absentAlternative

def getIncomplete : Signal ε → Except Fault Needed
  | incomplete n => .ok n
  | _ => .error .absentAlternative

end Signal

end Reprise
