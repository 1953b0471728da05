import Reprise.Outcome.Payload

/-!
# Parsers

A parser maps a window to a run that ends in an outcome. A run carries a state, which parsers are
free to choose, and may stop early: at the limit of recursive rules, at a rule nothing is bound to,
or at a fault. The state as it was when the run stopped is kept.
-/

namespace Reprise

/-- Why a run stopped without an outcome. -/
inductive Stop where
  | tooDeep
  | unbound (name : String)
  | fault (f : Fault)
  deriving DecidableEq, Repr

abbrev Run (σ : Type) := EStateM Stop σ

/-- Demands the value of a checked access. -/
def Run.demand {σ α : Type} : Except Fault α → Run σ α
  | .ok a => pure a
  | .error f => throw (.fault f)

@[simp] theorem Run.demand_ok {σ α : Type} (a : α) :
    (Run.demand (.ok a) : Run σ α) = pure a := rfl

abbrev Parser (σ τ ε α : Type) := Window τ → Run σ (Outcome τ ε α)

namespace Parser

variable {σ τ ε α β : Type}

def map (f : α → β) (p : Parser σ τ ε α) : Parser σ τ ε β := fun x => do
  return (← p x).map f

/-- Turns an error into the absence of a value. Nothing is consumed then. -/
def opt (p : Parser σ τ ε α) : Parser σ τ ε (Option α) := fun x => do
  match ← p x with
  | .success v rest => return .success (some v) rest
  | .signal (.error _) => return .success none x
  | .signal s => return .signal s

/-- Turns an error into a failure. -/
def cut (p : Parser σ τ ε α) : Parser σ τ ε α := fun x => do
  match ← p x with
  | .success v rest => return .success v rest
  | .signal s => return .signal s.commit

/-- One parser after the other. -/
def andThen (p : Parser σ τ ε α) (q : Parser σ τ ε β) : Parser σ τ ε (α × β) := fun x => do
  match ← p x with
  | .success v rest =>
    match ← q rest with
    | .success w rest => return .success (v, w) rest
    | .signal s => return .signal s
  | .signal s => return .signal s

/-- The second parser where the first one errs. -/
def orElse (p q : Parser σ τ ε α) : Parser σ τ ε α := fun x => do
  match ← p x with
  | .signal (.error _) => q x
  | o => return o

end Parser

end Reprise
