import Reprise.Container
import Reprise.Parser

/-!
# Repetition up to a terminator

A terminator is tried first, and only where it errs the body is applied once more.
-/

namespace Reprise.Parser

variable {σ τ ε α β κ : Type} [Payload τ ε]

/-- The loop with a number of turns left. Each turn but the last takes an element at least, so one
more turn than there are elements is never used up. -/
def manyTillLoop (into : Container α κ) (p : Parser σ τ ε α) (till : Parser σ τ ε β) :
    Nat → κ → Parser σ τ ε (κ × β)
  | 0, _, x => return .errorAt x .manyTill
  | turns + 1, held, x => do
    match ← till x with
    | .success u rest => return .success (held, u) rest
    | .signal (.error _) =>
      match ← p x with
      | .success v rest =>
        if rest.length == x.length then return .errorAt x .manyTill
        else manyTillLoop into p till turns (into.insert held v) rest
      | .signal (.error e) => return .signal (.error (Payload.append x .manyTill e))
      | .signal s => return .signal s
    | .signal s => return .signal s

/-- The values before a terminator, and the terminator's own value. -/
def manyTill (into : Container α κ) (p : Parser σ τ ε α) (till : Parser σ τ ε β) :
    Parser σ τ ε (κ × β) := fun x =>
  manyTillLoop into p till (x.length + 1) into.empty x

end Reprise.Parser
