import Reprise.Container
import Reprise.Parser

/-!
# Separated lists

Elements with a separator between two of them. A separator that no element follows is left in the
input.
-/

namespace Reprise.Parser

variable {σ τ ε α β κ : Type} [Payload τ ε]

/-- The elements after the first, with a number of turns left. A separator takes an element at
least, so one more turn than there are elements is never used up. -/
def separatedLoop (into : Container α κ) (sep : Parser σ τ ε β) (p : Parser σ τ ε α) :
    Nat → κ → Parser σ τ ε κ
  | 0, _, x => return .errorAt x .separatedList
  | turns + 1, held, x => do
    match ← sep x with
    | .success _ next =>
      if next.length == x.length then return .errorAt x .separatedList
      else
        match ← p next with
        | .success v rest => separatedLoop into sep p turns (into.insert held v) rest
        | .signal (.error _) => return .success held x
        | .signal s => return .signal s
    | .signal (.error _) => return .success held x
    | .signal s => return .signal s

/-- The elements after the first one, which is held already. -/
def separatedRest (into : Container α κ) (sep : Parser σ τ ε β) (p : Parser σ τ ε α) (first : α) :
    Parser σ τ ε κ := fun x =>
  separatedLoop into sep p (x.length + 1) (into.insert into.empty first) x

/-- One element at least. -/
def separatedList1 (into : Container α κ) (sep : Parser σ τ ε β) (p : Parser σ τ ε α) :
    Parser σ τ ε κ := fun x => do
  match ← p x with
  | .success v rest => separatedRest into sep p v rest
  | .signal s => return .signal s

/-- Any number of elements. -/
def separatedList0 (into : Container α κ) (sep : Parser σ τ ε β) (p : Parser σ τ ε α) :
    Parser σ τ ε κ := fun x => do
  match ← p x with
  | .success v rest => separatedRest into sep p v rest
  | .signal (.error _) => return .success into.empty x
  | .signal s => return .signal s

end Reprise.Parser
