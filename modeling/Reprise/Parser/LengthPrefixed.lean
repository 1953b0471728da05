import Reprise.Parser.Many

/-!
# Length-prefixed data

Data that follows its own length. The length is whatever a parser yields, read as a number.
-/

namespace Reprise.Parser

variable {σ τ ε α κ : Type}

/-- As many elements as the length before them says. -/
def lengthData (len : Parser σ τ ε Nat) : Parser σ τ ε (Window τ) := fun x => do
  match ← len x with
  | .success n rest =>
    if rest.length < n then return .needs (n - rest.length)
    else
      let (data, after) ← Run.demand (rest.split n)
      return .success data after
  | .signal s => return .signal s

variable [Payload τ ε]

/-- Parses the data as a source of its own. What the body leaves of it is dropped, and a body that
asks for more can not get it. -/
def lengthValue (len : Parser σ τ ε Nat) (body : Parser σ τ ε α) : Parser σ τ ε α := fun x => do
  match ← lengthData len x with
  | .success data after =>
    match ← body data with
    | .success v _ => return .success v after
    | .signal (.incomplete _) => return .errorAt data .complete
    | .signal s => return .signal s
  | .signal s => return .signal s

/-- As many values as the number before them says. -/
def lengthCount (len : Parser σ τ ε Nat) (into : Container α κ) (p : Parser σ τ ε α) :
    Parser σ τ ε κ := fun x => do
  match ← len x with
  | .success n rest => collect (.lengthCount n) into (into.withRoom n) p rest
  | .signal s => return .signal s

end Reprise.Parser
