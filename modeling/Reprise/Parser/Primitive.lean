import Reprise.Source.Element
import Reprise.Parser

/-!
# Primitive parsers

Parsers without children: fixed patterns, runs of elements, single elements and the end of input.
The streaming form of a parser treats a too short window as unfinished, the complete form as an
error.
-/

namespace Reprise

/-- What the end of a window means: the end of all input, or of the input so far. -/
inductive Mode where
  | complete
  | streaming
  deriving DecidableEq, Repr

namespace Parser

variable {σ τ ε ρ : Type}

/-- Succeeds everywhere and consumes nothing. -/
def epsilon : Parser σ τ ε Unit := fun x => return .success () x

/-- The first `k` elements of a window that has at least as many. -/
def take (k : Nat) : Parser σ τ ε (Window τ) := fun x => do
  let (taken, rest) ← Run.demand (x.split k)
  return .success taken rest

variable [Payload τ ε]

def eof : Parser σ τ ε Unit := fun x =>
  return if x.isEmpty then .success () x else .errorAt x .eof

/-- A single element, whatever it is. -/
def one : Parser σ τ ε τ := fun x => do
  if x.isEmpty then return .errorAt x .eof
  let e ← Run.demand (x.get 0)
  let (_, rest) ← Run.demand (x.split 1)
  return .success e rest

/-- A window that ends before `wanted` elements were seen. -/
def tooShort {α : Type} (mode : Mode) (kind : ErrorKind) (wanted : Nat) (x : Window τ) :
    Outcome τ ε α :=
  match mode with
  | .complete => .errorAt x kind
  | .streaming => .needs (wanted - x.length)

/-- Whether two lists agree as far as both of them go. -/
def agree (same : τ → ρ → Bool) : List τ → List ρ → Bool
  | a :: as, b :: bs => same a b && agree same as bs
  | _, _ => true

/-- A fixed pattern, compared element by element. A difference counts before a too short input. -/
def tag (same : τ → ρ → Bool) (mode : Mode) (pattern : List ρ) : Parser σ τ ε (Window τ) :=
  fun x => do
    if agree same x.elements pattern then
      if x.length < pattern.length then return tooShort mode .tag pattern.length x
      else take pattern.length x
    else return .errorAt x .tag

/-- A fixed pattern of the source's own elements. -/
def literal [BEq τ] (mode : Mode) (pattern : List τ) : Parser σ τ ε (Window τ) :=
  tag (fun a b => a == b) mode pattern

/-- The longest run of elements that pass a test, at least `least` of them. -/
def takeWhile (test : τ → Bool) (least : Nat) (kind : ErrorKind) : Parser σ τ ε (Window τ) :=
  fun x => do
    let n := (x.elements.takeWhile test).length
    if n < least then return .errorAt x kind else take n x

variable [Element τ]

/-- A fixed pattern of elements of another kind, given by the integers that stand for them. -/
def foreign (mode : Mode) (values : List Int) : Parser σ τ ε (Window τ) := tag Element.equals mode values

/-- An ASCII digit. -/
def isDigit (e : τ) : Bool := 48 ≤ Element.number e && Element.number e ≤ 57

/-- An ASCII letter. -/
def isLetter (e : τ) : Bool :=
  (65 ≤ Element.number e && Element.number e ≤ 90) ||
    (97 ≤ Element.number e && Element.number e ≤ 122)

def digits (least : Nat) : Parser σ τ ε (Window τ) := takeWhile isDigit least .digit

def letters : Parser σ τ ε (Window τ) := takeWhile isLetter 1 .alpha

end Parser

end Reprise
