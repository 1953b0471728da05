import Reprise.Outcome.Kind
import Reprise.Outcome

/-!
# Error payloads

What an error carries is the caller's choice. A payload is made where an error arises and may be
annotated by each parser the error passes through on its way out. Four payloads are provided: the
place where the error arose, the trail of all places it passed, the outermost of them, and a mere
tally of the annotations.
-/

namespace Reprise

/-- A type of payload over sources of `τ`. -/
class Payload (τ : Type) (ε : Type) where
  ofKind : Window τ → ErrorKind → ε
  append : Window τ → ErrorKind → ε → ε

/-- A place: the input a parser had before it and what it was looking for. -/
structure Located (τ : Type) where
  input : Window τ
  kind : ErrorKind

/-- Places with the same kind and equal elements before them. -/
def Located.same {τ : Type} [BEq τ] (a b : Located τ) : Bool :=
  a.kind == b.kind && a.input.sameElements b.input

/-- Keeps the place where the error arose. -/
instance {τ : Type} : Payload τ (Located τ) where
  ofKind x k := ⟨x, k⟩
  append _ _ e := e

/-- The place where an error arose and those it passed on its way out, innermost first. -/
structure Trail (τ : Type) where
  innermost : Located τ
  outer : List (Located τ)

namespace Trail

variable {τ : Type}

def entries (t : Trail τ) : List (Located τ) := t.innermost :: t.outer

theorem entries_ne_nil (t : Trail τ) : t.entries ≠ [] := by simp [entries]

end Trail

instance {τ : Type} : Payload τ (Trail τ) where
  ofKind x k := ⟨⟨x, k⟩, []⟩
  append x k t := ⟨t.innermost, t.outer ++ [⟨x, k⟩]⟩

/-- The last place an error passed. -/
structure Outermost (τ : Type) where
  place : Located τ

instance {τ : Type} : Payload τ (Outermost τ) where
  ofKind x k := ⟨⟨x, k⟩⟩
  append x k _ := ⟨⟨x, k⟩⟩

/-- How often an error was annotated. -/
structure Tally where
  annotations : Nat
  deriving DecidableEq, Repr

instance {τ : Type} : Payload τ Tally where
  ofKind _ _ := ⟨0⟩
  append _ _ t := ⟨t.annotations + 1⟩

namespace Outcome

variable {τ ε α : Type} [Payload τ ε]

/-- A fresh error at a window. -/
def errorAt (x : Window τ) (kind : ErrorKind) : Outcome τ ε α :=
  .signal (.error (Payload.ofKind x kind))

/-- A fresh failure at a window. -/
def failureAt (x : Window τ) (kind : ErrorKind) : Outcome τ ε α :=
  .signal (.failure (Payload.ofKind x kind))

/-- The wish for a number of further elements. -/
def needs (n : Nat) : Outcome τ ε α := .signal (.incomplete ⟨n⟩)

end Outcome

end Reprise
