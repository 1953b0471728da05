import Reprise.Grammar.Value

/-!
# Buffers

Named rows of slots that parsers write into. A row is made once, with every slot empty, and keeps
its size from then on.
-/

namespace Reprise

structure Buffers (τ : Type) where
  rows : List (String × Array (Value τ))

namespace Buffers

variable {τ : Type}

def none : Buffers τ := ⟨[]⟩

def get? (b : Buffers τ) (name : String) : Option (Array (Value τ)) := b.rows.lookup name

/-- The number of slots of a row. -/
def size (b : Buffers τ) (name : String) : Nat := (b.get? name).elim 0 Array.size

/-- Makes a row of empty slots, unless there is one of that name. -/
def make (b : Buffers τ) (name : String) (slots : Nat) : Buffers τ :=
  match b.get? name with
  | some _ => b
  | .none => ⟨b.rows ++ [(name, Array.replicate slots .unit)]⟩

/-- Writes one slot. -/
def write (b : Buffers τ) (name : String) (slot : Nat) (v : Value τ) : Buffers τ :=
  ⟨b.rows.map fun (n, row) => (n, if n == name then row.setIfInBounds slot v else row)⟩

end Buffers

end Reprise
