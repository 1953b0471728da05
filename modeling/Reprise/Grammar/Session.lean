import Reprise.Grammar.Meaning

/-!
# Sessions

A session binds names to grammars and applies them to sources, one step after the other. What
outlives a step are the bindings, the buffers and the count of started folds.
-/

namespace Reprise

structure Session (τ : Type) where
  bindings : Bindings τ
  buffers : Buffers τ
  starts : Nat

/-- What one application answers. -/
structure Report (τ ε : Type) where
  outcome : Except Stop (Outcome τ ε (Value τ))
  events : Array (Event τ ε)

namespace Session

variable {τ ε : Type}

def empty : Session τ := ⟨[], .none, 0⟩

/-- Builds a grammar, which makes the buffers it fills. -/
def build (s : Session τ) (g : Grammar τ) : Session τ := { s with buffers := g.layOut s.buffers }

/-- Builds a grammar and binds a name to it. -/
def bind (s : Session τ) (name : String) (g : Grammar τ) : Session τ :=
  let s := s.build g
  { s with bindings := (name, g) :: s.bindings }

/-- Binds a second name to what a name is bound to now. -/
def copy (s : Session τ) (name copy : String) : Option (Session τ) :=
  (s.bindings.lookup name).map fun g => { s with bindings := (copy, g) :: s.bindings }

variable [Payload τ ε] [Element τ]

/-- Applies a grammar to a source. -/
def run (s : Session τ) (g : Grammar τ) (source : List τ) : Report τ ε × Session τ :=
  match s.bindings.parser g (.ofList source) ⟨s.buffers, s.starts, #[]⟩ with
  | .ok o t => (⟨.ok o, t.events⟩, { s with buffers := t.buffers, starts := t.starts })
  | .error e t => (⟨.error e, t.events⟩, { s with buffers := t.buffers, starts := t.starts })

/-- Applies what a name is bound to. -/
def apply (s : Session τ) (name : String) (source : List τ) : Option (Report τ ε × Session τ) :=
  (s.bindings.lookup name).map fun g => s.run g source

end Session

end Reprise
