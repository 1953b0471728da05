import Mathlib.Data.List.Forall2
import Reprise.Proofs.Elements
import Reprise.Proofs.Transcribed

/-!
# Prefixes

A fixed pattern is compared with its input as far as both of them go, and only then it is asked which of them is
the longer one. So a difference counts before an input that is too short, and what the parser answers is whether
the pattern is a prefix of the input, or in the streaming form whether the input is one of the pattern. What
counts as equal is up to the kinds of their elements: those of one kind are equal as a whole, and those of two
kinds by the integers that stand for them, which may wrap.
-/

namespace Reprise

namespace Parser

section

variable {τ ρ : Type} {equal : τ → ρ → Prop} {pattern : List ρ} {source : List τ}

/-- A source begins with elements that are equal to those of a pattern. -/
def Begins (equal : τ → ρ → Prop) (pattern : List ρ) (source : List τ) : Prop :=
  ∃ front behind, source = front ++ behind ∧ List.Forall₂ equal front pattern

/-- A source is equal to a part of a pattern from its start, and `missing` elements of the pattern are missing. -/
def RunsOut (equal : τ → ρ → Prop) (pattern : List ρ) (source : List τ) (missing : Nat) : Prop :=
  1 ≤ missing ∧ ∃ front behind, pattern = front ++ behind ∧ List.Forall₂ equal source front ∧
    behind.length = missing

end

/-- The two forms of a parser of a fixed pattern that do nothing but decide whether the pattern is a prefix of
their input. Where it is, they take it. Where the input ends within the pattern, the streaming form asks for
what is missing. All else is an error where they stand. -/
structure DecidesPrefix {τ ρ : Type} (equal : τ → ρ → Prop) (pattern : List ρ)
    (tag : ∀ {σ ε : Type} [Payload τ ε], Mode → Parser σ τ ε (Window τ)) : Prop where
  success_iff : ∀ {σ ε : Type} [Payload τ ε] (mode : Mode) (x : Window τ) (s t : σ) (v rest : Window τ),
    (tag mode x s : EStateM.Result Stop σ (Outcome τ ε (Window τ))) = .ok (.success v rest) t ↔
      ∃ front behind, x.elements = front ++ behind ∧ List.Forall₂ equal front pattern ∧
        v = x.take front.length ∧ rest = x.drop front.length ∧ t = s
  incomplete_iff : ∀ {σ ε : Type} [Payload τ ε] (mode : Mode) (x : Window τ) (s t : σ) (needed : Needed),
    (tag mode x s : EStateM.Result Stop σ (Outcome τ ε (Window τ))) =
        .ok (.signal (.incomplete needed)) t ↔
      mode = .streaming ∧ RunsOut equal pattern x.elements needed.size ∧ t = s
  otherwise : ∀ {σ ε : Type} [Payload τ ε] (mode : Mode) (x : Window τ) (s : σ),
    ¬ Begins equal pattern x.elements →
    (mode = .complete ∨ ∀ missing, ¬ RunsOut equal pattern x.elements missing) →
    (tag mode x s : EStateM.Result Stop σ (Outcome τ ε (Window τ))) = .ok (.errorAt x .tag) s

section

variable {τ ρ : Type}

/-- What counts as equal may be said in another way. -/
theorem DecidesPrefix.congr {equal equal' : τ → ρ → Prop} {pattern : List ρ}
    {tag : ∀ {σ ε : Type} [Payload τ ε], Mode → Parser σ τ ε (Window τ)}
    (h : DecidesPrefix equal pattern tag) (hequal : ∀ a b, equal a b ↔ equal' a b) :
    DecidesPrefix equal' pattern tag := by
  obtain rfl : equal = equal' := funext fun a => funext fun b => propext (hequal a b)
  exact h

end

section

variable {τ ρ : Type} [Element τ] [Element ρ]

/-- A pattern decides prefixes of sources of another kind, where integers stand for its elements. -/
def DecidesForeign (equal : τ → ρ → Prop) (pattern : List ρ) : Prop :=
  DecidesPrefix equal pattern fun mode => foreign mode (pattern.map Element.value)

theorem DecidesForeign.congr {equal equal' : τ → ρ → Prop} {pattern : List ρ}
    (h : DecidesForeign equal pattern) (hequal : ∀ a b, equal a b ↔ equal' a b) :
    DecidesForeign equal' pattern :=
  DecidesPrefix.congr h hequal

end

end Parser

end Reprise
