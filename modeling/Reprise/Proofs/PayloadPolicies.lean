import Reprise.Proofs.GrammarLink
import Reprise.Proofs.Trail

/-!
# Payload policies

Which payload is chosen does not change what a grammar does. Run after run it makes the payload that
the trail of the same error stands for.
-/

namespace Reprise

variable {τ ε : Type}

theorem payloadMap_payload [Payload τ ε] : PayloadMap (τ := τ) (Trail.payload : Trail τ → ε) where
  ofKind _ _ := rfl
  append := Trail.payload_append

variable [Element τ]

/-- A payload that a session sees as a function of the trail: outcomes are those with trails, and so
are the buffers and the started folds. -/
def Session.Observes (s : Session τ) [Payload τ ε] (f : Trail τ → ε) : Prop :=
  ∀ g source,
    (s.run g source : Report τ ε × Session τ).1.outcome =
      (s.run g source : Report τ (Trail τ) × Session τ).1.outcome.map (Outcome.mapPayload f) ∧
    (s.run g source : Report τ ε × Session τ).2 = (s.run g source : Report τ (Trail τ) × Session τ).2

/-- Every payload is made of the trail of its error. -/
theorem Session.observes_payload [Payload τ ε] (s : Session τ) :
    s.Observes (Trail.payload : Trail τ → ε) := by
  intro g source
  have hrelated := Link.related_grammar_same g fun name _ =>
    Link.related_rule_same (payloadMap_payload (ε := ε)).extending s.bindings recursionLimit name
  have hmapped : Mapped (Trail.payload : Trail τ → ε) RunState.SameStore
      (s.bindings.parser g (.ofList source) s.initial)
      (s.bindings.parser g (.ofList source) s.initial) :=
    (hrelated _ _ _ _ (Window.extend_nil _).symm s.initial_sameStore).mapped payloadMap_payload
  obtain ⟨houtcome, hsession⟩ := s.conclude_mapped s hmapped
  rw [Session.run_eq, Session.run_eq]
  refine ⟨houtcome, hsession.trans ?_⟩
  exact congrArg (Session.mk · _ _) (s.conclude_bindings _).symm

/-- The provided payloads only observe a run. Of the places an error passed, of which there is one at
least, they keep the first, the last, or how many there are besides the first. -/
theorem Session.payload_policies_observe (s : Session τ) :
    s.Observes (fun t => t.entries.head t.entries_ne_nil) ∧
      s.Observes (fun t => Outermost.mk (t.entries.getLast t.entries_ne_nil)) ∧
      s.Observes (fun t => Tally.mk (t.entries.length - 1)) := by
  refine ⟨?_, ?_, ?_⟩
  · have h := s.observes_payload (ε := Located τ)
    rwa [funext Trail.payload_located] at h
  · have h := s.observes_payload (ε := Outermost τ)
    rwa [funext Trail.payload_outermost] at h
  · have h := s.observes_payload (ε := Tally)
    rwa [funext Trail.payload_tally] at h

end Reprise
