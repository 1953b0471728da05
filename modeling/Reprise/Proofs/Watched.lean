import Reprise.Proofs.GrammarLaw
import Reprise.Proofs.GrammarLink

/-!
# Watched grammars

A grammar is watched by tracing each of its nodes under a label of its own. That changes nothing but
the log, which only grows, and in which every application of a node has its end.
-/

namespace Reprise

variable {τ ε : Type}

/-- Traces every node under its label. -/
def Grammar.watched (label : Grammar τ → String) : Grammar τ → Grammar τ :=
  rebuild fun g g' => trace (label g) g'

theorem Grammar.watched_eq (label : Grammar τ → String) (g : Grammar τ) :
    g.watched label = trace (label g) (g.mapChildren (watched label)) := rebuild_eq _ g

/-- Watches every rule. -/
def Bindings.watched (label : Grammar τ → String) (bindings : Bindings τ) : Bindings τ :=
  bindings.map fun (name, g) => (name, g.watched label)

theorem Bindings.lookup_watched (label : Grammar τ → String) (bindings : Bindings τ) (name : String) :
    (bindings.watched label).lookup name = (bindings.lookup name).map (Grammar.watched label) :=
  lookup_map_of_injective Function.injective_id (Grammar.watched label) bindings name

/-- Watches every rule of a session. -/
def Session.watched (label : Grammar τ → String) (s : Session τ) : Session τ :=
  { s with bindings := s.bindings.watched label }

variable [Payload τ ε] [Element τ]

namespace Link

variable {rule rule' : String → Rule τ ε}

theorem related_watched (label : Grammar τ → String) (g : Grammar τ)
    (hrule : ∀ name, same.Related Eq (rule name) (rule' name)) :
    same.Related Eq (g.parser rule) ((g.watched label).parser rule') := by
  induction g using Grammar.tree_induction with
  | h g ih =>
    rw [Grammar.watched_eq]
    exact related_traced_right RunState.note_eq
      (fun event _ _ hs => RunState.SameStore.noted_right hs event) (label g)
      (related_node_same (Grammar.watched label) g hrule ih)

theorem related_watched_rule (label : Grammar τ → String) (bindings : Bindings τ) (depth : Nat)
    (name : String) : same.Related Eq (bindings.rule depth name : Rule τ ε)
      ((bindings.watched label).rule depth name) := by
  refine related_rules (N := Eq) ?_ ?_ depth rfl
  · rintro name _ rfl hnone
    exact ⟨by rw [Bindings.lookup_watched, hnone]; rfl, rfl⟩
  · rintro name _ g depth rfl hsome ih
    exact ⟨g.watched label, by rw [Bindings.lookup_watched, hsome]; rfl,
      related_watched label g fun _ => ih rfl⟩

end Link

/-- Watching a session changes neither outcomes nor buffers. -/
theorem Session.run_watched (s : Session τ) (g : Grammar τ) (label : Grammar τ → String)
    (source : List τ) :
    ((s.watched label).run (g.watched label) source : Report τ ε × Session τ).1.outcome =
        (s.run g source : Report τ ε × Session τ).1.outcome ∧
      ((s.watched label).run (g.watched label) source : Report τ ε × Session τ).2 =
        (s.run g source : Report τ ε × Session τ).2.watched label := by
  have hrelated := Link.related_watched label g
    (Link.related_watched_rule (ε := ε) label s.bindings recursionLimit)
  obtain ⟨houtcome, hsession⟩ := s.run_same hrelated source
  refine ⟨houtcome, hsession.trans ?_⟩
  simp [Session.watched, Session.run_bindings]

end Reprise
