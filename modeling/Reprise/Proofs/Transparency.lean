import Reprise.Proofs.GrammarLink

/-!
# Bare grammars

A grammar is made bare by leaving out what traces or boxes its nodes. All that it answers, and all that it
leaves in the session, stays as it was: only the log is gone.
-/

namespace Reprise

variable {τ ε : Type}

namespace Grammar

/-- What is traced or boxed, where a grammar does nothing else. -/
def wrapped? : Grammar τ → Option (Grammar τ)
  | trace _ p | boxed p => some p
  | _ => none

/-- Traces and boxes nothing, all over. -/
def bare : Grammar τ → Grammar τ := rebuild fun _ g => g.wrapped?.getD g

@[simp] theorem bare_trace (name : String) (p : Grammar τ) : (trace name p).bare = p.bare := rfl

@[simp] theorem bare_boxed (p : Grammar τ) : (boxed p).bare = p.bare := rfl

theorem wrapped_mapChildren (f : Grammar τ → Grammar τ) (g : Grammar τ) :
    (g.mapChildren f).wrapped? = g.wrapped?.map f := by cases g <;> rfl

/-- Any other node stays, over bare children. -/
theorem bare_eq {g : Grammar τ} (h : g.wrapped? = none) : g.bare = g.mapChildren bare := by
  simp only [bare, rebuild_eq, wrapped_mapChildren, h]
  rfl

/-- From children to parents, where traces and boxes are told apart from other nodes. -/
theorem wrapper_induction {P : Grammar τ → Prop} (trace : ∀ name p, P p → P (trace name p))
    (boxed : ∀ p, P p → P (boxed p))
    (node : ∀ g, g.wrapped? = none → (∀ p ∈ g.children, P p) → P g) (g : Grammar τ) : P g := by
  induction g using tree_induction with
  | h g ih =>
    cases g with
    | trace name p => exact trace name p (ih p (List.mem_singleton_self p))
    | boxed p => exact boxed p (ih p (List.mem_singleton_self p))
    | _ => exact node _ rfl ih

/-- Nothing in a bare grammar is traced or boxed. -/
theorem wrapped_of_occurs (g : Grammar τ) {p : Grammar τ} (h : Occurs p g.bare) : p.wrapped? = none := by
  induction g using wrapper_induction with
  | trace name q ih => exact ih h
  | boxed q ih => exact ih h
  | node g hg ih =>
    rw [bare_eq hg] at h
    cases h with
    | here => simp [wrapped_mapChildren, hg]
    | under hchild hoccurs =>
      rw [children_mapChildren] at hchild
      obtain ⟨q, hq, rfl⟩ := List.mem_map.mp hchild
      exact ih q hq hoccurs

/-- The buffers of a grammar are those of its node and of its children. -/
theorem layOut_mapChildren {f : Grammar τ → Grammar τ} {g : Grammar τ}
    (h : ∀ p ∈ g.children, ∀ b, (f p).layOut b = p.layOut b) (b : Buffers τ) :
    (g.mapChildren f).layOut b = g.layOut b := by
  cases g <;> simp_all [mapChildren, graft, children, layOut]

theorem layOut_bare (g : Grammar τ) (b : Buffers τ) : g.bare.layOut b = g.layOut b := by
  induction g using wrapper_induction generalizing b with
  | trace name p ih => exact ih b
  | boxed p ih => exact ih b
  | node g hg ih =>
    rw [bare_eq hg]
    exact layOut_mapChildren ih b

end Grammar

/-- Makes every rule bare. -/
def Bindings.bare (bindings : Bindings τ) : Bindings τ := bindings.map fun (name, g) => (name, g.bare)

theorem Bindings.lookup_bare (bindings : Bindings τ) (name : String) :
    bindings.bare.lookup name = (bindings.lookup name).map Grammar.bare :=
  lookup_map_of_injective Function.injective_id Grammar.bare bindings name

namespace Link

variable [Payload τ ε] [Element τ] {rule rule' : String → Rule τ ε}

theorem related_bare (g : Grammar τ) (hrule : ∀ name, same.Related Eq (rule name) (rule' name)) :
    same.Related Eq (g.parser rule) (g.bare.parser rule') := by
  induction g using Grammar.wrapper_induction with
  | trace name p ih =>
    exact related_traced_left RunState.note_eq
      (fun event _ _ hs => RunState.SameStore.noted_left hs event) name ih
  | boxed p ih => exact ih
  | node g hg ih =>
    rw [Grammar.bare_eq hg]
    exact related_node_same Grammar.bare g hrule ih

theorem related_bare_rule (bindings : Bindings τ) (depth : Nat) (name : String) :
    same.Related Eq (bindings.rule depth name : Rule τ ε) (bindings.bare.rule depth name) := by
  refine related_rules (N := Eq) ?_ ?_ depth rfl
  · rintro name _ rfl hnone
    exact ⟨by rw [Bindings.lookup_bare, hnone]; rfl, rfl⟩
  · rintro name _ g depth rfl hsome ih
    exact ⟨g.bare, by rw [Bindings.lookup_bare, hsome]; rfl, related_bare g fun _ => ih rfl⟩

end Link

namespace Session

/-- Makes every rule of a session bare. -/
def bare (s : Session τ) : Session τ := { s with bindings := s.bindings.bare }

theorem build_bare (s : Session τ) (g : Grammar τ) : s.bare.build g.bare = (s.build g).bare := by
  simp [build, bare, Grammar.layOut_bare]

theorem bind_bare (s : Session τ) (name : String) (g : Grammar τ) :
    s.bare.bind name g.bare = (s.bind name g).bare := by
  simp [bind, build_bare]
  rfl

theorem copy_bare (s : Session τ) (name copy : String) :
    s.bare.copy name copy = (s.copy name copy).map bare := by
  simp [Session.copy, bare, Bindings.lookup_bare]
  rfl

/-- A bare grammar answers the same, and leaves the same buffers and starts. -/
theorem run_bare [Payload τ ε] [Element τ] (s : Session τ) (g : Grammar τ) (source : List τ) :
    (s.bare.run g.bare source : Report τ ε × Session τ).1.outcome =
        (s.run g source : Report τ ε × Session τ).1.outcome ∧
      (s.bare.run g.bare source : Report τ ε × Session τ).2 =
        (s.run g source : Report τ ε × Session τ).2.bare := by
  have hrelated := Link.related_bare g (Link.related_bare_rule (ε := ε) s.bindings recursionLimit)
  obtain ⟨houtcome, hsession⟩ := s.run_same hrelated source
  refine ⟨houtcome, hsession.trans ?_⟩
  simp [bare, run_bindings]

/-- To trace and to box is transparent: leaving it out all over, also in loops, in bodies of announced
lengths and in rules, leaves the outcome with its payload, the buffers and the number of started folds as
they were. Sessions may be made bare at any step, and nothing in a bare grammar is traced or boxed. -/
theorem wrappers_transparent [Element τ] (s : Session τ) (g : Grammar τ) :
    (∀ (ε : Type) [Payload τ ε] (source : List τ),
      (s.bare.run g.bare source : Report τ ε × Session τ).1.outcome =
          (s.run g source : Report τ ε × Session τ).1.outcome ∧
        (s.bare.run g.bare source : Report τ ε × Session τ).2 =
          (s.run g source : Report τ ε × Session τ).2.bare) ∧
    s.bare.build g.bare = (s.build g).bare ∧
    (∀ name, s.bare.bind name g.bare = (s.bind name g).bare) ∧
    (∀ name copy, s.bare.copy name copy = (s.copy name copy).map bare) ∧
    ∀ p, Grammar.Occurs p g.bare → p.wrapped? = none :=
  ⟨fun _ _ => s.run_bare g, s.build_bare g, fun name => s.bind_bare name g, s.copy_bare,
    fun _ => g.wrapped_of_occurs⟩

end Session

end Reprise
