import Reprise.Proofs.GrammarLaw

/-!
# Journals

A journal is what a state keeps of a run, entry by entry: calls or events. What the entries of an
application tell about its answer makes a law, as soon as it adds up over the steps of a run.
-/

namespace Reprise

variable {σ τ ε ρ α : Type}

structure Journal (ρ τ ε : Type) where
  Tells : List ρ → Answer τ ε → Prop
  nothing : ∀ y, Tells [] (.success y)
  needs : ∀ n, Tells [] (.signal (.incomplete n))
  seq : ∀ {l l' y a}, Tells l (.success y) → Tells l' a → Tells (l ++ l') a
  recover : ∀ {l e} (y), Tells l (.signal (.error e)) → Tells l (.success y)
  refuse : ∀ {l y} (e), Tells l (.success y) → Tells l (.signal (.error e))
  halt : ∀ {l y} (why), Tells l (.success y) → Tells l (.stop why)

namespace Journal

variable [Payload τ ε] (J : Journal ρ τ ε) (entries : σ → List ρ)

/-- The law of what is written between two states. -/
def law : Law σ τ ε where
  Holds _ s a t := ∃ l, entries t = entries s ++ l ∧ J.Tells l a
  Shows _ _ := True
  drop _ := ⟨[], (List.append_nil _).symm, J.nothing _⟩
  needs n := ⟨[], (List.append_nil _).symm, J.needs n⟩
  seq := by
    rintro x y s t u a ⟨l, ht, hl⟩ ⟨l', hu, hl'⟩
    exact ⟨l ++ l', by rw [hu, ht, List.append_assoc], J.seq hl hl'⟩
  absorb := fun ⟨l, ht, hl⟩ => ⟨l, ht, J.recover _ hl⟩
  annotate {x _ _ _} _ := fun ⟨l, ht, hl⟩ => ⟨l, ht, J.refuse _ (J.recover x hl)⟩
  refuse _ := fun ⟨l, ht, hl⟩ => ⟨l, ht, J.refuse _ hl⟩
  part_success {x _ _ _ _} _ := fun ⟨l, ht, hl⟩ =>
    ⟨l, ht, J.recover _ (J.refuse (Payload.ofKind x .complete) hl)⟩
  part_error _ h := h
  part_failure _ h := h
  part_stop _ h := h
  shows_take _ _ := trivial
  shows_seq _ _ := trivial
  shows_part _ := trivial

variable {J entries}

theorem shown {windows : α → List (Window τ)} {x : Window τ} {v : α} :
    (J.law entries).Shown windows x v := fun _ _ => trivial

/-- Nothing is written. -/
theorem holds_self {x : Window τ} {s : σ} {a : Answer τ ε} (h : J.Tells [] a) :
    (J.law entries).Holds x s a s := ⟨[], (List.append_nil _).symm, h⟩

/-- From a state without entries, what is written is all there is. -/
theorem tells_of_holds {x : Window τ} {s t : σ} {a : Answer τ ε} (hs : entries s = [])
    (h : (J.law entries).Holds x s a t) : J.Tells (entries t) a := by
  obtain ⟨l, ht, hl⟩ := h
  rw [hs, List.nil_append] at ht
  rwa [ht]

/-- Effects that write nothing may happen after any success. -/
theorem admits_silent {m : Run σ α} {V : α → Prop} (hV : ∀ v, V v)
    (hok : ∀ t v u, m t = .ok v u → entries u = entries t)
    (herror : ∀ t why u, m t = .error why u → entries u = entries t) :
    (J.law entries).Admits V m where
  ok {x s y t v u} reach hr := by
    obtain ⟨l, ht, hl⟩ := reach
    have hu := hok t v u hr
    exact ⟨⟨l, hu.trans ht, hl⟩, hV v⟩
  stop {x s y t why u} reach hr := by
    obtain ⟨l, ht, hl⟩ := reach
    have hu := herror t why u hr
    exact ⟨l, hu.trans ht, J.halt why hl⟩

end Journal

/-- The events of a run, in order. -/
def RunState.log (s : RunState τ ε) : List (Event τ ε) := s.events.toList

theorem RunState.log_noted (s : RunState τ ε) (e : Event τ ε) :
    RunState.log { s with events := s.events.push e } = s.log ++ [e] := Array.toList_push

/-- What the trace of an application writes at its end keeps what the events tell. -/
structure Journal.Traces (J : Journal (Event τ ε) τ ε) : Prop where
  start : ∀ name x, J.Tells [.start name x] (.success x)
  success : ∀ name y, J.Tells [.success name y] (.success y)
  signal : ∀ {l g} (name x), J.Tells l (.signal g) → J.Tells (l ++ [.failure name x g]) (.signal g)

namespace Journal

variable [Payload τ ε] {J : Journal (Event τ ε) τ ε}

theorem Traces.stop (hJ : J.Traces) (name : String) {x : Window τ} {s t : RunState τ ε} {why : Stop}
    (h : (J.law RunState.log).Holds x { s with events := s.events.push (.start name x) } (.stop why) t) :
    (J.law RunState.log).Holds x s (.stop why) t := by
  obtain ⟨l, ht, hl⟩ := h
  rw [RunState.log_noted, List.append_assoc] at ht
  exact ⟨_, ht, J.seq (hJ.start name x) hl⟩

theorem Traces.closing (hJ : J.Traces) (name : String) {x : Window τ} {s t : RunState τ ε}
    (o : Outcome τ ε α)
    (h : (J.law RunState.log).Holds x { s with events := s.events.push (.start name x) } o.answer t) :
    (J.law RunState.log).Holds x s o.answer { t with events := t.events.push (.closing name x o) } := by
  obtain ⟨l, ht, hl⟩ := h
  rw [RunState.log_noted, List.append_assoc] at ht
  have htells := J.seq (hJ.start name x) hl
  refine ⟨[.start name x] ++ l ++ [.closing name x o], ?_, ?_⟩
  · rw [RunState.log_noted, ht, List.append_assoc, List.append_assoc]
  · cases o with
    | success v rest => exact J.seq htells (hJ.success name rest)
    | signal g => exact hJ.signal name x htells

/-- Events tell the same of a traced parser. -/
theorem Traces.obeys (hJ : J.Traces) {windows : α → List (Window τ)} {p : Parser (RunState τ ε) τ ε α}
    (name : String) (hp : (J.law RunState.log).Obeys windows p) :
    (J.law RunState.log).Obeys windows (p.traced RunState.note name) :=
  Law.obeys_traced RunState.note_eq name hp (hJ.stop name) (hJ.closing name)

/-- Grammars obey what their events tell, if a body that asks for more input tells no more than an
error. -/
theorem Traces.grammatical (hJ : J.Traces)
    (complete : ∀ {l n} (e : ε), J.Tells l (.signal (.incomplete n)) → J.Tells l (.signal (.error e))) :
    (J.law RunState.log).Grammatical where
  complete := by
    rintro x s t n k _ ⟨l, ht, hl⟩
    exact ⟨l, ht, complete _ hl⟩
  write buffer slot v := by
    refine admits_silent (fun _ => trivial) ?_ ?_
    · intro t v u hr
      cases hr
      rfl
    · intro t why u hr
      cases hr
  calls := by
    constructor
    · rintro x s y t v u reach hr
      cases hr
      exact ⟨reach, rfl⟩
    · rintro x s y t why u reach hr
      cases hr
  trace name hp := hJ.obeys name hp

/-- Events that tell nothing but that the log grows. -/
def growth : Journal (Event τ ε) τ ε where
  Tells _ _ := True
  nothing _ := trivial
  needs _ := trivial
  seq _ _ := trivial
  recover _ _ := trivial
  refuse _ _ := trivial
  halt _ _ := trivial

omit [Payload τ ε] in
theorem growth_traces : (growth : Journal (Event τ ε) τ ε).Traces :=
  ⟨fun _ _ => trivial, fun _ _ => trivial, fun _ _ _ => trivial⟩

/-- The law that a log only grows. -/
abbrev growing : Law (RunState τ ε) τ ε := growth.law RunState.log

theorem growing_universal : (growing : Law (RunState τ ε) τ ε).Universal where
  toGrammatical := growth_traces.grammatical fun _ _ => trivial
  commit h := h
  fail _ _ _ := holds_self trivial
  stop _ _ _ := holds_self trivial

/-- What is new in the log after a traced application includes the event at its end. -/
theorem closing_mem {windows : α → List (Window τ)} {p : Parser (RunState τ ε) τ ε α}
    (hp : growing.Obeys windows p) {name : String} {x : Window τ}
    {s t : RunState τ ε} {o : Outcome τ ε α} {l : List (Event τ ε)}
    (hr : p.traced RunState.note name x s = .ok o t) (ht : t.log = s.log ++ l) :
    Event.closing name x o ∈ l := by
  rw [Parser.traced_eq RunState.note_eq] at hr
  have hpost := hp x { s with events := s.events.push (.start name x) }
  cases hr' : p x { s with events := s.events.push (.start name x) } with
  | error why u =>
    rw [hr'] at hr
    cases hr
  | ok o' u =>
    rw [hr'] at hr hpost
    obtain ⟨l', hu, _⟩ := hpost.holds
    cases hr
    rw [RunState.log_noted, hu, RunState.log_noted, List.append_assoc, List.append_assoc] at ht
    rw [← List.append_cancel_left ht]
    exact List.mem_append_right _ (List.mem_append_right _ (.head _))

end Journal
end Reprise
