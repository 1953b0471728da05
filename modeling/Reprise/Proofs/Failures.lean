import Reprise.Proofs.Calls
import Reprise.Proofs.Watched

/-!
# Failures

A failure ends the whole run it occurs in. It arises where a cut meets an error, where a range allows no
count, or in a parser that a caller made to fail, and from there on it is handed to the outside as it is.
-/

namespace Reprise

variable {τ ε α : Type}

/-- The payload of a failure in which an application ended. -/
def Event.failed? : Event τ ε → Option ε
  | failure _ _ (.failure e) => some e
  | _ => none

/-- No application ended in a failure. -/
def Silent (log : List (Event τ ε)) : Prop := ∀ event ∈ log, event.failed? = none

theorem silent_singleton {event : Event τ ε} (h : event.failed? = none) : Silent [event] := by
  intro event' hevent
  obtain rfl := List.mem_singleton.mp hevent
  exact h

theorem silent_nil : Silent ([] : List (Event τ ε)) := nofun

/-- How a failure arose among the watched nodes: at a cut, from the error of the child, or in a node
that raises it on its own. -/
inductive Origin [Payload τ ε] (label : Grammar τ → String) (N : Grammar τ → Prop)
    (log : List (Event τ ε)) (e : ε) : Prop where
  | cut {p x} : N (.cut p) → .failure (label p) x (.error e) ∈ log →
    .failure (label (.cut p)) x (.failure e) ∈ log → Origin label N log e
  | own {node kind x} : N node → node.ownFailure? = some kind → e = Payload.ofKind x kind →
    .failure (label node) x (.failure e) ∈ log → Origin label N log e

/-- Failures of applications are the answer, and a failure has an origin. -/
structure Reported [Payload τ ε] (label : Grammar τ → String) (N : Grammar τ → Prop)
    (log : List (Event τ ε)) (a : Answer τ ε) : Prop where
  final : ∀ event ∈ log, ∀ e ∈ event.failed?, a = .signal (.failure e)
  origin : ∀ e, a = .signal (.failure e) → Origin label N log e

variable [Payload τ ε] {label : Grammar τ → String} {N : Grammar τ → Prop}
  {log log' : List (Event τ ε)} {a : Answer τ ε}

theorem Origin.mono {e : ε} (h : Origin label N log e) (hlog : log ⊆ log') : Origin label N log' e := by
  cases h with
  | cut hnode herror hfailure => exact .cut hnode (hlog herror) (hlog hfailure)
  | own hnode hown he hfailure => exact .own hnode hown he (hlog hfailure)

theorem Reported.silent (h : Reported label N log a) (ha : ∀ e, a ≠ .signal (.failure e)) :
    Silent log := by
  intro event hevent
  cases hfailed : event.failed? with
  | none => rfl
  | some e => exact absurd (h.final event hevent e hfailed) (ha e)

theorem Silent.reported (h : Silent log) (ha : ∀ e, a ≠ .signal (.failure e)) :
    Reported label N log a where
  final event hevent e he := by
    rw [h event hevent] at he
    cases he
  origin e he := absurd he (ha e)

theorem Silent.halted (h : Silent log) (why : Stop) : Reported label N log (.stop why) :=
  h.reported nofun

theorem Reported.after (h : Silent log) (h' : Reported label N log' a) :
    Reported label N (log ++ log') a where
  final event hevent e he := by
    rcases List.mem_append.mp hevent with hevent | hevent
    · rw [h event hevent] at he
      cases he
    · exact h'.final event hevent e he
  origin e he := (h'.origin e he).mono (List.subset_append_right log log')

/-- An application that signals reports the signal at its end. -/
theorem Reported.signal {g : Signal ε} (h : Reported label N log (.signal g)) (name : String)
    (x : Window τ) : Reported label N (log ++ [.failure name x g]) (.signal g) where
  final event hevent e he := by
    rcases List.mem_append.mp hevent with hevent | hevent
    · exact h.final event hevent e he
    · obtain rfl := List.mem_singleton.mp hevent
      cases g with
      | failure e' =>
        obtain rfl := Option.some.inj he
        rfl
      | _ => cases he
  origin e he := (h.origin e he).mono (List.subset_append_left log _)

/-- What the events of a watched run report. -/
def reports (label : Grammar τ → String) (N : Grammar τ → Prop) : Journal (Event τ ε) τ ε where
  Tells := Reported label N
  nothing _ := silent_nil.reported nofun
  needs _ := silent_nil.reported nofun
  seq h h' := h'.after (h.silent nofun)
  recover _ h := (h.silent nofun).reported nofun
  refuse _ h := (h.silent nofun).reported nofun
  halt why h := (h.silent nofun).halted why

/-- The law that events report how a watched run failed. -/
abbrev reporting (label : Grammar τ → String) (N : Grammar τ → Prop) : Law (RunState τ ε) τ ε :=
  (reports label N).law RunState.log

theorem reports_traces : (reports label N : Journal (Event τ ε) τ ε).Traces where
  start _ _ := (silent_singleton rfl).reported nofun
  success _ _ := (silent_singleton rfl).reported nofun
  signal name x h := h.signal name x

theorem Grammar.ownFailure?_mapChildren (f : Grammar τ → Grammar τ) (g : Grammar τ) :
    (g.mapChildren f).ownFailure? = g.ownFailure? := by cases g <;> rfl

theorem Grammar.cut_of_mapChildren {f : Grammar τ → Grammar τ} {g p : Grammar τ}
    (h : g.mapChildren f = .cut p) : ∃ q, g = .cut q := by
  cases g with
  | cut q => exact ⟨q, rfl⟩
  | _ => cases h

variable [Element τ] {rule : String → Rule τ ε}

/-- A node that fails on its own writes no event. -/
theorem Grammar.own_failure (rule : String → Rule τ ε) {g : Grammar τ} {kind : ErrorKind}
    (h : g.ownFailure? = some kind) (x : Window τ) (s : RunState τ ε) :
    ∃ t, g.parser rule x s = .ok (.failureAt x kind) t ∧ t.log = s.log := by
  cases g with
  | commit kind' =>
    obtain rfl := Option.some.inj h
    exact ⟨s, rfl, rfl⟩
  | collect times shape p =>
    obtain ⟨hinverted, hkind⟩ := Option.ite_none_right_eq_some.mp h
    obtain rfl := Option.some.inj hkind
    refine ⟨s, ?_, rfl⟩
    refine shape.use_of_shows (P := fun q : Rule τ ε => q x s = _) fun κ into finish _ _ _ => ?_
    rw [Collecting.parser_eq_collect]
    unfold Parser.map Parser.collect
    rw [Repetition.run_inverted hinverted]
    rfl
  | fold times start step p =>
    obtain ⟨hinverted, hkind⟩ := Option.ite_none_right_eq_some.mp h
    obtain rfl := Option.some.inj hkind
    obtain ⟨v, t, hr, ht⟩ : ∃ v t, start.run s = .ok v t ∧ t.log = s.log := by
      cases start <;> exact ⟨_, _, rfl, rfl⟩
    refine ⟨t, ?_, ht⟩
    unfold Grammar.parser
    rw [Folding.parser_eq_foldOver]
    unfold Parser.foldOver
    rw [Run.bind_of_ok hr, Repetition.run_inverted hinverted]
    rfl
  | _ => cases h

namespace Law

/-- A node that fails on its own is the origin of the failure. -/
theorem obeys_own {g : Grammar τ} {kind : ErrorKind} (hnode : N g) (f : Grammar τ → Grammar τ)
    (h : g.ownFailure? = some kind) : (reporting label N).Obeys Value.windows
      ((Grammar.trace (label g) (g.mapChildren f)).parser rule) := by
  intro x s
  unfold Grammar.parser
  rw [Parser.traced_eq RunState.note_eq]
  have hf := Grammar.ownFailure?_mapChildren f g
  obtain ⟨t, hr, ht⟩ := Grammar.own_failure rule (hf.trans h) x
    { s with events := s.events.push (.start (label g) x) }
  rw [hr]
  refine ⟨[.start (label g) x, .failure (label g) x (.failure (Payload.ofKind x kind))], ?_, ?_⟩
  · rw [RunState.log_noted, ht, RunState.log_noted, List.append_assoc]
    rfl
  · constructor
    · intro event hevent e he
      rcases List.mem_pair.mp hevent with rfl | rfl
      · cases he
      · obtain rfl := Option.some.inj he
        rfl
    · intro e he
      cases he
      exact .own hnode h rfl (.tail _ (.head _))

omit [Element τ] in
/-- A cut is the origin of the failure where the child ended in an error. -/
theorem reported_cut {p : Grammar τ} (hnode : N (.cut p)) {x : Window τ} {e : ε}
    (h : Reported label N log (.signal (.error e))) (hmem : .failure (label p) x (.error e) ∈ log) :
    Reported label N (log ++ [.failure (label (.cut p)) x (.failure e)]) (.signal (.failure e)) where
  final event hevent e' he := by
    rcases List.mem_append.mp hevent with hevent | hevent
    · rw [h.silent nofun event hevent] at he
      cases he
    · obtain rfl := List.mem_singleton.mp hevent
      obtain rfl := Option.some.inj he
      rfl
  origin e' he := by
    cases he
    exact .cut hnode (List.mem_append_left _ hmem) (List.mem_append_right _ (.head _))

theorem obeys_watched_cut {p : Grammar τ} (hnode : N (.cut p))
    (hgrows : ∀ name, Journal.growing.Obeys Value.windows (rule name))
    (hp : (reporting label N).Obeys Value.windows ((p.watched label).parser rule)) :
    (reporting label N).Obeys Value.windows (((Grammar.cut p).watched label).parser rule) := by
  intro x s
  rw [Grammar.watched_eq]
  change (reporting label N).Post _ x s (((p.watched label).parser rule).cut.traced RunState.note
    (label (.cut p)) x s)
  rw [Parser.traced_eq RunState.note_eq]
  have h := hp x { s with events := s.events.push (.start (label (.cut p)) x) }
  unfold Parser.cut
  cases hr : (p.watched label).parser rule x
      { s with events := s.events.push (.start (label (.cut p)) x) } with
  | error why t =>
    rw [hr] at h
    rw [Run.bind_of_error hr]
    exact reports_traces.stop _ h
  | ok o t =>
    rw [hr] at h
    rw [Run.bind_of_ok hr]
    rcases o with ⟨v, rest⟩ | (e | e | n)
    · exact ⟨reports_traces.closing _ (.success v rest) h.1, h.2⟩
    · -- the child is watched too, so the log has its error
      obtain ⟨log, ht, hlog⟩ := h
      have hinner := obeys_grammar Journal.growing_universal hgrows
        (p.mapChildren (Grammar.watched label))
      rw [Grammar.watched_eq] at hr
      have hmem := Journal.closing_mem hinner hr ht
      refine ⟨[.start (label (.cut p)) x] ++
        (log ++ [.failure (label (.cut p)) x (.failure e)]), ?_, ?_⟩
      · rw [RunState.log_noted, List.append_assoc] at ht
        rw [RunState.log_noted, ht, List.append_assoc, List.append_assoc]
        rfl
      · exact (reported_cut hnode hlog hmem).after (silent_singleton rfl)
    · exact reports_traces.closing _ (.signal (.failure e)) h
    · exact reports_traces.closing _ (.signal (.incomplete n)) h

theorem obeys_watched (g : Grammar τ) (hN : ∀ n, n.Occurs g → N n)
    (hgrows : ∀ name, Journal.growing.Obeys Value.windows (rule name))
    (hrule : ∀ name, (reporting label N).Obeys Value.windows (rule name)) :
    (reporting label N).Obeys Value.windows ((g.watched label).parser rule) := by
  induction g using Grammar.tree_induction with
  | h g ih =>
    have hchildren : ∀ p ∈ g.children, (reporting label N).Obeys Value.windows
        ((p.watched label).parser rule) := fun p hp =>
      ih p hp fun n hn => hN n (.under hp hn)
    have hnode := hN g (.here g)
    -- a failure may arise in the node itself or at a cut; elsewhere it comes from a child
    cases hown : g.ownFailure? with
    | some kind =>
      rw [Grammar.watched_eq]
      exact obeys_own hnode _ hown
    | none =>
      by_cases hcut : ∃ p, g = .cut p
      · obtain ⟨p, rfl⟩ := hcut
        exact obeys_watched_cut hnode hgrows (hchildren p (.head _))
      · rw [Grammar.watched_eq]
        refine reports_traces.obeys (label g)
          (obeys_node (reports_traces.grammatical ?_) hrule _ ?_ ?_ ?_)
        · intro log n e h
          exact (h.silent nofun).reported nofun
        · intro p hp
          exact absurd (Grammar.cut_of_mapChildren hp) hcut
        · intro kind hkind
          rw [Grammar.ownFailure?_mapChildren, hown] at hkind
          cases hkind
        · intro p hp
          rw [Grammar.children_mapChildren] at hp
          obtain ⟨q, hq, rfl⟩ := List.mem_map.mp hp
          exact hchildren q hq

theorem obeys_watched_rule {bindings : Bindings τ}
    (hN : ∀ name g, bindings.lookup name = some g → ∀ n, n.Occurs g → N n) (depth : Nat)
    (name : String) : (reporting label N).Obeys Value.windows
      ((bindings.watched label).rule depth name : Rule τ ε) := by
  induction depth generalizing name with
  | zero => exact fun x s => Journal.holds_self (silent_nil.halted _)
  | succ depth ih =>
    unfold Bindings.rule
    rw [Bindings.lookup_watched]
    cases hlookup : bindings.lookup name with
    | none => exact fun x s => Journal.holds_self (silent_nil.halted _)
    | some g =>
      exact obeys_watched g (hN name g hlookup) (obeys_rule Journal.growing_universal _ depth) ih

end Law

/-- The nodes of a grammar and of the rules of a session. -/
def Session.Nodes (s : Session τ) (g n : Grammar τ) : Prop :=
  n.Occurs g ∨ ∃ name r, s.bindings.lookup name = some r ∧ n.Occurs r

/-- The events of a watched run report how it failed. -/
theorem Session.watched_reports (s : Session τ) (g : Grammar τ) (label : Grammar τ → String)
    (source : List τ) :
    let r := ((s.watched label).run (g.watched label) source : Report τ ε × Session τ).1
    (∀ event ∈ r.events.toList, ∀ e ∈ event.failed?, r.outcome = .ok (.signal (.failure e))) ∧
      ∀ e, r.outcome = .ok (.signal (.failure e)) → Origin label (s.Nodes g) r.events.toList e := by
  have hrule : ∀ name, (reporting label (s.Nodes g)).Obeys Value.windows
      ((s.bindings.watched label).rule recursionLimit name : Rule τ ε) :=
    Law.obeys_watched_rule (fun name r hr n hn => .inr ⟨name, r, hr, hn⟩) recursionLimit
  have hgrows := Law.obeys_rule (ε := ε) Journal.growing_universal (s.bindings.watched label)
    recursionLimit
  have h := Law.obeys_watched g (fun n hn => .inl hn) hgrows hrule (.ofList source)
    (s.watched label).initial
  rw [Session.run_eq]
  change (reporting label (s.Nodes g)).Post _ _ _ ((s.watched label).bindings.parser
    (g.watched label) (.ofList source) (s.watched label).initial) at h
  cases hr : ((s.watched label).bindings.parser (g.watched label) (.ofList source)
      (s.watched label).initial : EStateM.Result _ _ (Outcome τ ε _)) with
  | error why t =>
    rw [hr] at h
    have hlog : Reported label (s.Nodes g) t.log (.stop why) := Journal.tells_of_holds rfl h
    refine ⟨fun event hevent e he => ?_, nofun⟩
    cases hlog.final event hevent e he
  | ok o t =>
    rw [hr] at h
    have hlog : Reported label (s.Nodes g) t.log o.answer := Journal.tells_of_holds rfl h.holds
    constructor
    · intro event hevent e he
      have hanswer := hlog.final event hevent e he
      exact congrArg Except.ok (Outcome.answer_eq_signal.mp hanswer)
    · intro e he
      exact hlog.origin e (Outcome.answer_eq_signal.mpr (Except.ok.inj he))

/-- Failures and the wish for more input are never recovered from. Of the children of a combinator, the
first that answers so is called last and gives the outcome. Hence a failure at any node is the outcome
of the whole run, and a run fails only where a cut met an error or a node failed on its own: for its
range allows no count, or for a caller made it to fail. -/
theorem failures_end_runs :
    (∀ (σ α : Type) (c : Combinator σ τ ε α) (x : Window τ) (s : σ), c.EndsAtFirst x s) ∧
    ∀ (s : Session τ) (g : Grammar τ) (label : Grammar τ → String) (source : List τ),
      let plain : Report τ ε × Session τ := s.run g source
      let watched : Report τ ε × Session τ := (s.watched label).run (g.watched label) source
      watched.1.outcome = plain.1.outcome ∧ watched.2 = plain.2.watched label ∧
      (∀ event ∈ watched.1.events.toList, ∀ e ∈ event.failed?,
        plain.1.outcome = .ok (.signal (.failure e))) ∧
      ∀ e, plain.1.outcome = .ok (.signal (.failure e)) →
        Origin label (s.Nodes g) watched.1.events.toList e := by
  refine ⟨fun σ α c x s => c.endsAtFirst x s, ?_⟩
  intro s g label source plain watched
  obtain ⟨houtcome, hsession⟩ := s.run_watched (ε := ε) g label source
  obtain ⟨hfinal, horigin⟩ := s.watched_reports (ε := ε) g label source
  refine ⟨houtcome, hsession, fun event hevent e he => ?_, fun e he => ?_⟩
  · exact houtcome.symm.trans (hfinal event hevent e he)
  · exact horigin e (houtcome.trans he)

end Reprise
