import Reprise.Grammar.Session
import Reprise.Proofs.GrammarLink
import Reprise.Proofs.Positions

/-!
# Streaming grammars

A streaming grammar that does not ask for more input has decided: whatever follows, its outcome stays,
what remains is followed by the new elements, and errors name the same places.
-/

namespace Reprise

variable {τ ε : Type}

/-- Payloads made of the same kinds at the same offsets. -/
def SamePlaces (τ : Type) [Payload τ ε] (e e' : ε) : Prop :=
  ∃ t t' : Trail τ, t.places = t'.places ∧ e = t.payload ∧ e' = t'.payload

theorem samePlaces_trail {t t' : Trail τ} : SamePlaces τ t t' ↔ t.places = t'.places := by
  constructor
  · rintro ⟨u, u', h, rfl, rfl⟩
    rw [Trail.payload_trail, Trail.payload_trail]
    exact h
  · intro h
    exact ⟨t, t', h, t.payload_trail.symm, t'.payload_trail.symm⟩

theorem samePlaces_located {e e' : Located τ} (h : SamePlaces τ e e') :
    e.input.offset = e'.input.offset ∧ e.kind = e'.kind := by
  obtain ⟨t, t', h, rfl, rfl⟩ := h
  rw [Trail.payload_located, Trail.payload_located]
  exact Prod.mk.inj (List.cons.inj h).1

theorem extending_samePlaces [Payload τ ε] (y : List τ) :
    Extending y (SamePlaces τ : ε → ε → Prop) where
  ofKind x kind := ⟨Payload.ofKind x kind, Payload.ofKind (x.extend y) kind, rfl, rfl, rfl⟩
  append := by
    rintro x kind _ _ ⟨t, t', h, rfl, rfl⟩
    refine ⟨Payload.append x kind t, Payload.append (x.extend y) kind t', ?_,
      (Trail.payload_append x kind t).symm, (Trail.payload_append (x.extend y) kind t').symm⟩
    unfold Trail.places at h ⊢
    rw [Trail.entries_append, Trail.entries_append, List.map_append, List.map_append, h]
    rfl

/-- A grammar that is streaming together with all rules it may come to. -/
def Bindings.Streaming (bindings : Bindings τ) (g : Grammar τ) : Prop :=
  ∃ names : String → Prop, g.Streaming names ∧
    ∀ name r, names name → bindings.lookup name = some r → r.Streaming names

namespace Link

variable [Payload τ ε] [Element τ] {names : String → Prop} (y : List τ) (bindings : Bindings τ)

theorem related_streaming (depth : Nat) (g : Grammar τ) (hg : g.Streaming names)
    (hrule : ∀ name, names name → (ofGrammars (extending_samePlaces (ε := ε) y)).Related Eq
      (bindings.rule depth name) (bindings.rule depth name)) :
    (ofGrammars (extending_samePlaces (ε := ε) y)).Related Eq (g.parser (bindings.rule depth))
      (g.parser (bindings.rule depth)) := by
  induction g using Grammar.tree_induction with
  | h g ih =>
    have hnode : (ofGrammars (extending_samePlaces (ε := ε) y)).Related Eq
        (g.parser (bindings.rule depth)) ((g.mapChildren id).parser (bindings.rule depth)) := by
      refine related_node id g ?_ ?_ ?_ ?_
      · intro hleaf
        refine related_leaf names g hleaf (.inr hg) ?_
        rintro name rfl
        exact hrule name hg
      · intro len p _
        -- the body gets the same part of both inputs, so that it need not be streaming
        have hp := related_grammar_same p fun name _ =>
          related_rule_same (extending_samePlaces (ε := ε) []) bindings depth name
        exact bodies_of_same (extending_samePlaces []) hp
      · exact fun p _ => .inr (bindings.shrinks depth p)
      · exact fun p hp => ih p (Grammar.mem_children_of_direct hp) (hg.direct hp)
    rwa [Grammar.mapChildren_id] at hnode

theorem related_streaming_rule
    (hnames : ∀ name r, names name → bindings.lookup name = some r → r.Streaming names)
    (depth : Nat) (name : String) (hname : names name) :
    (ofGrammars (extending_samePlaces (ε := ε) y)).Related Eq (bindings.rule depth name)
      (bindings.rule depth name) :=
  related_named_rules (fun _ _ => rfl)
    (fun depth name r hname hsome => related_streaming y bindings depth r (hnames name r hname hsome))
    depth name hname

end Link

/-- An outcome over an input, and the outcome it makes certain over the input followed by `y`. -/
inductive Decided [Payload τ ε] (y : List τ) : Except Stop (Outcome τ ε (Value τ)) →
    Except Stop (Outcome τ ε (Value τ)) → Prop where
  | success (v rest) : Decided y (.ok (.success v rest)) (.ok (.success v (rest.extend y)))
  | error {e e'} : SamePlaces τ e e' → Decided y (.ok (.signal (.error e))) (.ok (.signal (.error e')))
  | failure {e e'} : SamePlaces τ e e' →
    Decided y (.ok (.signal (.failure e))) (.ok (.signal (.failure e')))
  | stop (why) : Decided y (.error why) (.error why)

variable [Payload τ ε] [Element τ]

/-- Decisions of a streaming grammar are final: it asks for more input, or decides the outcome over
every longer input and leaves the same buffers behind. -/
theorem Session.streaming_final (s : Session τ) (g : Grammar τ) (h : s.bindings.Streaming g)
    (x y : List τ) :
    (∃ n, (s.run g x : Report τ ε × Session τ).1.outcome = .ok (.signal (.incomplete n))) ∨
      Decided y (s.run g x : Report τ ε × Session τ).1.outcome
        (s.run g (x ++ y) : Report τ ε × Session τ).1.outcome ∧
      (s.run g x : Report τ ε × Session τ).2 = (s.run g (x ++ y) : Report τ ε × Session τ).2 := by
  obtain ⟨names, hg, hnames⟩ := h
  have hrelated := Link.related_streaming (ε := ε) y s.bindings recursionLimit g hg
    (Link.related_streaming_rule y s.bindings hnames recursionLimit)
  have hinput : Window.ofList (x ++ y) = (Window.ofList x).extend y := by apply Window.ext <;> rfl
  have hagree : (Link.ofGrammars (extending_samePlaces (ε := ε) y)).Agree Eq
      (s.bindings.parser g (.ofList x) s.initial) (s.bindings.parser g (.ofList (x ++ y)) s.initial) :=
    hrelated _ _ _ _ hinput s.initial_sameStore
  rw [Session.run_eq, Session.run_eq]
  generalize (s.bindings.parser g (.ofList x) s.initial : EStateM.Result _ _ (Outcome τ ε _)) = r
    at hagree ⊢
  generalize (s.bindings.parser g (.ofList (x ++ y)) s.initial : EStateM.Result _ _ (Outcome τ ε _)) = r'
    at hagree ⊢
  cases hagree with
  | success hv hrest ht =>
    obtain rfl := hv
    obtain rfl := hrest
    exact .inr ⟨.success _ _, s.store_eq ht⟩
  | error he ht => exact .inr ⟨.error he, s.store_eq ht⟩
  | failure he ht => exact .inr ⟨.failure he, s.store_eq ht⟩
  | incomplete hn => exact .inl ⟨_, rfl⟩
  | stop ht => exact .inr ⟨.stop _, s.store_eq ht⟩

/-- Letters in a part of announced length, then an end mark that the second byte already misses. -/
theorem Session.streaming_final_record :
    let g : Grammar UInt8 := .andThen (.lengthValue (.uint .streaming .w8 .big) .letters) (.ref "end")
    let s : Session UInt8 := ⟨[("end", .tag .streaming (.own [0, 255]))], .none, 0⟩
    s.bindings.Streaming g ∧
      Decided [7] (s.run g [1, 65, 0, 1] : Report UInt8 (Trail UInt8) × Session UInt8).1.outcome
        (s.run g [1, 65, 0, 1, 7] : Report UInt8 (Trail UInt8) × Session UInt8).1.outcome := by
  intro g s
  have hg : s.bindings.Streaming g := by
    refine ⟨fun name => name = "end", ⟨rfl, rfl⟩, ?_⟩
    rintro name r rfl hr
    obtain rfl := Option.some.inj hr
    rfl
  refine ⟨hg, ?_⟩
  rcases Session.streaming_final (ε := Trail UInt8) s g hg [1, 65, 0, 1] [7] with ⟨n, hn⟩ | h
  · cases hn
  · exact h.1

end Reprise
