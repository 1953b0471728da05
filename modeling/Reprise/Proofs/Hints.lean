import Reprise.Proofs.Streaming

/-!
# Hints that count down

A grammar that takes numbers of fixed width and announced data always knows how much it is missing. Fed
with less than that, it misses exactly the rest.
-/

namespace Reprise

variable {τ ε : Type}

namespace Grammar

/-- Grammars whose leaves have a property. Bodies of length-prefixed values may be anything. -/
inductive BuiltFrom (leaf : Grammar τ → Prop) : Grammar τ → Prop where
  | leaf {g : Grammar τ} : g.children = [] → leaf g → BuiltFrom leaf g
  | node {g : Grammar τ} : g.children ≠ [] → (∀ p ∈ g.direct, BuiltFrom leaf p) → BuiltFrom leaf g

/-- Leaves that ask for a number of bytes, or for nothing. `names` are the rules put together from them. -/
def CountsBytes (names : String → Prop) : Grammar τ → Prop
  | uint mode _ _ => mode = .streaming
  | epsilon | done | raise _ | commit _ => True
  | ref name => names name
  | _ => False

end Grammar

/-- A grammar that, together with all rules it may come to, is put together from streaming numbers and
leaves that ask for nothing. -/
def Bindings.Binary (bindings : Bindings τ) (g : Grammar τ) : Prop :=
  ∃ names : String → Prop, g.BuiltFrom (Grammar.CountsBytes names) ∧
    ∀ name r, names name → bindings.lookup name = some r → r.BuiltFrom (Grammar.CountsBytes names)

/-- What is missing after some elements, where those are too few. An unknown amount is read as one. -/
def Needed.after (fed : Nat) (n : Needed) : Option Needed :=
  if fed < max 1 n.size then some ⟨max 1 n.size - fed⟩ else none

theorem Needed.after_size {fed : Nat} {n n' : Needed} (h : n.after fed = some n') (hpos : 0 < n.size) :
    n.size = n'.size + fed ∧ 0 < n'.size := by
  unfold after at h
  split at h
  · cases h
    simp only
    omega
  · cases h

namespace Link

variable [Payload τ ε] [Element τ] (y : List τ) {names : String → Prop} (bindings : Bindings τ)

/-- The link between an input and a longer one, where the hint must shrink by what the longer one has
more. An unknown hint would have to become a known one even where nothing is added. -/
abbrev counting : Link (RunState τ ε) (RunState τ ε) τ τ ε ε :=
  (ofGrammars (extending_samePlaces y)).demanding (Needed.after y.length) Needed.after_size

variable {y}

theorem related_counting_leaf {rule : String → Rule τ ε} {g : Grammar τ} (h : g.CountsBytes names)
    (hrule : ∀ name, names name → (counting y).Related Eq (rule name) (rule name)) :
    (counting y).Related Eq (g.parser rule) (g.parser rule) := by
  cases g with
  | uint mode width order =>
    obtain rfl : mode = .streaming := h
    refine related_map (V := Eq) ?_ fun _ _ hv => congrArg Value.num hv
    rintro x _ s s' rfl hs
    rw [Parser.uint_eq, Parser.uint_eq]
    by_cases hl : x.length < width.bytes
    · rw [if_pos hl]
      refine agree_needs rfl hs hl fun hl' => ?_
      rw [if_pos hl']
      rfl
    · have hle := Nat.le_of_not_lt hl
      have hl' : ¬ (x.extend y).length < width.bytes := by
        rw [Window.length_extend]
        omega
      rw [if_neg hl, if_neg hl', Window.take_extend y hle]
      exact .success rfl (Window.drop_extend y hle) hs
  | epsilon | done => exact fun _ _ _ _ hx hs => .success rfl hx hs
  | raise kind => exact fun _ _ _ _ hx hs => .error ((counting y).ofKind kind hx) hs
  | commit kind => exact fun _ _ _ _ hx hs => .failure ((counting y).ofKind kind hx) hs
  | ref name => exact hrule name h
  | _ => exact h.elim

theorem related_counting (depth : Nat) {g : Grammar τ} (hg : g.BuiltFrom (Grammar.CountsBytes names))
    (hrule : ∀ name, names name →
      (counting (ε := ε) y).Related Eq (bindings.rule depth name) (bindings.rule depth name)) :
    (counting (ε := ε) y).Related Eq (g.parser (bindings.rule depth))
      (g.parser (bindings.rule depth)) := by
  induction hg with
  | leaf _ hleaf => exact related_counting_leaf hleaf hrule
  | @node g hchildren _ ih =>
    have hL : (counting (ε := ε) y).Grammatical (.identity τ) :=
      grammatical_ofGrammars.demanding (Needed.after y.length) Needed.after_size
    have hnode : (counting (ε := ε) y).Related Eq (g.parser (bindings.rule depth))
        ((g.mapChildren id).parser (bindings.rule depth)) := by
      rw [← Translation.same_identity] at *
      refine hL.related_graft id id g (fun hleaf => absurd hleaf hchildren) ?_ ?_ ih
      · intro len p _
        rw [Translation.same_identity]
        have hp := related_grammar_same p fun name _ =>
          related_rule_same (extending_samePlaces (ε := ε) []) bindings depth name
        exact bodies_demanding (extending_samePlaces y) (extending_samePlaces []) (Needed.after y.length)
          Needed.after_size hp
      · exact fun p _ => .inr (bindings.shrinks depth p)
    rwa [Grammar.mapChildren_id] at hnode

theorem related_counting_rule
    (hnames : ∀ name r, names name → bindings.lookup name = some r →
      r.BuiltFrom (Grammar.CountsBytes names))
    (depth : Nat) (name : String) (hname : names name) :
    (counting (ε := ε) y).Related Eq (bindings.rule depth name) (bindings.rule depth name) :=
  related_named_rules (fun _ _ => rfl)
    (fun depth name r hname hsome => related_counting bindings depth (hnames name r hname hsome))
    depth name hname

end Link

variable [Payload τ ε] [Element τ]

/-- A hint that is unknown counts as one here, so that an input can be compared with itself. -/
theorem Session.counts_down {s : Session τ} {g : Grammar τ} (h : s.bindings.Binary g) {x y : List τ}
    {n : Needed}
    (hn : (s.run g x : Report τ ε × Session τ).1.outcome = .ok (.signal (.incomplete n)))
    (hy : y.length < max 1 n.size) :
    (s.run g (x ++ y) : Report τ ε × Session τ).1.outcome =
      .ok (.signal (.incomplete ⟨max 1 n.size - y.length⟩)) := by
  obtain ⟨names, hg, hnames⟩ := h
  have hrelated := Link.related_counting (ε := ε) (y := y) s.bindings recursionLimit hg
    fun name => Link.related_counting_rule s.bindings hnames recursionLimit name
  have hinput : Window.ofList (x ++ y) = (Window.ofList x).extend y := by apply Window.ext <;> rfl
  have hagree : (Link.counting (ε := ε) y).Agree Eq
      (s.bindings.parser g (.ofList x) s.initial) (s.bindings.parser g (.ofList (x ++ y)) s.initial) :=
    hrelated _ _ _ _ hinput s.initial_sameStore
  rw [Session.run_eq] at hn ⊢
  generalize (s.bindings.parser g (.ofList x) s.initial : EStateM.Result _ _ (Outcome τ ε _)) = r
    at hagree hn
  generalize (s.bindings.parser g (.ofList (x ++ y)) s.initial : EStateM.Result _ _ (Outcome τ ε _)) = r'
    at hagree ⊢
  cases hagree with
  | incomplete hnext =>
    cases hn
    obtain ⟨t', rfl, -⟩ := hnext _ (if_pos hy)
    rfl
  | success => cases hn
  | error => cases hn
  | failure => cases hn
  | stop => cases hn

/-- Whatever a binary grammar misses, it says how much, and says how much is left of it once there is
more. -/
theorem Session.hints_count_down (s : Session τ) (g : Grammar τ) (h : s.bindings.Binary g) (x : List τ)
    (n : Needed)
    (hn : (s.run g x : Report τ ε × Session τ).1.outcome = .ok (.signal (.incomplete n))) :
    0 < n.size ∧ ∀ y : List τ, y.length < n.size →
      (s.run g (x ++ y) : Report τ ε × Session τ).1.outcome =
        .ok (.signal (.incomplete ⟨n.size - y.length⟩)) := by
  have hpos : 0 < n.size := by
    have hsame := Session.counts_down h (y := []) hn (Nat.le_max_left 1 n.size)
    rw [List.append_nil, hn] at hsame
    simp only [Except.ok.injEq, Outcome.signal.injEq, Signal.incomplete.injEq] at hsame
    rw [hsame]
    exact Nat.le_max_left 1 n.size
  have hmax : max 1 n.size = n.size := Nat.max_eq_right hpos
  refine ⟨hpos, fun y hy => ?_⟩
  have hnext := Session.counts_down h (y := y) hn (hmax.symm ▸ hy)
  rwa [hmax] at hnext

/-- Letters of announced length, then a record whose last four bytes are missing. -/
theorem Session.hints_count_down_record :
    let g : Grammar UInt8 := .andThen (.lengthValue (.uint .streaming .w8 .big) .letters) (.ref "record")
    let s : Session UInt8 := ⟨[("record", .lengthData (.uint .streaming .w16 .big))], .none, 0⟩
    (s.run g [1, 65, 0, 5, 7] : Report UInt8 (Trail UInt8) × Session UInt8).1.outcome =
        .ok (.signal (.incomplete ⟨4⟩)) ∧
      (s.run g [1, 65, 0, 5, 7, 8, 9] : Report UInt8 (Trail UInt8) × Session UInt8).1.outcome =
        .ok (.signal (.incomplete ⟨2⟩)) := by
  intro g s
  have huint (width : Width) :
      (Grammar.uint .streaming width .big : Grammar UInt8).BuiltFrom (Grammar.CountsBytes (· = "record")) :=
    .leaf rfl rfl
  have hg : s.bindings.Binary g := by
    refine ⟨(· = "record"), .node (List.cons_ne_nil _ _) ?_, ?_⟩
    · rintro p hp
      rcases List.mem_pair.mp hp with rfl | rfl
      · refine .node (List.cons_ne_nil _ _) fun q hq => ?_
        obtain rfl := List.mem_singleton.mp hq
        exact huint .w8
      · exact .leaf rfl rfl
    · rintro name r rfl hr
      obtain rfl := Option.some.inj hr
      refine .node (List.cons_ne_nil _ _) fun q hq => ?_
      obtain rfl := List.mem_singleton.mp hq
      exact huint .w16
  have hn : (s.run g [1, 65, 0, 5, 7] : Report UInt8 (Trail UInt8) × Session UInt8).1.outcome =
      .ok (.signal (.incomplete ⟨4⟩)) := rfl
  exact ⟨hn, (Session.hints_count_down s g hg _ _ hn).2 [8, 9] (by decide)⟩

end Reprise
