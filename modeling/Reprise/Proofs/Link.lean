import Reprise.Parser.Many
import Reprise.Parser.ManyTill
import Reprise.Parser.SeparatedList
import Reprise.Parser.Traced
import Reprise.Proofs.Run

/-!
# Links between two runs

A link says which windows, states and payloads of two runs belong together. Applications of linked
parsers to linked windows agree: they end alike and leave linked windows and states. The first run
may be left alone where it asks for more input, so that a link can also compare an input with a
longer one.
-/

namespace Reprise

variable {σ σ' τ τ' ε ε' α α' β β' κ κ' : Type}

/-- Endless counts are gone through with progress only. -/
def Repetition.Ends (r : Repetition) : Prop := r.counts = .endless → r.requireProgress = true

/-- Containers that stay linked while they take linked values. -/
structure Container.Linked (V : α → α' → Prop) (K : κ → κ' → Prop) (into : Container α κ)
    (into' : Container α' κ') : Prop where
  empty : K into.empty into'.empty
  room : ∀ n, K (into.withRoom n) (into'.withRoom n)
  insert : ∀ held held' v v', K held held' → V v v' → K (into.insert held v) (into'.insert held' v')

theorem Container.linked_self (into : Container α κ) : Linked Eq Eq into into where
  empty := rfl
  room _ := rfl
  insert := by
    rintro held _ v _ rfl rfl
    rfl

theorem Container.linked_counter (V : α → α' → Prop) : Linked V Eq counter counter where
  empty := rfl
  room _ := rfl
  insert _ _ _ _ hheld _ := congrArg (· + 1) hheld

structure Link (σ σ' τ τ' ε ε' : Type) [Payload τ ε] [Payload τ' ε'] where
  Input : Window τ → Window τ' → Prop
  State : σ → σ' → Prop
  Error : ε → ε' → Prop
  /-- The hint the second run must give where the first gives this one, if anything is asked of it. -/
  hint : Needed → Option Needed
  /-- How many elements the second input has more than the first. -/
  extra : Nat
  length_eq : ∀ {x x'}, Input x x' → x'.length = x.length + extra
  drop : ∀ {x x' k}, Input x x' → k ≤ x.length → Input (x.drop k) (x'.drop k)
  ofKind : ∀ {x x'} (kind), Input x x' → Error (Payload.ofKind x kind) (Payload.ofKind x' kind)
  append : ∀ {x x' e e'} (kind), Input x x' → Error e e' →
    Error (Payload.append x kind e) (Payload.append x' kind e')
  hint_size : ∀ {n n'}, hint n = some n' → 0 < n.size → n.size = n'.size + extra ∧ 0 < n'.size

namespace Link

variable [Payload τ ε] [Payload τ' ε'] {L : Link σ σ' τ τ' ε ε'}

/-- The same link, where other hints are demanded. -/
def demanding (L : Link σ σ' τ τ' ε ε') (hint : Needed → Option Needed)
    (hint_size : ∀ {n n'}, hint n = some n' → 0 < n.size → n.size = n'.size + L.extra ∧ 0 < n'.size) :
    Link σ σ' τ τ' ε ε' :=
  { L with hint := hint, hint_size := hint_size }

/-- Two results that belong together, where `V` links their values. -/
inductive Agree (L : Link σ σ' τ τ' ε ε') (V : α → α' → Prop) :
    EStateM.Result Stop σ (Outcome τ ε α) → EStateM.Result Stop σ' (Outcome τ' ε' α') → Prop where
  | success {v v' rest rest' t t'} : V v v' → L.Input rest rest' → L.State t t' →
    Agree L V (.ok (.success v rest) t) (.ok (.success v' rest') t')
  | error {e e' t t'} : L.Error e e' → L.State t t' →
    Agree L V (.ok (.signal (.error e)) t) (.ok (.signal (.error e')) t')
  | failure {e e' t t'} : L.Error e e' → L.State t t' →
    Agree L V (.ok (.signal (.failure e)) t) (.ok (.signal (.failure e')) t')
  | incomplete {n t r'} :
    (∀ n', L.hint n = some n' → ∃ t', r' = .ok (.signal (.incomplete n')) t' ∧ L.State t t') →
    Agree L V (.ok (.signal (.incomplete n)) t) r'
  | stop {why t t'} : L.State t t' → Agree L V (.error why t) (.error why t')

/-- Parsers that agree wherever they are applied to linked windows from linked states. -/
def Related (L : Link σ σ' τ τ' ε ε') (V : α → α' → Prop) (p : Parser σ τ ε α)
    (p' : Parser σ' τ' ε' α') : Prop :=
  ∀ x x' s s', L.Input x x' → L.State s s' → L.Agree V (p x s) (p' x' s')

/-- Effects that keep states linked. -/
inductive Steps (L : Link σ σ' τ τ' ε ε') (V : α → α' → Prop) :
    EStateM.Result Stop σ α → EStateM.Result Stop σ' α' → Prop where
  | ok {v v' t t'} : V v v' → L.State t t' → Steps L V (.ok v t) (.ok v' t')
  | stop {why t t'} : L.State t t' → Steps L V (.error why t) (.error why t')

variable {V : α → α' → Prop} {W : β → β' → Prop}

/-- Runs that begin with linked applications, as far as successes and errors lead them. -/
theorem Agree.bind {m : Run σ (Outcome τ ε α)} {m' : Run σ' (Outcome τ' ε' α')}
    {k : Outcome τ ε α → Run σ (Outcome τ ε β)} {k' : Outcome τ' ε' α' → Run σ' (Outcome τ' ε' β')}
    {s : σ} {s' : σ'} (h : L.Agree V (m s) (m' s'))
    (success : ∀ v v' rest rest' t t', m s = .ok (.success v rest) t → V v v' →
      L.Input rest rest' → L.State t t' →
      L.Agree W (k (.success v rest) t) (k' (.success v' rest') t'))
    (error : ∀ e e' t t', L.Error e e' → L.State t t' →
      L.Agree W (k (.signal (.error e)) t) (k' (.signal (.error e')) t'))
    (passes : Passes k := by exact ⟨fun _ _ => rfl, fun _ _ => rfl⟩)
    (passes' : Passes k' := by exact ⟨fun _ _ => rfl, fun _ _ => rfl⟩) :
    L.Agree W ((m >>= k) s) ((m' >>= k') s') := by
  generalize hm : m s = r at h
  generalize hm' : m' s' = r' at h
  cases h with
  | success hv hrest ht =>
    rw [Run.bind_of_ok hm, Run.bind_of_ok hm']
    exact success _ _ _ _ _ _ hm hv hrest ht
  | error he ht =>
    rw [Run.bind_of_ok hm, Run.bind_of_ok hm']
    exact error _ _ _ _ he ht
  | failure he ht =>
    rw [Run.bind_of_ok hm, Run.bind_of_ok hm', passes.failure, passes'.failure]
    exact .failure he ht
  | incomplete hn =>
    rw [Run.bind_of_ok hm, passes.incomplete]
    refine .incomplete fun n' hn' => ?_
    obtain ⟨t', hr', ht⟩ := hn n' hn'
    rw [hr'] at hm'
    rw [Run.bind_of_ok hm', passes'.incomplete]
    exact ⟨t', rfl, ht⟩
  | stop ht =>
    rw [Run.bind_of_error hm, Run.bind_of_error hm']
    exact .stop ht

/-- Runs that begin with linked effects. -/
theorem Steps.bind {m : Run σ α} {m' : Run σ' α'} {k : α → Run σ (Outcome τ ε β)}
    {k' : α' → Run σ' (Outcome τ' ε' β')} {s : σ} {s' : σ'} (h : L.Steps V (m s) (m' s'))
    (next : ∀ v v' t t', V v v' → L.State t t' → L.Agree W (k v t) (k' v' t')) :
    L.Agree W ((m >>= k) s) ((m' >>= k') s') := by
  generalize hm : m s = r at h
  generalize hm' : m' s' = r' at h
  cases h with
  | ok hv ht =>
    rw [Run.bind_of_ok hm, Run.bind_of_ok hm']
    exact next _ _ _ _ hv ht
  | stop ht =>
    rw [Run.bind_of_error hm, Run.bind_of_error hm']
    exact .stop ht

theorem Steps.andThen {m : Run σ α} {m' : Run σ' α'} {k : α → Run σ β} {k' : α' → Run σ' β'}
    {s : σ} {s' : σ'} (h : L.Steps V (m s) (m' s'))
    (next : ∀ v v' t t', V v v' → L.State t t' → L.Steps W (k v t) (k' v' t')) :
    L.Steps W ((m >>= k) s) ((m' >>= k') s') := by
  generalize hm : m s = r at h
  generalize hm' : m' s' = r' at h
  cases h with
  | ok hv ht =>
    rw [Run.bind_of_ok hm, Run.bind_of_ok hm']
    exact next _ _ _ _ hv ht
  | stop ht =>
    rw [Run.bind_of_error hm, Run.bind_of_error hm']
    exact .stop ht

theorem Steps.mono {V' : α → α' → Prop} {r : EStateM.Result Stop σ α}
    {r' : EStateM.Result Stop σ' α'} (h : L.Steps V r r') (hv : ∀ v v', V v v' → V' v v') :
    L.Steps V' r r' := by
  cases h with
  | ok hvv ht => exact .ok (hv _ _ hvv) ht
  | stop ht => exact .stop ht

variable {p : Parser σ τ ε α} {p' : Parser σ' τ' ε' α'} {q : Parser σ τ ε β}
  {q' : Parser σ' τ' ε' β'}

theorem related_map {F : α → β} {F' : α' → β'} (hp : L.Related V p p')
    (hF : ∀ v v', V v v' → W (F v) (F' v')) : L.Related W (p.map F) (p'.map F') := by
  intro x x' s s' hx hs
  unfold Parser.map
  refine (hp x x' s s' hx hs).bind ?_ ?_
  · intro v v' rest rest' t t' _ hv hrest ht
    exact .success (hF v v' hv) hrest ht
  · intro e e' t t' he ht
    exact .error he ht

theorem related_opt {W : Option α → Option α' → Prop} (hp : L.Related V p p')
    (hnone : W none none) (hsome : ∀ v v', V v v' → W (some v) (some v')) :
    L.Related W p.opt p'.opt := by
  intro x x' s s' hx hs
  unfold Parser.opt
  refine (hp x x' s s' hx hs).bind ?_ ?_
  · intro v v' rest rest' t t' _ hv hrest ht
    exact .success (hsome v v' hv) hrest ht
  · intro e e' t t' _ ht
    exact .success hnone hx ht

theorem related_cut (hp : L.Related V p p') : L.Related V p.cut p'.cut := by
  intro x x' s s' hx hs
  unfold Parser.cut
  refine (hp x x' s s' hx hs).bind ?_ ?_
  · intro v v' rest rest' t t' _ hv hrest ht
    exact .success hv hrest ht
  · intro e e' t t' he ht
    exact .failure he ht

theorem related_andThen {U : α × β → α' × β' → Prop} (hp : L.Related V p p')
    (hq : L.Related W q q') (hpair : ∀ v v' w w', V v v' → W w w' → U (v, w) (v', w')) :
    L.Related U (p.andThen q) (p'.andThen q') := by
  intro x x' s s' hx hs
  unfold Parser.andThen
  refine (hp x x' s s' hx hs).bind ?_ ?_
  · intro v v' rest rest' t t' _ hv hrest ht
    refine (hq rest rest' t t' hrest ht).bind ?_ ?_
    · intro w w' rest rest' u u' _ hw hrest hu
      exact .success (hpair v v' w w' hv hw) hrest hu
    · intro e e' u u' he hu
      exact .error he hu
  · intro e e' t t' he ht
    exact .error he ht

theorem related_orElse {q : Parser σ τ ε α} {q' : Parser σ' τ' ε' α'} (hp : L.Related V p p')
    (hq : L.Related V q q') : L.Related V (p.orElse q) (p'.orElse q') := by
  intro x x' s s' hx hs
  unfold Parser.orElse
  refine (hp x x' s s' hx hs).bind ?_ ?_
  · intro v v' rest rest' t t' _ hv hrest ht
    exact .success hv hrest ht
  · intro e e' t t' _ ht
    exact hq x x' t t' hx ht

theorem Related.mono {V' : α → α' → Prop} (h : L.Related V p p') (hv : ∀ v v', V v v' → V' v v') :
    L.Related V' p p' := by
  intro x x' s s' hx hs
  have hagree := h x x' s s' hx hs
  generalize p x s = r at hagree ⊢
  generalize p' x' s' = r' at hagree ⊢
  cases hagree with
  | success hvv hrest ht => exact .success (hv _ _ hvv) hrest ht
  | error he ht => exact .error he ht
  | failure he ht => exact .failure he ht
  | incomplete hn => exact .incomplete hn
  | stop ht => exact .stop ht

/-- Where less is demanded, related parsers stay related. -/
theorem Related.demanding (h : L.Related V p p') (hint : Needed → Option Needed)
    (hint_size : ∀ {n n'}, hint n = some n' → 0 < n.size → n.size = n'.size + L.extra ∧ 0 < n'.size)
    (hless : ∀ {n n'}, hint n = some n' → L.hint n = some n') :
    (L.demanding hint hint_size).Related V p p' := by
  intro x x' s s' hx hs
  have hagree := h x x' s s' hx hs
  generalize p x s = r at hagree ⊢
  generalize p' x' s' = r' at hagree ⊢
  cases hagree with
  | success hv hrest ht => exact .success hv hrest ht
  | error he ht => exact .error he ht
  | failure he ht => exact .failure he ht
  | incomplete hn => exact .incomplete fun n' hn' => hn n' (hless hn')
  | stop ht => exact .stop ht

/-- Sinks that take linked values into linked states. -/
def Takes (L : Link σ σ' τ τ' ε ε') (V : α → α' → Prop) (K : κ → κ' → Prop)
    (sink : κ → α → Run σ κ) (sink' : κ' → α' → Run σ' κ') : Prop :=
  ∀ held held' v v' t t', K held held' → V v v' → L.State t t' →
    L.Steps K (sink held v t) (sink' held' v' t')

theorem takes_pure {K : κ → κ' → Prop} {F : κ → α → κ} {F' : κ' → α' → κ'}
    (hF : ∀ held held' v v', K held held' → V v v' → K (F held v) (F' held' v')) :
    L.Takes V K (fun held v => pure (F held v)) (fun held v => pure (F' held v)) :=
  fun held held' v v' _ _ hheld hv ht => .ok (hF held held' v v' hheld hv) ht

theorem progress_iff {x rest : Window τ} {x' rest' : Window τ'} (hx : L.Input x x')
    (hrest : L.Input rest rest') :
    (rest.length == x.length) = (rest'.length == x'.length) := by
  have h₁ := L.length_eq hx
  have h₂ := L.length_eq hrest
  rw [Bool.eq_iff_iff, beq_iff_eq, beq_iff_eq]
  omega

/-- Where inputs of different lengths are linked, parsers are asked never to leave more than they got. -/
def Steady (L : Link σ σ' τ τ' ε ε') (p : Parser σ τ ε α) : Prop := L.extra = 0 ∨ p.Shrinks

theorem Steady.both (hp : L.Steady p) (hq : L.Steady q) :
    L.extra = 0 ∨ p.Shrinks ∧ q.Shrinks := by
  rcases hp with hp | hp
  · exact .inl hp
  · exact hq.imp_right fun hq => ⟨hp, hq⟩

/-- Turns that suffice: as many on both sides, or more than there are elements where each turn takes
one of them. -/
def Enough (takes : Prop) (turns turns' length length' : Nat) : Prop :=
  turns = turns' ∨ takes ∧ length < turns ∧ length' < turns'

theorem Enough.next {takes : Prop} {turns turns' extra a b a' b' : Nat}
    (h : Enough takes (turns + 1) (turns' + 1) a a') (ha : a' = a + extra) (hb : b' = b + extra)
    (hlt : takes → b < a) : Enough takes turns turns' b b' := by
  rcases h with h | ⟨ht, h, h'⟩
  · exact .inl (by omega)
  · have := hlt ht
    exact .inr ⟨ht, by omega, by omega⟩

theorem Enough.zero {takes : Prop} {turns' a a' : Nat} (h : Enough takes 0 turns' a a') :
    turns' = 0 := by
  rcases h with h | h <;> omega

theorem Enough.succ {takes : Prop} {turns turns' a a' : Nat}
    (h : Enough takes (turns + 1) turns' a a') : ∃ k, turns' = k + 1 :=
  ⟨turns' - 1, by rcases h with h | h <;> omega⟩

/-- One turn more than there are elements is enough for linked inputs. -/
theorem enough_of_input {takes : Prop} {x : Window τ} {x' : Window τ'} (hx : L.Input x x')
    (h : L.extra = 0 ∨ takes) : Enough takes (x.length + 1) (x'.length + 1) x.length x'.length := by
  have hlen := L.length_eq hx
  rcases h with h | h
  · exact .inl (by omega)
  · exact .inr ⟨h, by omega, by omega⟩

theorem related_loop {r : Repetition} {K : κ → κ' → Prop} {sink : κ → α → Run σ κ}
    {sink' : κ' → α' → Run σ' κ'} (hp : L.Related V p p') (hsink : L.Takes V K sink sink')
    (turns turns' i : Nat) (held : κ) (held' : κ') (hheld : K held held') (x : Window τ)
    (x' : Window τ') (s : σ) (s' : σ')
    (hturns : Enough (r.requireProgress = true ∧ p.Shrinks) turns turns' x.length x'.length)
    (hx : L.Input x x') (hs : L.State s s') :
    L.Agree K (r.loop p sink turns i held x s) (r.loop p' sink' turns' i held' x' s') := by
  -- the second run may have more turns left, and `Enough` keeps both from coming to their end apart
  induction turns generalizing turns' i held held' x x' s s' with
  | zero =>
    obtain rfl := hturns.zero
    exact .success hheld hx hs
  | succ turns ih =>
    obtain ⟨turns', rfl⟩ := hturns.succ
    unfold Repetition.loop
    refine (hp x x' s s' hx hs).bind ?_ ?_
    · intro v v' rest rest' t t' hm hv hrest ht
      have hprogress := progress_iff hx hrest
      by_cases hstall : (r.requireProgress && rest.length == x.length) = true
      · have hstall' := hstall
        rw [hprogress] at hstall'
        simp only [hstall, hstall', if_true]
        exact .error (L.ofKind r.kind hx) ht
      · have hstall' := hstall
        rw [hprogress] at hstall'
        simp only [hstall, hstall']
        refine (hsink held held' v v' t t' hheld hv ht).bind ?_
        intro held held' t t' hheld ht
        refine ih turns' _ held held' hheld rest rest' t t' ?_ hrest ht
        refine hturns.next (L.length_eq hx) (L.length_eq hrest) ?_
        rintro ⟨hr, hshrink⟩
        have hle := hshrink x s v rest _ hm
        have hne : rest.length ≠ x.length := by simpa [hr] using hstall
        omega
    · intro e e' t t' he ht
      by_cases hc : r.range.contains i = true
      · simp only [hc, if_true]
        exact .success hheld hx ht
      · simp only [hc]
        exact .error (L.append r.kind hx he) ht

theorem related_run {r : Repetition} {K : κ → κ' → Prop} {sink : κ → α → Run σ κ}
    {sink' : κ' → α' → Run σ' κ'} {held : κ} {held' : κ'} (hp : L.Related V p p')
    (hsteady : L.Steady p) (hsink : L.Takes V K sink sink') (hends : r.Ends) (hheld : K held held') :
    L.Related K (r.run p sink held) (r.run p' sink' held') := by
  intro x x' s s' hx hs
  unfold Repetition.run
  by_cases hr : r.range.inverted = true
  · simp only [hr, if_true]
    exact .failure (L.ofKind r.kind hx) hs
  · simp only [hr]
    refine related_loop hp hsink _ _ 0 held held' hheld x x' s s' ?_ hx hs
    cases hc : r.counts with
    | upTo limit => exact .inl rfl
    | endless => exact enough_of_input hx (hsteady.imp_right fun h => ⟨hends hc, h⟩)

theorem related_collect {r : Repetition} {K : κ → κ' → Prop} {into : Container α κ}
    {into' : Container α' κ'} {held : κ} {held' : κ'} (hp : L.Related V p p')
    (hsteady : L.Steady p) (hends : r.Ends) (hinto : into.Linked V K into') (hheld : K held held') :
    L.Related K (Parser.collect r into held p) (Parser.collect r into' held' p') :=
  related_run hp hsteady (takes_pure hinto.insert) hends hheld

theorem related_countOver {r : Repetition} (hp : L.Related V p p') (hsteady : L.Steady p)
    (hends : r.Ends) : L.Related Eq (Parser.countOver r p) (Parser.countOver r p') :=
  related_collect hp hsteady hends (Container.linked_counter V) rfl

theorem related_foldOver {r : Repetition} {K : κ → κ' → Prop} {init : Run σ κ} {init' : Run σ' κ'}
    {step : κ → α → κ} {step' : κ' → α' → κ'} (hp : L.Related V p p') (hsteady : L.Steady p)
    (hends : r.Ends) (hinit : ∀ s s', L.State s s' → L.Steps K (init s) (init' s'))
    (hstep : ∀ acc acc' v v', K acc acc' → V v v' → K (step acc v) (step' acc' v')) :
    L.Related K (Parser.foldOver r init step p) (Parser.foldOver r init' step' p') := by
  intro x x' s s' hx hs
  unfold Parser.foldOver
  refine (hinit s s' hs).bind ?_
  intro start start' t t' hstart ht
  exact related_run hp hsteady (takes_pure hstep) hends hstart x x' t t' hx ht

theorem related_fill {slots : Nat} {write : Nat → α → Run σ Unit} {write' : Nat → α' → Run σ' Unit}
    (hp : L.Related V p p') (hsteady : L.Steady p)
    (hwrite : ∀ slot v v' s s', V v v' → L.State s s' →
      L.Steps (fun _ _ => True) (write slot v s) (write' slot v' s')) :
    L.Related (fun _ _ => True) (Parser.fill slots write p) (Parser.fill slots write' p') := by
  unfold Parser.fill
  refine related_map (V := fun n n' : Nat => n = n') ?_ fun _ _ _ => trivial
  refine related_run hp hsteady ?_ ?_ rfl
  · rintro slot _ v v' t t' rfl hv ht
    exact (hwrite slot v v' t t' hv ht).andThen fun _ _ _ _ _ hu => .ok rfl hu
  · intro h
    cases h

theorem related_manyTillLoop {K : κ → κ' → Prop} {into : Container α κ} {into' : Container α' κ'}
    {U : κ × β → κ' × β' → Prop} (hp : L.Related V p p') (hq : L.Related W q q')
    (hpair : ∀ k k' w w', K k k' → W w w' → U (k, w) (k', w')) (hinto : into.Linked V K into')
    (turns turns' : Nat) (held : κ) (held' : κ') (hheld : K held held') (x : Window τ)
    (x' : Window τ') (s : σ) (s' : σ') (hturns : Enough p.Shrinks turns turns' x.length x'.length)
    (hx : L.Input x x') (hs : L.State s s') :
    L.Agree U (Parser.manyTillLoop into p q turns held x s)
      (Parser.manyTillLoop into' p' q' turns' held' x' s') := by
  induction turns generalizing turns' held held' x x' s s' with
  | zero =>
    obtain rfl := hturns.zero
    exact .error (L.ofKind .manyTill hx) hs
  | succ turns ih =>
    obtain ⟨turns', rfl⟩ := hturns.succ
    unfold Parser.manyTillLoop
    refine (hq x x' s s' hx hs).bind ?_ ?_
    · intro v v' rest rest' t t' _ hv hrest ht
      exact .success (hpair _ _ _ _ hheld hv) hrest ht
    · intro e e' t t' _ ht
      refine (hp x x' t t' hx ht).bind ?_ ?_
      · intro v v' rest rest' u u' hm hv hrest hu
        have hprogress := progress_iff hx hrest
        by_cases hstall : (rest.length == x.length) = true
        · have hstall' := hprogress ▸ hstall
          simp only [hstall, hstall', if_true]
          exact .error (L.ofKind .manyTill hx) hu
        · have hstall' := hprogress ▸ hstall
          simp only [hstall, hstall']
          refine ih turns' _ _ (hinto.insert _ _ _ _ hheld hv) rest rest' u u' ?_ hrest hu
          refine hturns.next (L.length_eq hx) (L.length_eq hrest) fun hshrink => ?_
          have hle := hshrink x t v rest u hm
          have hne : rest.length ≠ x.length := by simpa using hstall
          omega
      · intro e e' u u' he hu
        exact .error (L.append .manyTill hx he) hu

theorem related_manyTill {K : κ → κ' → Prop} {into : Container α κ} {into' : Container α' κ'}
    {U : κ × β → κ' × β' → Prop} (hp : L.Related V p p') (hsteady : L.Steady p)
    (hq : L.Related W q q') (hpair : ∀ k k' w w', K k k' → W w w' → U (k, w) (k', w'))
    (hinto : into.Linked V K into') :
    L.Related U (Parser.manyTill into p q) (Parser.manyTill into' p' q') := fun x x' s s' hx hs =>
  related_manyTillLoop hp hq hpair hinto _ _ _ _ hinto.empty x x' s s' (enough_of_input hx hsteady)
    hx hs

theorem related_separatedLoop {K : κ → κ' → Prop} {into : Container α κ} {into' : Container α' κ'}
    (hp : L.Related V p p') (hq : L.Related W q q') (hinto : into.Linked V K into')
    (turns turns' : Nat) (held : κ) (held' : κ') (hheld : K held held') (x : Window τ)
    (x' : Window τ') (s : σ) (s' : σ')
    (hturns : Enough (p.Shrinks ∧ q.Shrinks) turns turns' x.length x'.length)
    (hx : L.Input x x') (hs : L.State s s') :
    L.Agree K (Parser.separatedLoop into q p turns held x s)
      (Parser.separatedLoop into' q' p' turns' held' x' s') := by
  induction turns generalizing turns' held held' x x' s s' with
  | zero =>
    obtain rfl := hturns.zero
    exact .error (L.ofKind .separatedList hx) hs
  | succ turns ih =>
    obtain ⟨turns', rfl⟩ := hturns.succ
    unfold Parser.separatedLoop
    refine (hq x x' s s' hx hs).bind ?_ ?_
    · intro _ _ next next' t t' hm _ hnext ht
      have hprogress := progress_iff hx hnext
      by_cases hstall : (next.length == x.length) = true
      · have hstall' := hprogress ▸ hstall
        simp only [hstall, hstall', if_true]
        exact .error (L.ofKind .separatedList hx) ht
      · have hstall' := hprogress ▸ hstall
        simp only [hstall, hstall']
        refine (hp next next' t t' hnext ht).bind ?_ ?_
        · intro v v' rest rest' u u' hm' hv hrest hu
          refine ih turns' _ _ (hinto.insert _ _ _ _ hheld hv) rest rest' u u' ?_ hrest hu
          refine hturns.next (L.length_eq hx) (L.length_eq hrest) ?_
          rintro ⟨hshrink, hshrink'⟩
          have hle := hshrink' x s _ next t hm
          have hle' := hshrink next t v rest u hm'
          have hne : next.length ≠ x.length := by simpa using hstall
          omega
        · intro e e' u u' _ hu
          exact .success hheld hx hu
    · intro e e' t t' _ ht
      exact .success hheld hx ht

theorem related_separatedRest {K : κ → κ' → Prop} {into : Container α κ} {into' : Container α' κ'}
    {first : α} {first' : α'} (hp : L.Related V p p') (hsteady : L.Steady p) (hq : L.Related W q q')
    (hsteady' : L.Steady q) (hinto : into.Linked V K into') (hfirst : V first first') :
    L.Related K (Parser.separatedRest into q p first) (Parser.separatedRest into' q' p' first') :=
  fun x x' s s' hx hs => related_separatedLoop hp hq hinto _ _ _ _
    (hinto.insert _ _ _ _ hinto.empty hfirst) x x' s s' (enough_of_input hx (hsteady.both hsteady'))
    hx hs

theorem related_separatedList1 {K : κ → κ' → Prop} {into : Container α κ} {into' : Container α' κ'}
    (hp : L.Related V p p') (hsteady : L.Steady p) (hq : L.Related W q q') (hsteady' : L.Steady q)
    (hinto : into.Linked V K into') :
    L.Related K (Parser.separatedList1 into q p) (Parser.separatedList1 into' q' p') := by
  intro x x' s s' hx hs
  unfold Parser.separatedList1
  refine (hp x x' s s' hx hs).bind ?_ ?_
  · intro v v' rest rest' t t' _ hv hrest ht
    exact related_separatedRest hp hsteady hq hsteady' hinto hv rest rest' t t' hrest ht
  · intro e e' t t' he ht
    exact .error he ht

theorem related_separatedList0 {K : κ → κ' → Prop} {into : Container α κ} {into' : Container α' κ'}
    (hp : L.Related V p p') (hsteady : L.Steady p) (hq : L.Related W q q') (hsteady' : L.Steady q)
    (hinto : into.Linked V K into') :
    L.Related K (Parser.separatedList0 into q p) (Parser.separatedList0 into' q' p') := by
  intro x x' s s' hx hs
  unfold Parser.separatedList0
  refine (hp x x' s s' hx hs).bind ?_ ?_
  · intro v v' rest rest' t t' _ hv hrest ht
    exact related_separatedRest hp hsteady hq hsteady' hinto hv rest rest' t t' hrest ht
  · intro e e' t t' _ ht
    exact .success hinto.empty hx ht

variable {len : Parser σ τ ε Nat} {len' : Parser σ' τ' ε' Nat}

/-- Linked inputs with too few elements ask for what is missing. -/
theorem agree_needs {x : Window τ} {x' : Window τ'} {s : σ} {s' : σ'} {n : Nat}
    {r' : EStateM.Result Stop σ' (Outcome τ' ε' α')} (hx : L.Input x x') (hs : L.State s s')
    (hn : x.length < n) (hr' : x'.length < n → r' = .ok (.needs (n - x'.length)) s') :
    L.Agree V (.ok (.needs (n - x.length)) s) r' := by
  refine .incomplete fun n' hn' => ?_
  have hlen := L.length_eq hx
  obtain ⟨hsize, hpos⟩ := L.hint_size hn' (Nat.sub_pos_of_lt hn)
  obtain rfl : n' = ⟨n - x'.length⟩ := by
    cases n'
    simp only at hsize
    congr 1
    omega
  exact ⟨s', hr' (by simp only at hpos; omega), hs⟩

theorem related_lengthData {V : Window τ → Window τ' → Prop} (hlen : L.Related Eq len len')
    (htake : ∀ x x' n, L.Input x x' → n ≤ x.length → V (x.take n) (x'.take n)) :
    L.Related V (Parser.lengthData len) (Parser.lengthData len') := by
  intro x x' s s' hx hs
  rw [Parser.lengthData_eq, Parser.lengthData_eq]
  refine (hlen x x' s s' hx hs).bind ?_ ?_
  · rintro n _ rest rest' t t' _ rfl hrest ht
    have hlength := L.length_eq hrest
    by_cases hn : rest.length < n
    · simp only [if_pos hn]
      refine agree_needs hrest ht hn fun hn' => ?_
      simp only [if_pos hn']
      rfl
    · have hle := Nat.le_of_not_lt hn
      have hn' : ¬ rest'.length < n := by omega
      simp only [if_neg hn, if_neg hn']
      exact .success (htake _ _ n hrest hle) (L.drop hrest hle) ht
  · intro e e' t t' he ht
    exact .error he ht

/-- Bodies that agree on the data carved out of linked inputs. -/
def Bodies (L : Link σ σ' τ τ' ε ε') (V : α → α' → Prop) (body : Parser σ τ ε α)
    (body' : Parser σ' τ' ε' α') : Prop :=
  ∀ x x' s s' n, L.Input x x' → L.State s s' → n ≤ x.length →
    L.Agree V ((body (x.take n) >>= fun o => return Parser.afterBody (x.take n) (x.drop n) o) s)
      ((body' (x'.take n) >>= fun o => return Parser.afterBody (x'.take n) (x'.drop n) o) s')

/-- Bodies that are related over parts of linked inputs, where they must ask for the same amounts. The
link of the parts may differ from that of the inputs. -/
theorem bodies_of_parts (K : Link σ σ' τ τ' ε ε') (hstate : ∀ {s s'}, K.State s s' ↔ L.State s s')
    (herror : ∀ {e e'}, K.Error e e' → L.Error e e') (hhint : ∀ n, ∃ n', K.hint n = some n')
    (hpart : ∀ x x' n, L.Input x x' → n ≤ x.length → K.Input (x.take n) (x'.take n))
    (hp : K.Related V p p') : L.Bodies V p p' := by
  intro x x' s s' n hx hs hn
  have hinput := hpart x x' n hx hn
  have hdrop := L.drop hx hn
  have hagree := hp _ _ s s' hinput (hstate.mpr hs)
  generalize hr : p (x.take n) s = r at hagree
  generalize hr' : p' (x'.take n) s' = r' at hagree
  cases hagree with
  | success hv _ ht =>
    rw [Run.bind_of_ok hr, Run.bind_of_ok hr']
    exact .success hv hdrop (hstate.mp ht)
  | error he ht =>
    rw [Run.bind_of_ok hr, Run.bind_of_ok hr']
    exact .error (herror he) (hstate.mp ht)
  | failure he ht =>
    rw [Run.bind_of_ok hr, Run.bind_of_ok hr']
    exact .failure (herror he) (hstate.mp ht)
  | incomplete hn =>
    obtain ⟨n', hn'⟩ := hhint _
    obtain ⟨t', rfl, ht⟩ := hn n' hn'
    have he := K.ofKind .complete hinput
    rw [Run.bind_of_ok hr, Run.bind_of_ok hr']
    exact .error (herror he) (hstate.mp ht)
  | stop ht =>
    rw [Run.bind_of_error hr, Run.bind_of_error hr']
    exact .stop (hstate.mp ht)

theorem related_lengthValue (hlen : L.Related Eq len len') (hbody : L.Bodies V p p') :
    L.Related V (Parser.lengthValue len p) (Parser.lengthValue len' p') := by
  intro x x' s s' hx hs
  rw [Parser.lengthValue_eq, Parser.lengthValue_eq]
  refine (hlen x x' s s' hx hs).bind ?_ ?_
  · rintro n _ rest rest' t t' _ rfl hrest ht
    have hlength := L.length_eq hrest
    by_cases hn : rest.length < n
    · simp only [if_pos hn]
      refine agree_needs hrest ht hn fun hn' => ?_
      simp only [if_pos hn']
      rfl
    · have hle := Nat.le_of_not_lt hn
      have hn' : ¬ rest'.length < n := by omega
      simp only [if_neg hn, if_neg hn']
      exact hbody _ _ _ _ n hrest ht hle
  · intro e e' t t' he ht
    exact .error he ht

theorem related_lengthCount {K : κ → κ' → Prop} {into : Container α κ} {into' : Container α' κ'}
    (hlen : L.Related Eq len len') (hp : L.Related V p p') (hsteady : L.Steady p)
    (hinto : into.Linked V K into') :
    L.Related K (Parser.lengthCount len into p) (Parser.lengthCount len' into' p') := by
  intro x x' s s' hx hs
  unfold Parser.lengthCount
  refine (hlen x x' s s' hx hs).bind ?_ ?_
  · rintro n _ rest rest' t t' _ rfl hrest ht
    refine related_collect hp hsteady ?_ hinto (hinto.room n) rest rest' t t' hrest ht
    intro h
    cases h
  · intro e e' t t' he ht
    exact .error he ht

/-- Tracing the first of two parsers, where a trace leaves states linked. -/
theorem related_traced_left {write : Event τ ε → Run σ Unit} {f : Event τ ε → σ → σ}
    (hwrite : ∀ event s, write event s = .ok () (f event s))
    (hf : ∀ event s s', L.State s s' → L.State (f event s) s') (name : String)
    (hp : L.Related V p p') : L.Related V (p.traced write name) p' := by
  intro x x' s s' hx hs
  rw [Parser.traced_eq hwrite]
  have h := hp x x' _ s' hx (hf (.start name x) s s' hs)
  generalize p x (f (.start name x) s) = r at h ⊢
  generalize p' x' s' = r' at h ⊢
  cases h with
  | success hv hrest ht => exact .success hv hrest (hf _ _ _ ht)
  | error he ht => exact .error he (hf _ _ _ ht)
  | failure he ht => exact .failure he (hf _ _ _ ht)
  | incomplete hn =>
    refine .incomplete fun n' hn' => ?_
    obtain ⟨t', hr', ht⟩ := hn n' hn'
    exact ⟨t', hr', hf _ _ _ ht⟩
  | stop ht => exact .stop ht

/-- Tracing the second of two parsers. -/
theorem related_traced_right {write : Event τ' ε' → Run σ' Unit} {f : Event τ' ε' → σ' → σ'}
    (hwrite : ∀ event s, write event s = .ok () (f event s))
    (hf : ∀ event s s', L.State s s' → L.State s (f event s')) (name : String)
    (hp : L.Related V p p') : L.Related V p (p'.traced write name) := by
  intro x x' s s' hx hs
  rw [Parser.traced_eq hwrite]
  have h := hp x x' s _ hx (hf (.start name x') s s' hs)
  generalize p x s = r at h ⊢
  generalize p' x' (f (.start name x') s') = r' at h ⊢
  cases h with
  | success hv hrest ht => exact .success hv hrest (hf _ _ _ ht)
  | error he ht => exact .error he (hf _ _ _ ht)
  | failure he ht => exact .failure he (hf _ _ _ ht)
  | incomplete hn =>
    refine .incomplete fun n' hn' => ?_
    obtain ⟨t', rfl, ht⟩ := hn n' hn'
    exact ⟨_, rfl, hf _ _ _ ht⟩
  | stop ht => exact .stop ht

end Link
end Reprise
