import Reprise.Proofs.Repeating
import Reprise.Proofs.Separated
import Reprise.Proofs.Terminated

/-!
# Loops that ask for progress

A turn of such a loop takes an element at least, so the loop ends within its input, whatever its range
and its children are. The number of turns that a loop is given is no part of this: more turns than there
are elements change nothing.
-/

namespace Reprise

variable {σ τ ε α β κ : Type}

/-- How often a child was called. -/
def Call.times (child : Nat) (calls : List (Call τ ε)) : Nat := calls.countP (·.child == child)

/-- How often a child was called and got a value. -/
def Call.gains (child : Nat) (calls : List (Call τ ε)) : Nat :=
  calls.countP fun call => call.child == child && call.answer?.isNone

namespace Call

theorem times_append (child : Nat) (calls calls' : List (Call τ ε)) :
    times child (calls ++ calls') = times child calls + times child calls' := List.countP_append

theorem gains_append (child : Nat) (calls calls' : List (Call τ ε)) :
    gains child (calls ++ calls') = gains child calls + gains child calls' := List.countP_append

theorem times_singleton_le (child : Nat) (call : Call τ ε) : times child [call] ≤ 1 :=
  List.countP_le_length

/-- Calls of different children. -/
theorem times_pair_le (child : Nat) {first second : Call τ ε} (h : first.child ≠ second.child) :
    times child [first, second] ≤ 1 := by
  by_cases hfirst : first.child = child
  · simp [times, hfirst, hfirst ▸ h.symm]
  · have hle := List.countP_le_length (p := fun call : Call τ ε => call.child == child) (l := [second])
    simpa [times, hfirst] using hle

end Call

namespace Rounds

variable {A : Type*} {turn : A → Round τ ε α → A → Prop} {a b : A} {ls : List (Round τ ε α)}

/-- A child that is called once in a turn at most. -/
theorem times_le (child : Nat) (hturn : ∀ {b l c}, turn b l c → Call.times child l.calls ≤ 1)
    (h : Rounds turn a ls b) : Call.times child (ls.flatMap Round.calls) ≤ ls.length := by
  induction h with
  | none => exact Nat.le_refl 0
  | more _ hlast ih =>
    rw [List.flatMap_append, Call.times_append, List.length_append, List.flatMap_singleton]
    exact Nat.add_le_add ih (hturn hlast)

/-- A child that gets a value in each turn. -/
theorem gains_eq (child : Nat) (hturn : ∀ {b l c}, turn b l c → Call.gains child l.calls = 1)
    (h : Rounds turn a ls b) : Call.gains child (ls.flatMap Round.calls) = ls.length := by
  induction h with
  | none => rfl
  | more _ hlast ih =>
    rw [List.flatMap_append, Call.gains_append, List.length_append, List.flatMap_singleton, ih,
      hturn hlast]
    rfl

end Rounds

namespace Noted

/-- The calls that led to a result. -/
def log : EStateM.Result Stop (Noted σ τ ε) α → List (Call τ ε)
  | .ok _ t => t.calls
  | .error _ t => t.calls

theorem log_remember (calls : List (Call τ ε)) (result : EStateM.Result Stop σ α) :
    log (remember calls result) = calls := by cases result <;> rfl

theorem remember_eq_ok {calls : List (Call τ ε)} {result : EStateM.Result Stop σ α} {v : α}
    {t : Noted σ τ ε} (h : remember calls result = .ok v t) :
    result = .ok v t.state ∧ t.calls = calls := by
  cases result <;> cases h
  exact ⟨rfl, rfl⟩

end Noted

/-- A result of a loop over `n` elements: no child was called more than once for each element and once
more, and on success what is gathered from the values of one child takes an element for each of them,
but for some to spare. -/
structure Bounded (element spare : Nat) (Gathers : Nat → α → Prop) (n : Nat)
    (result : EStateM.Result Stop (Noted σ τ ε) (Outcome τ ε α)) : Prop where
  times : ∀ child, Call.times child (Noted.log result) ≤ n + 1
  gains : ∀ v rest t, result = .ok (.success v rest) t →
    Gathers (Call.gains element t.calls) v ∧
      Call.gains element t.calls + rest.length ≤ n + spare

theorem Bounded.of_remember {element spare n : Nat} {Gathers : Nat → α → Prop}
    (calls : List (Call τ ε)) (result : EStateM.Result Stop σ (Outcome τ ε α))
    (htimes : ∀ child, Call.times child calls ≤ n + 1)
    (hgains : ∀ v rest t, result = .ok (.success v rest) t → Gathers (Call.gains element calls) v ∧
      Call.gains element calls + rest.length ≤ n + spare) :
    Bounded element spare Gathers n (Noted.remember calls result) where
  times child := by
    rw [Noted.log_remember]
    exact htimes child
  gains v rest t h := by
    obtain ⟨hresult, hcalls⟩ := Noted.remember_eq_ok h
    rw [hcalls]
    exact hgains v rest t.state hresult

/-- A result other than a success, after a call or none. -/
theorem Bounded.of_single {element spare n : Nat} {Gathers : Nat → α → Prop}
    (calls : List (Call τ ε)) (result : EStateM.Result Stop σ (Outcome τ ε α))
    (hcalls : calls.length ≤ 1) (hresult : ∀ v rest t, result ≠ .ok (.success v rest) t) :
    Bounded element spare Gathers n (Noted.remember calls result) :=
  .of_remember calls result (fun _ => (List.countP_le_length.trans hcalls).trans (Nat.le_add_left 1 n))
    fun v rest t h => absurd h (hresult v rest t)

variable [Payload τ ε]

namespace Repetition

variable {r : Repetition} {p : Parser σ τ ε α}

/-- A repetition with the turns that so many elements may need. -/
def allowing (r : Repetition) (available : Nat) (p : Parser σ τ ε α) (sink : β → α → Run σ β)
    (held : β) : Parser σ τ ε β := fun x =>
  if r.range.inverted then return .failureAt x r.kind
  else r.loop p sink (r.counts.turns available) 0 held x

/-- More turns change nothing. -/
theorem allowing_eq (hp : p.Shrinks) (hends : r.Ends) (sink : β → α → Run σ β) (held : β)
    {x : Window τ} {available : Nat} (h : x.length ≤ available) (s : σ) :
    r.allowing available p sink held x s = r.run p sink held x s := by
  unfold allowing run
  cases r.range.inverted with
  | true => rfl
  | false =>
    obtain ⟨ls, b, hrounds, hfinishes⟩ := exists_rounds hp hends sink ⟨held, x, s⟩
    obtain ⟨last, result, hfinishes⟩ := hfinishes (Counts.after ls.length)
    have hmore := loop_of_finishes hrounds hfinishes fun hlt => lt_turns hp hends hrounds hlt h
    have hall := loop_of_finishes hrounds hfinishes fun hlt =>
      lt_turns hp hends hrounds hlt (Nat.le_refl x.length)
    exact hmore.trans hall.symm

theorem Finishes.length_le {sink : β → α → Run σ β} {k count : Nat} {b : Stage β τ σ}
    {last : List (Call τ ε)} {result : EStateM.Result Stop σ (Outcome τ ε β)}
    (h : r.Finishes p sink k count b last result) : last.length ≤ 1 := by
  cases h with
  | exhausted _ => exact Nat.zero_le 1
  | closed _ hcloses => cases hcloses <;> simp

/-- A success gives what is held and left at the last stage. -/
theorem Finishes.of_success {sink : β → α → Run σ β} {k count : Nat} {b : Stage β τ σ}
    {last : List (Call τ ε)} {v : β} {rest : Window τ} {t : σ}
    (h : r.Finishes p sink k count b last (.ok (.success v rest) t)) :
    v = b.held ∧ rest = b.input ∧ Call.gains 0 last = 0 := by
  cases h with
  | exhausted _ => exact ⟨rfl, rfl, rfl⟩
  | closed _ hcloses =>
    cases hcloses with
    | enough _ _ => exact ⟨rfl, rfl, rfl⟩

theorem bounded (hp : p.Shrinks) (hr : r.requireProgress = true) (F : β → α → β) (held : β)
    (x : Window τ) (s : σ) : Bounded 0 0 (fun k v => ∃ vs : List α, vs.length = k ∧ v = vs.foldl F held)
      x.length (r.run (p.noted 0) (fun held v => return F held v) held x ⟨s, []⟩) := by
  cases hinverted : r.range.inverted with
  | true =>
    rw [run_inverted hinverted]
    exact Bounded.of_single [] (.ok (.failureAt x r.kind) s) (Nat.zero_le 1)
      (by rintro _ _ _ ⟨⟩)
  | false =>
    have hends : r.Ends := fun _ => hr
    obtain ⟨ls, b, h, hfinishes⟩ := exists_rounds hp hends (fun held v => pure (F held v)) ⟨held, x, s⟩
    obtain ⟨last, result, hfinishes⟩ := hfinishes (Counts.after ls.length)
    have hrun : r.loop (p.noted 0) (fun held v => return F held v) (r.counts.turns x.length) 0 held x
        ⟨s, []⟩ = Noted.remember (ls.flatMap Round.calls ++ last) result :=
      loop_of_finishes (rounds_noted h []) (hfinishes.noted _) fun hlt =>
        lt_turns hp hends h hlt (Nat.le_refl x.length)
    have hle : ls.length + b.input.length ≤ x.length := rounds_le hp hr h
    rw [run_eq_loop hinverted, hrun]
    refine .of_remember _ _ (fun child => ?_) fun v rest t hresult => ?_
    · have htimes := h.times_le child (by
        rintro _ _ _ ⟨⟩
        exact Call.times_singleton_le child _)
      have hlast : Call.times child last ≤ 1 := List.countP_le_length.trans hfinishes.length_le
      rw [Call.times_append]
      omega
    · subst hresult
      obtain ⟨rfl, rfl, hlast⟩ := hfinishes.of_success
      have hgains := h.gains_eq 0 (by rintro _ _ _ ⟨⟩; rfl)
      rw [Call.gains_append, hgains, hlast]
      exact ⟨⟨ls.map Round.value, List.length_map _, held_eq h⟩, hle⟩

end Repetition

namespace Terminated

variable {into : Container α κ} {p : Parser σ τ ε α} {till : Parser σ τ ε β} {b : Stage κ τ σ}
  {last : List (Call τ ε)} {result : EStateM.Result Stop σ (Outcome τ ε (κ × β))}

theorem Closes.times_le (h : Closes into p till b last result) (child : Nat) :
    Call.times child last ≤ 1 := by
  cases h with
  | found _ | refused _ _ | stopped _ _ => exact Call.times_singleton_le child _
  | halted _ => exact Nat.zero_le 1
  | stalled _ _ _ | missed _ _ | handedOn _ _ _ => exact Call.times_pair_le child Nat.one_ne_zero

theorem Closes.of_success {v : κ × β} {rest : Window τ} {t : σ} (htill : till.Shrinks)
    (h : Closes into p till b last (.ok (.success v rest) t)) :
    v.1 = b.held ∧ rest.length ≤ b.input.length ∧ Call.gains 0 last = 0 := by
  cases h with
  | found hfound => exact ⟨rfl, htill _ _ _ _ _ hfound, rfl⟩

theorem allowing_eq (hp : p.Shrinks) (into : Container α κ) (till : Parser σ τ ε β) {x : Window τ}
    {available : Nat} (h : x.length ≤ available) (s : σ) :
    Parser.manyTillLoop into p till (available + 1) into.empty x s =
      Parser.manyTill into p till x s := by
  obtain ⟨_, _, _, _, _, _, hrun⟩ := exists_rounds hp into till ⟨into.empty, x, s⟩
  exact (hrun _ (Nat.lt_succ_of_le h)).1.trans (hrun _ (Nat.lt_succ_self x.length)).1.symm

theorem bounded (hp : p.Shrinks) (htill : till.Shrinks) (into : Container α κ) (x : Window τ)
    (s : σ) : Bounded 0 0
      (fun k (v : κ × β) => ∃ vs : List α, vs.length = k ∧ v.1 = into.insertAll into.empty vs)
      x.length (Parser.manyTill into (p.noted 0) (till.noted 1) x ⟨s, []⟩) := by
  obtain ⟨ls, b, last, result, h, hcloses, hrun⟩ := exists_rounds hp into till ⟨into.empty, x, s⟩
  have hle : ls.length + b.input.length ≤ x.length := rounds_le hp h
  have hnoted : Parser.manyTill into (p.noted 0) (till.noted 1) x ⟨s, []⟩ =
    Noted.remember (ls.flatMap Round.calls ++ last) result := (hrun _ (Nat.lt_succ_self x.length)).2
  rw [hnoted]
  refine .of_remember _ _ (fun child => ?_) fun v rest t hresult => ?_
  · have htimes := h.times_le child (by
      rintro _ _ _ ⟨⟩
      exact Call.times_pair_le child Nat.one_ne_zero)
    have hlast := hcloses.times_le child
    rw [Call.times_append]
    omega
  · subst hresult
    obtain ⟨hheld, hrest, hlast⟩ := hcloses.of_success htill
    have hgains := h.gains_eq 0 (by rintro _ _ _ ⟨⟩; rfl)
    rw [Call.gains_append, hgains, hlast]
    exact ⟨⟨ls.map Round.value, List.length_map _, hheld.trans (held_eq h)⟩, by omega⟩

end Terminated

namespace Separated

variable {into : Container α κ} {sep : Parser σ τ ε β} {p : Parser σ τ ε α} {b : Stage κ τ σ}
  {last : List (Call τ ε)} {result : EStateM.Result Stop σ (Outcome τ ε κ)}

theorem Closes.times_le (h : Closes into sep p b last result) (child : Nat) :
    Call.times child last ≤ 1 := by
  cases h with
  | ended _ | refused _ _ | stalled _ _ | stopped _ _ _ => exact Call.times_singleton_le child _
  | halted _ => exact Nat.zero_le 1
  | trailing _ _ _ | handedOn _ _ _ _ => exact Call.times_pair_le child Nat.zero_ne_one

/-- The element is called once more only behind a separator that took something. -/
theorem Closes.element_le (hsep : sep.Shrinks) (h : Closes into sep p b last result) :
    Call.times 1 last ≤ b.input.length := by
  have htaken {w : β} {next : Window τ} {t : σ} (hnext : sep b.input b.state = .ok (.success w next) t)
      (hprogress : next.length ≠ b.input.length) : 1 ≤ b.input.length := by
    have hle := hsep _ _ _ _ _ hnext
    omega
  cases h with
  | ended _ | refused _ _ | halted _ | stalled _ _ | stopped _ _ _ => exact Nat.zero_le _
  | trailing hnext hprogress _ | handedOn hnext hprogress _ _ => exact htaken hnext hprogress

theorem Closes.of_success {v : κ} {rest : Window τ} {t : σ}
    (h : Closes into sep p b last (.ok (.success v rest) t)) :
    v = b.held ∧ rest = b.input ∧ Call.gains 1 last = 0 := by
  cases h with
  | ended _ | trailing _ _ _ => exact ⟨rfl, rfl, rfl⟩

theorem allowing_eq (hsep : sep.Shrinks) (hp : p.Shrinks) (into : Container α κ) (first : α)
    {x : Window τ} {available : Nat} (h : x.length ≤ available) (s : σ) :
    Parser.separatedLoop into sep p (available + 1) (into.insert into.empty first) x s =
      Parser.separatedRest into sep p first x s := by
  obtain ⟨_, _, _, _, _, _, hrun⟩ :=
    exists_rounds hsep hp into ⟨into.insert into.empty first, x, s⟩ []
  exact (hrun _ (Nat.lt_succ_of_le h)).1.trans (hrun _ (Nat.lt_succ_self x.length)).1.symm

/-- The elements after the first one. -/
theorem bounded_rest (hsep : sep.Shrinks) (hp : p.Shrinks) (into : Container α κ) {x rest : Window τ}
    (hrest : rest.length ≤ x.length) (first : α) (s : σ) : Bounded 1 1
      (fun k v => ∃ vs : List α, vs.length = k ∧ v = into.insertAll into.empty vs) x.length
      (Parser.separatedRest into (sep.noted 0) (p.noted 1) first rest ⟨s, [⟨1, x, none⟩]⟩) := by
  obtain ⟨ls, b, last, result, h, hcloses, hrun⟩ :=
    exists_rounds hsep hp into ⟨into.insert into.empty first, rest, s⟩ [⟨1, x, none⟩]
  have hle : ls.length + b.input.length ≤ rest.length := rounds_le hsep hp h
  have hnoted : Parser.separatedRest into (sep.noted 0) (p.noted 1) first rest ⟨s, [⟨1, x, none⟩]⟩ =
    Noted.remember ([⟨1, x, none⟩] ++ ls.flatMap Round.calls ++ last) result :=
    (hrun _ (Nat.lt_succ_self rest.length)).2
  rw [hnoted]
  refine .of_remember _ _ (fun child => ?_) fun v left t hresult => ?_
  · have htimes := h.times_le child (by
      rintro _ _ _ ⟨⟩
      exact Call.times_pair_le child Nat.zero_ne_one)
    rw [Call.times_append, Call.times_append]
    by_cases hchild : child = 1
    · subst hchild
      have hlast := hcloses.element_le hsep
      have hfirst := Call.times_singleton_le 1 (⟨1, x, none⟩ : Call τ ε)
      omega
    · have hlast := hcloses.times_le child
      have hfirst : Call.times child [(⟨1, x, none⟩ : Call τ ε)] = 0 := by
        simp [Call.times, Ne.symm hchild]
      omega
  · subst hresult
    obtain ⟨rfl, rfl, hlast⟩ := hcloses.of_success
    have hgains := h.gains_eq 1 (by rintro _ _ _ ⟨⟩; rfl)
    have hfirst : Call.gains 1 [(⟨1, x, none⟩ : Call τ ε)] = 1 := rfl
    rw [Call.gains_append, Call.gains_append, hfirst, hgains, hlast]
    refine ⟨⟨first :: ls.map Round.value, ?_, held_eq h⟩, by omega⟩
    rw [List.length_cons, List.length_map]
    omega

end Separated

omit [Payload τ ε] in
theorem Bounded.mono {element spare n : Nat} {Gathers Gathers' : Nat → α → Prop}
    {result : EStateM.Result Stop (Noted σ τ ε) (Outcome τ ε α)}
    (h : Bounded element spare Gathers n result) (hgathers : ∀ k v, Gathers k v → Gathers' k v) :
    Bounded element spare Gathers' n result where
  times := h.times
  gains v rest t hresult := ⟨hgathers _ v (h.gains v rest t hresult).1, (h.gains v rest t hresult).2⟩

theorem Container.insertAll_counter (vs : List α) (n : Nat) :
    counter.insertAll n vs = n + vs.length := by
  induction vs generalizing n with
  | nil => rfl
  | cons v vs ih =>
    rw [List.length_cons, Nat.add_comm vs.length, ← Nat.add_assoc]
    exact ih (n + 1)

theorem Repetition.bounded_countOver {r : Repetition} {p : Parser σ τ ε α} (hp : p.Shrinks)
    (hr : r.requireProgress = true) (x : Window τ) (s : σ) :
    Bounded 0 0 (fun k v => v = k) x.length (Parser.countOver r (p.noted 0) x ⟨s, []⟩) := by
  refine (bounded hp hr Container.counter.insert 0 x s).mono ?_
  rintro k v ⟨vs, rfl, rfl⟩
  exact (Container.insertAll_counter vs 0).trans (Nat.zero_add _)

theorem Folding.requireProgress_eq (times : Folding) : times.repetition.requireProgress = true := by
  cases times <;> rfl

/-- The start of a fold is made before the child is called. -/
theorem Repetition.bounded_foldOver {r : Repetition} {p : Parser σ τ ε α} (hp : p.Shrinks)
    (hr : r.requireProgress = true) (init : Run σ β) (step : β → α → β) (x : Window τ) (s : σ) :
    Bounded 0 0 (fun k v => ∃ start t, init s = .ok start t ∧
      ∃ vs : List α, vs.length = k ∧ v = vs.foldl step start) x.length
      (Parser.foldOver r init.noted step (p.noted 0) x ⟨s, []⟩) := by
  unfold Parser.foldOver
  cases hinit : init s with
  | error why t =>
    have hnoted : (init.noted : Run (Noted σ τ ε) β) ⟨s, []⟩ = .error why ⟨t, []⟩ := by
      simp only [Run.noted, hinit]
    rw [Run.bind_of_error hnoted]
    exact .of_single [] (.error why t) (Nat.zero_le 1) (by rintro _ _ _ ⟨⟩)
  | ok start t =>
    have hnoted : (init.noted : Run (Noted σ τ ε) β) ⟨s, []⟩ = .ok start ⟨t, []⟩ := by
      simp only [Run.noted, hinit]
    rw [Run.bind_of_ok hnoted]
    exact (bounded hp hr step start x t).mono fun k v hv => ⟨start, t, rfl, hv⟩

/-- A separated list applies its element first. Without a first value it is empty or signals. -/
theorem Separated.bounded {sep : Parser σ τ ε β} {p : Parser σ τ ε α} (hsep : sep.Shrinks)
    (hp : p.Shrinks) (into : Container α κ) (x : Window τ) (s : σ)
    {next : Outcome τ ε α → Run (Noted σ τ ε) (Outcome τ ε κ)}
    (success : ∀ v rest,
      next (.success v rest) = Parser.separatedRest into (sep.noted 0) (p.noted 1) v rest)
    (signal : ∀ g t, next (.signal g) t = .ok (.success into.empty x) t ∨
      next (.signal g) t = .ok (.signal g) t) : Bounded 1 1
      (fun k v => ∃ vs : List α, vs.length = k ∧ v = into.insertAll into.empty vs) x.length
      ((p.noted 1 x >>= next) ⟨s, []⟩) := by
  cases hfirst : p x s with
  | error why t =>
    rw [Run.bind_of_error (Parser.noted_of_error 1 hfirst [])]
    exact .of_single [] (.error why t) (Nat.zero_le 1) (by rintro _ _ _ ⟨⟩)
  | ok o t =>
    rw [Run.bind_of_ok (Parser.noted_of_ok 1 hfirst [])]
    cases o with
    | success v rest =>
      rw [success]
      exact bounded_rest hsep hp into (hp _ _ _ _ _ hfirst) v t
    | signal g =>
      have htimes (child : Nat) : Call.times child [(⟨1, x, some g⟩ : Call τ ε)] ≤ x.length + 1 :=
        (Call.times_singleton_le child _).trans (Nat.le_add_left 1 x.length)
      rcases signal g ⟨t, [⟨1, x, some g⟩]⟩ with hnext | hnext
      · rw [List.nil_append, Outcome.signal?, hnext]
        refine .of_remember [⟨1, x, some g⟩] (.ok (.success into.empty x) t) htimes ?_
        rintro v rest u ⟨⟩
        exact ⟨⟨[], rfl, rfl⟩, by simp [Call.gains]⟩
      · rw [List.nil_append, Outcome.signal?, hnext]
        exact .of_single [⟨1, x, some g⟩] (.ok (.signal g) t) (Nat.le_refl 1)
          (by rintro _ _ _ ⟨⟩)

namespace Combinator

/-- The loops that ask for progress, over children that never leave more than they got. -/
def Progresses : Combinator σ τ ε α → Prop
  | collect times _ p => times.repetition.requireProgress = true ∧ p.Shrinks
  | many0Count p | many1Count p | fold _ _ _ p => p.Shrinks
  | manyTill _ p till => p.Shrinks ∧ till.Shrinks
  | separatedList0 _ sep p | separatedList1 _ sep p => sep.Shrinks ∧ p.Shrinks
  | _ => False

/-- The child whose values are gathered. -/
def element : Combinator σ τ ε α → Nat
  | separatedList0 _ _ _ | separatedList1 _ _ _ => 1
  | _ => 0

/-- The first value of a separated list has no separator before it. -/
def spare : Combinator σ τ ε α → Nat
  | separatedList0 _ _ _ | separatedList1 _ _ _ => 1
  | _ => 0

/-- A value of a combinator that is made of `k` values of its element. -/
def Gathers (s : σ) : Combinator σ τ ε α → Nat → α → Prop
  | @collect _ _ _ γ _ times into _, k, v =>
    ∃ vs : List γ, vs.length = k ∧ v = into.insertAll (times.held into) vs
  | many0Count _, k, v | many1Count _, k, v => v = k
  | @fold _ _ _ γ _ _ init step _, k, v => ∃ start t, init s = .ok start t ∧
    ∃ vs : List γ, vs.length = k ∧ v = vs.foldl step start
  | @manyTill _ _ _ γ _ _ into _ _, k, v =>
    ∃ vs : List γ, vs.length = k ∧ v.1 = into.insertAll into.empty vs
  | @separatedList0 _ _ _ γ _ _ into _ _, k, v | @separatedList1 _ _ _ γ _ _ into _ _, k, v =>
    ∃ vs : List γ, vs.length = k ∧ v = into.insertAll into.empty vs
  | _, _, _ => False

/-- A combinator whose loop gets as many turns as so many elements may need. -/
def allowing (available : Nat) : Combinator σ τ ε α → Parser σ τ ε α
  | collect times into p => times.repetition.allowing available p
    (fun held v => return into.insert held v) (times.held into)
  | many0Count p => Repetition.many0Count.allowing available p
    (fun n v => return Container.counter.insert n v) 0
  | many1Count p => Repetition.many1Count.allowing available p
    (fun n v => return Container.counter.insert n v) 0
  | fold times init step p => fun x => do
    times.repetition.allowing available p (fun acc v => return step acc v) (← init) x
  | manyTill into p till => Parser.manyTillLoop into p till (available + 1) into.empty
  | separatedList0 into sep p => fun x => do
    match ← p x with
    | .success v rest =>
      Parser.separatedLoop into sep p (available + 1) (into.insert into.empty v) rest
    | .signal (.error _) => return .success into.empty x
    | .signal g => return .signal g
  | separatedList1 into sep p => fun x => do
    match ← p x with
    | .success v rest =>
      Parser.separatedLoop into sep p (available + 1) (into.insert into.empty v) rest
    | .signal g => return .signal g
  | c => c.parser

theorem bounded (c : Combinator σ τ ε α) (hc : c.Progresses) (x : Window τ) (s : σ) :
    Bounded c.element c.spare (c.Gathers s) x.length (c.noted.parser x ⟨s, []⟩) := by
  cases c with
  | collect times into p =>
    simp only [noted, parser]
    rw [Collecting.parser_eq_collect]
    exact Repetition.bounded hc.2 hc.1 into.insert (times.held into) x s
  | many0Count p => exact Repetition.bounded_countOver (r := .many0Count) hc rfl x s
  | many1Count p => exact Repetition.bounded_countOver (r := .many1Count) hc rfl x s
  | fold times init step p =>
    simp only [noted, parser]
    rw [Folding.parser_eq_foldOver]
    exact Repetition.bounded_foldOver hc times.requireProgress_eq init step x s
  | manyTill into p till => exact Terminated.bounded hc.1 hc.2 into x s
  | separatedList0 into sep p =>
    refine Separated.bounded hc.1 hc.2 into x s (fun _ _ => rfl) fun g t => ?_
    cases g with
    | error e => exact .inl rfl
    | failure e => exact .inr rfl
    | incomplete n => exact .inr rfl
  | separatedList1 into sep p =>
    exact Separated.bounded hc.1 hc.2 into x s (fun _ _ => rfl) fun g t => .inr rfl
  | _ => exact hc.elim

theorem allowing_eq (c : Combinator σ τ ε α) (hc : c.Progresses) {x : Window τ} {available : Nat}
    (h : x.length ≤ available) (s : σ) : c.allowing available x s = c.parser x s := by
  cases c with
  | collect times into p =>
    simp only [allowing, parser]
    rw [Collecting.parser_eq_collect]
    exact Repetition.allowing_eq hc.2 times.ends _ _ h s
  | many0Count p => exact Repetition.allowing_eq hc (r := .many0Count) (fun _ => rfl) _ _ h s
  | many1Count p => exact Repetition.allowing_eq hc (r := .many1Count) (fun _ => rfl) _ _ h s
  | fold times init step p =>
    simp only [allowing, parser]
    rw [Folding.parser_eq_foldOver]
    unfold Parser.foldOver
    cases hinit : init s with
    | error why t => rw [Run.bind_of_error hinit, Run.bind_of_error hinit]
    | ok start t =>
      rw [Run.bind_of_ok hinit, Run.bind_of_ok hinit]
      exact Repetition.allowing_eq hc times.ends _ _ h t
  | manyTill into p till => exact Terminated.allowing_eq hc.1 into till h s
  | separatedList0 into sep p =>
    simp only [allowing, parser, Parser.separatedList0]
    cases hfirst : p x s with
    | error why t => rw [Run.bind_of_error hfirst, Run.bind_of_error hfirst]
    | ok o t =>
      rw [Run.bind_of_ok hfirst, Run.bind_of_ok hfirst]
      rcases o with ⟨v, rest⟩ | (e | e | n)
      · exact Separated.allowing_eq hc.1 hc.2 into v ((hc.2 _ _ _ _ _ hfirst).trans h) t
      all_goals rfl
  | separatedList1 into sep p =>
    simp only [allowing, parser, Parser.separatedList1]
    cases hfirst : p x s with
    | error why t => rw [Run.bind_of_error hfirst, Run.bind_of_error hfirst]
    | ok o t =>
      rw [Run.bind_of_ok hfirst, Run.bind_of_ok hfirst]
      cases o with
      | success v rest =>
        exact Separated.allowing_eq hc.1 hc.2 into v ((hc.2 _ _ _ _ _ hfirst).trans h) t
      | signal g => rfl
  | _ => exact hc.elim

/-- A loop that asks for progress ends within its input. It calls each of its children at most once for
each element and once more, and succeeds with no more values than elements it took, but for the first
value of a separated list. More turns than there are elements would not change what it does. -/
theorem ends_within (c : Combinator σ τ ε α) (hc : c.Progresses) (x : Window τ) (s : σ) :
    c.parser x s = Noted.forget (c.noted.parser x ⟨s, []⟩) ∧
    Bounded c.element c.spare (c.Gathers s) x.length (c.noted.parser x ⟨s, []⟩) ∧
    ∀ available, x.length ≤ available → c.allowing available x s = c.parser x s :=
  ⟨Link.forget_of_agree (Link.related_combinator c x x ⟨s, []⟩ s (Window.extend_nil x).symm rfl),
    c.bounded hc x s, fun _ h => c.allowing_eq hc h s⟩

/-- Letters A with a comma after each. The last comma is tried and left. -/
theorem ends_within_letters :
    let letter : Parser Unit UInt8 (Trail UInt8) (Window UInt8) := .literal .complete [65]
    let comma : Parser Unit UInt8 (Trail UInt8) (Window UInt8) := .literal .complete [44]
    let c : Combinator Unit UInt8 (Trail UInt8) Nat := .separatedList1 .counter comma letter
    let x : Window UInt8 := .ofList [65, 44, 65, 44]
    c.Progresses ∧ c.parser x () = .ok (.success 2 (x.drop 3)) () ∧
      Call.times 1 (Noted.log (c.noted.parser x ⟨(), []⟩)) = 3 ∧
      Bounded 1 1 (c.Gathers ()) 4 (c.noted.parser x ⟨(), []⟩) ∧
      ∀ available, 4 ≤ available → c.allowing available x () = .ok (.success 2 (x.drop 3)) () := by
  intro letter comma c x
  have hc : c.Progresses := ⟨Parser.shrinks_tag _ _ _, Parser.shrinks_tag _ _ _⟩
  obtain ⟨_, hbounded, hallowing⟩ := c.ends_within hc x ()
  exact ⟨hc, rfl, rfl, hbounded, hallowing⟩

end Combinator

end Reprise
