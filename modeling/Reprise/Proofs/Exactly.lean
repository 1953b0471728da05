import Reprise.Proofs.Endings

/-!
# Exact numbers of values

Where exactly so many values are asked for, a parser is applied to what the last application left until it
has got them or gets no further one. Progress is not asked for, so this is described by the applications
alone, and every repetition of an exact number follows it, whatever it does with the values.
-/

namespace Reprise

variable {σ σ' τ ε α β κ : Type}

/-- A result belongs to itself where every state does. -/
theorem Mapped.refl {S : σ → σ → Prop} (h : ∀ t, S t t)
    (r : EStateM.Result Stop σ (Outcome τ ε α)) : Mapped id S r r := by
  cases r with
  | ok o t =>
    have hok := Mapped.ok (f := id) o (h t)
    rwa [Outcome.mapPayload_id] at hok
  | error why t => exact .stop why (h t)

namespace Parser

/-- Applications one after the other, each to what the last one left, that all get a value. -/
inductive Gets (p : Parser σ τ ε α) : Window τ → σ → List α → Window τ → σ → Prop where
  | none {x : Window τ} {s : σ} : Gets p x s [] x s
  | more {x y z : Window τ} {s t u : σ} {v : α} {vs : List α} : p x s = .ok (.success v y) t →
    Gets p y t vs z u → Gets p x s (v :: vs) z u

/-- The course of asking for `n` values: those that are got one after the other, how that ends, and the
state then. -/
inductive Course (p : Parser σ τ ε α) (n : Nat) (x : Window τ) (s : σ) :
    List α → Except Stop (Ending τ ε α) → σ → Prop where
  | complete {vs : List α} {y : Window τ} {t : σ} : p.Gets x s vs y t → vs.length = n →
    Course p n x s vs (.ok (.enough vs y)) t
  | tooFew {vs : List α} {y : Window τ} {t u : σ} {e : ε} : p.Gets x s vs y t → vs.length < n →
    p y t = .ok (.signal (.error e)) u → Course p n x s vs (.ok (.tooFew y e)) u
  | handedOn {vs : List α} {y : Window τ} {t u : σ} {g : Signal ε} : p.Gets x s vs y t →
    vs.length < n → p y t = .ok (.signal g) u → g.isError = false →
    Course p n x s vs (.ok (.handedOn g)) u
  | stopped {vs : List α} {y : Window τ} {t u : σ} {why : Stop} : p.Gets x s vs y t → vs.length < n →
    p y t = .error why u → Course p n x s vs (.error why) u

variable {p : Parser σ τ ε α} {n : Nat} {x : Window τ} {s u : σ} {vs : List α}
  {ended : Except Stop (Ending τ ε α)}

theorem Course.length_le (h : p.Course n x s vs ended u) : vs.length ≤ n := by
  cases h with
  | complete _ hn => exact Nat.le_of_eq hn
  | tooFew _ hn | handedOn _ hn | stopped _ hn => exact Nat.le_of_lt hn

/-- A value more is asked for and got first. -/
theorem Course.more {y : Window τ} {t : σ} {v : α} (hp : p x s = .ok (.success v y) t)
    (h : p.Course n y t vs ended u) : ∃ ended', p.Course (n + 1) x s (v :: vs) ended' u := by
  cases h with
  | complete hgets hn => exact ⟨_, .complete (.more hp hgets) (congrArg (· + 1) hn)⟩
  | tooFew hgets hn herror => exact ⟨_, .tooFew (.more hp hgets) (Nat.succ_lt_succ hn) herror⟩
  | handedOn hgets hn hsignal hg =>
    exact ⟨_, .handedOn (.more hp hgets) (Nat.succ_lt_succ hn) hsignal hg⟩
  | stopped hgets hn hstop => exact ⟨_, .stopped (.more hp hgets) (Nat.succ_lt_succ hn) hstop⟩

theorem exists_course (p : Parser σ τ ε α) (n : Nat) (x : Window τ) (s : σ) :
    ∃ vs ended u, p.Course n x s vs ended u := by
  induction n generalizing x s with
  | zero => exact ⟨_, _, _, .complete .none rfl⟩
  | succ n ih =>
    cases hp : p x s with
    | error why u => exact ⟨_, _, _, .stopped .none (Nat.zero_lt_succ n) hp⟩
    | ok o t =>
      rcases o with ⟨v, y⟩ | (e | e | k)
      · obtain ⟨vs, ended, u, h⟩ := ih y t
        obtain ⟨ended', h'⟩ := h.more hp
        exact ⟨_, ended', u, h'⟩
      · exact ⟨_, _, _, .tooFew .none (Nat.zero_lt_succ n) hp⟩
      · exact ⟨_, _, _, .handedOn .none (Nat.zero_lt_succ n) hp rfl⟩
      · exact ⟨_, _, _, .handedOn .none (Nat.zero_lt_succ n) hp rfl⟩

end Parser

/-- The result of a repetition at `x` that ended so, where `make` takes the values. -/
def Ending.result [Payload τ ε] (x : Window τ) (kind : ErrorKind) (make : List α → β) :
    Except Stop (Ending τ ε α) → σ → EStateM.Result Stop σ (Outcome τ ε β)
  | .ok ending, u => .ok (ending.outcome x kind make) u
  | .error why, u => .error why u

/-- A change of the values of a repetition is a change of what is made of them. -/
theorem Parser.map_result [Payload τ ε] {γ : Type} {p : Parser σ τ ε β} {x : Window τ} {s u : σ}
    {kind : ErrorKind} {make : List α → β} {ended : Except Stop (Ending τ ε α)}
    (h : p x s = Ending.result x kind make ended u) (f : β → γ) :
    p.map f x s = Ending.result x kind (fun vs => f (make vs)) ended u := by
  unfold Parser.map
  rcases ended with why | ending
  · exact Run.bind_of_error h
  · refine (Run.bind_of_ok h).trans ?_
    cases ending <;> rfl

/-- A course ends with the values that were got, or with none. -/
theorem Parser.Course.result_eq [Payload τ ε] {p : Parser σ τ ε α} {n : Nat} {x : Window τ} {s u : σ}
    {vs : List α} {ended : Except Stop (Ending τ ε α)} (h : p.Course n x s vs ended u) (kind : ErrorKind)
    (make : List α → β) (u' : σ') :
    Ending.result x kind make ended u' = Ending.result x kind (fun _ => make vs) ended u' := by
  cases h <;> rfl

/-- Nothing but a complete course is a success. -/
theorem Parser.Course.success_iff [Payload τ ε] {p : Parser σ τ ε α} {n : Nat} {x : Window τ} {s u : σ}
    {vs : List α} {ended : Except Stop (Ending τ ε α)} (h : p.Course n x s vs ended u) (kind : ErrorKind)
    (v : β) (u' : σ') : (∃ rest, Ending.result x kind (fun _ => v) ended u' = .ok (.success v rest) u') ↔
      vs.length = n := by
  cases h with
  | complete _ hn => exact ⟨fun _ => hn, fun _ => ⟨_, rfl⟩⟩
  | tooFew _ hn | handedOn _ hn | stopped _ hn => exact ⟨nofun, fun heq => absurd heq (Nat.ne_of_lt hn)⟩

namespace Repetition

/-- A sink and a second parser go along with applications of a parser, where `R` links the values so far and
the state to what the sink holds and the state of the second run. -/
structure Follows (p : Parser σ τ ε α) (p' : Parser σ' τ ε α) (sink : β → α → Run σ' β)
    (R : List α → σ → β → σ' → Prop) : Prop where
  applied : ∀ {seen s held s'} (x), R seen s held s' →
    Mapped id (fun t t' => R seen t held t') (p x s) (p' x s')
  taken : ∀ {seen s held s'} (v), R seen s held s' →
    ∃ held' t', sink held v s' = .ok held' t' ∧ R (seen ++ [v]) s held' t'

variable {p : Parser σ τ ε α} {p' : Parser σ' τ ε α} {sink : β → α → Run σ' β}
  {R : List α → σ → β → σ' → Prop} {x y : Window τ} {s t : σ} {s' : σ'} {held : β} {seen vs : List α}

theorem Follows.ok (h : Follows p p' sink R) {o : Outcome τ ε α} (hp : p x s = .ok o t)
    (hs : R seen s held s') : ∃ t', p' x s' = .ok o t' ∧ R seen t held t' := by
  have hmapped := h.applied x hs
  rw [hp] at hmapped
  obtain ⟨t', hp', ht⟩ := hmapped.of_ok
  rw [Outcome.mapPayload_id] at hp'
  exact ⟨t', hp', ht⟩

theorem Follows.error (h : Follows p p' sink R) {why : Stop} (hp : p x s = .error why t)
    (hs : R seen s held s') : ∃ t', p' x s' = .error why t' ∧ R seen t held t' := by
  have hmapped := h.applied x hs
  rw [hp] at hmapped
  generalize p' x s' = r at hmapped
  cases hmapped with
  | stop _ ht => exact ⟨_, rfl, ht⟩

variable [Payload τ ε]

/-- The loop takes the values that are got. -/
theorem Follows.loop_gets (h : Follows p p' sink R) {r : Repetition} (hr : r.requireProgress = false)
    (hgets : p.Gets x s vs y t) (hs : R seen s held s') (turns k : Nat) :
    ∃ held' t', R (seen ++ vs) t held' t' ∧
      r.loop p' sink (turns + vs.length) (Counts.after k) held x s' =
        r.loop p' sink turns (Counts.after (k + vs.length)) held' y t' := by
  induction hgets generalizing seen held s' k with
  | none => exact ⟨held, s', by rwa [List.append_nil], rfl⟩
  | @more x y z s t u v vs hp hgets ih =>
    obtain ⟨t', hp', ht⟩ := h.ok hp hs
    obtain ⟨held', u', hsink, hu⟩ := h.taken v ht
    obtain ⟨held'', t'', ht'', hloop⟩ := ih hu (k + 1)
    have hturn : r.Turn p' sink ⟨held, x, s'⟩ _ ⟨held', y, u'⟩ :=
      .taken hp' (fun hprogress => nomatch hr.symm.trans hprogress) hsink
    refine ⟨held'', t'', by rwa [List.append_assoc] at ht'', ?_⟩
    rw [List.length_cons, ← Nat.add_assoc, loop_turn hturn, Counts.next_after, hloop, Nat.add_assoc,
      Nat.add_comm 1]

/-- Fewer values than were asked for are too few. -/
theorem contains_exactly_after {k n : Nat} (kind : ErrorKind) (h : k < n) :
    (exactly n kind).range.contains (Counts.after k) = false := by
  have hlt : ¬ n ≤ Counts.after k := Nat.not_le.mpr (Nat.lt_of_le_of_lt (Nat.min_le_left k _) h)
  exact congrArg (· && _) (decide_eq_false hlt)

/-- After fewer values than were asked for, what closes the loop is its result. -/
theorem Follows.run_closed (h : Follows p p' sink R) (hgets : p.Gets x s vs y t) (hs : R [] s held s')
    {n : Nat} (hn : vs.length < n) (kind : ErrorKind) : ∃ held' t', R vs t held' t' ∧
      ∀ {last result}, (exactly n kind).Closes p' sink (Counts.after vs.length) ⟨held', y, t'⟩ last result →
        (exactly n kind).run p' sink held x s' = result := by
  obtain ⟨more, hmore⟩ : ∃ more, n = more + 1 + vs.length := ⟨n - vs.length - 1, by omega⟩
  obtain ⟨held', t', ht, hloop⟩ := h.loop_gets (r := exactly n kind) rfl hgets hs (more + 1) 0
  refine ⟨held', t', ht, fun hcloses => ?_⟩
  rw [← hmore, Nat.zero_add, loop_closes hcloses more] at hloop
  rw [run_eq_loop (inverted_exactly n kind)]
  exact hloop

/-- A repetition of an exact number ends as the course of its child does. -/
theorem Follows.run_course (h : Follows p p' sink R) {n : Nat} {u : σ}
    {ended : Except Stop (Ending τ ε α)} (hcourse : p.Course n x s vs ended u) (hs : R [] s held s')
    (kind : ErrorKind) : ∃ held' u', R vs u held' u' ∧
      (exactly n kind).run p' sink held x s' = Ending.result x kind (fun _ => held') ended u' := by
  cases hcourse with
  | complete hgets hn =>
    obtain ⟨held', t', ht, hloop⟩ := h.loop_gets (r := exactly n kind) rfl hgets hs 0 0
    rw [Nat.zero_add, hn] at hloop
    rw [run_eq_loop (inverted_exactly n kind)]
    exact ⟨held', t', ht, hloop⟩
  | tooFew hgets hn herror =>
    obtain ⟨held', t', ht, hclosed⟩ := h.run_closed hgets hs hn kind
    obtain ⟨u', hp', hu⟩ := h.ok herror ht
    exact ⟨held', u', hu, hclosed (.tooFew hp' (contains_exactly_after kind hn))⟩
  | handedOn hgets hn hsignal hg =>
    obtain ⟨held', t', ht, hclosed⟩ := h.run_closed hgets hs hn kind
    obtain ⟨u', hp', hu⟩ := h.ok hsignal ht
    exact ⟨held', u', hu, hclosed (.handedOn hp' hg)⟩
  | stopped hgets hn hstop =>
    obtain ⟨held', t', ht, hclosed⟩ := h.run_closed hgets hs hn kind
    obtain ⟨u', hp', hu⟩ := h.error hstop ht
    exact ⟨held', u', hu, hclosed (.stopped hp')⟩

/-- A container takes the values of a course. -/
theorem collect_course {n : Nat} {u : σ} {ended : Except Stop (Ending τ ε α)}
    (h : p.Course n x s vs ended u) (kind : ErrorKind) (into : Container α κ) (held : κ) :
    Parser.collect (exactly n kind) into held p x s =
      Ending.result x kind (into.insertAll held) ended u := by
  have hfollows : Follows p p (fun held v => return into.insert held v)
      (fun seen s held' s' => s' = s ∧ held' = into.insertAll held seen) :=
    { applied := by
        rintro seen s held' _ x ⟨rfl, hheld⟩
        exact .refl (fun _ => ⟨rfl, hheld⟩) _
      taken := by
        rintro seen s _ _ v ⟨rfl, rfl⟩
        refine ⟨_, _, rfl, rfl, ?_⟩
        rw [Container.insertAll, Container.insertAll, List.foldl_append]
        rfl }
  obtain ⟨_, _, ⟨rfl, rfl⟩, hrun⟩ := hfollows.run_course h ⟨rfl, rfl⟩ kind
  exact hrun.trans (h.result_eq kind (into.insertAll held) _).symm

end Repetition
end Reprise
