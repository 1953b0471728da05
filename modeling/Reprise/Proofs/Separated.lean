import Reprise.Proofs.Rounds

/-!
# The course of a separated list

After the first element, in a turn the separator takes some input and another element follows. The stage
at which one of them is missing closes the list.
-/

namespace Reprise.Separated

variable {σ τ ε α β κ : Type}

/-- A turn: the separator takes some input, and an element follows it. -/
inductive Turn (into : Container α κ) (sep : Parser σ τ ε β) (p : Parser σ τ ε α)
    (a : Stage κ τ σ) : Round τ ε α → Stage κ τ σ → Prop where
  | taken {w : β} {next rest : Window τ} {v : α} {t u : σ} :
    sep a.input a.state = .ok (.success w next) t → next.length ≠ a.input.length →
    p next t = .ok (.success v rest) u →
    Turn into sep p a ⟨[⟨0, a.input, none⟩, ⟨1, next, none⟩], v⟩ ⟨into.insert a.held v, rest, u⟩

/-- A stage that closes the list, with the last calls and the result. -/
inductive Closes [Payload τ ε] (into : Container α κ) (sep : Parser σ τ ε β) (p : Parser σ τ ε α)
    (a : Stage κ τ σ) : List (Call τ ε) → EStateM.Result Stop σ (Outcome τ ε κ) → Prop where
  | ended {e : ε} {t : σ} : sep a.input a.state = .ok (.signal (.error e)) t →
    Closes into sep p a [⟨0, a.input, some (.error e)⟩] (.ok (.success a.held a.input) t)
  | refused {g : Signal ε} {t : σ} : sep a.input a.state = .ok (.signal g) t → g.isError = false →
    Closes into sep p a [⟨0, a.input, some g⟩] (.ok (.signal g) t)
  | halted {why : Stop} {t : σ} : sep a.input a.state = .error why t →
    Closes into sep p a [] (.error why t)
  | stalled {w : β} {next : Window τ} {t : σ} : sep a.input a.state = .ok (.success w next) t →
    next.length = a.input.length →
    Closes into sep p a [⟨0, a.input, none⟩] (.ok (.errorAt a.input .separatedList) t)
  | trailing {w : β} {next : Window τ} {e : ε} {t u : σ} :
    sep a.input a.state = .ok (.success w next) t → next.length ≠ a.input.length →
    p next t = .ok (.signal (.error e)) u →
    Closes into sep p a [⟨0, a.input, none⟩, ⟨1, next, some (.error e)⟩]
      (.ok (.success a.held a.input) u)
  | handedOn {w : β} {next : Window τ} {g : Signal ε} {t u : σ} :
    sep a.input a.state = .ok (.success w next) t → next.length ≠ a.input.length →
    p next t = .ok (.signal g) u → g.isError = false →
    Closes into sep p a [⟨0, a.input, none⟩, ⟨1, next, some g⟩] (.ok (.signal g) u)
  | stopped {w : β} {next : Window τ} {t u : σ} {why : Stop} :
    sep a.input a.state = .ok (.success w next) t → next.length ≠ a.input.length →
    p next t = .error why u → Closes into sep p a [⟨0, a.input, none⟩] (.error why u)

variable {into : Container α κ} {sep : Parser σ τ ε β} {p : Parser σ τ ε α} {a b : Stage κ τ σ}
  {l : Round τ ε α} {ls : List (Round τ ε α)}

theorem rounds_le (hsep : sep.Shrinks) (hp : p.Shrinks) (h : Rounds (Turn into sep p) a ls b) :
    ls.length + b.input.length ≤ a.input.length := by
  refine h.length_add_measure_le (μ := fun c => c.input.length) ?_
  rintro b l c (⟨hsuccess, hprogress, hvalue⟩)
  have hnext := Nat.lt_of_le_of_ne (hsep _ _ _ _ _ hsuccess) hprogress
  exact Nat.lt_of_le_of_lt (hp _ _ _ _ _ hvalue) hnext

theorem held_eq (h : Rounds (Turn into sep p) a ls b) :
    b.held = into.insertAll a.held (ls.map Round.value) :=
  h.foldl_eq (f := Stage.held) (by rintro b l c ⟨⟩; rfl)

theorem Turn.noted (h : Turn into sep p a l b) (seen : List (Call τ ε)) :
    Turn into (sep.noted 0) (p.noted 1) (a.noted seen) l (b.noted (seen ++ l.calls)) := by
  cases h with
  | taken hsep hprogress hp =>
    have hsep' := Parser.noted_of_ok 0 hsep seen
    have hp' := Parser.noted_of_ok 1 hp (seen ++ [⟨0, a.input, none⟩])
    rw [List.append_assoc] at hp'
    exact .taken hsep' hprogress hp'

/-- The calls of the list are those of its children. -/
theorem rounds_noted (h : Rounds (Turn into sep p) a ls b) (seen : List (Call τ ε)) :
    Rounds (Turn into (sep.noted 0) (p.noted 1)) (a.noted seen) ls
      (b.noted (seen ++ ls.flatMap Round.calls)) :=
  h.lift (fun hturn seen => hturn.noted seen) seen

variable [Payload τ ε] {last : List (Call τ ε)} {result : EStateM.Result Stop σ (Outcome τ ε κ)}

theorem turn_or_closes (into : Container α κ) (sep : Parser σ τ ε β) (p : Parser σ τ ε α)
    (a : Stage κ τ σ) :
    (∃ l b, Turn into sep p a l b) ∨ ∃ last result, Closes into sep p a last result := by
  cases hsep : sep a.input a.state with
  | error why t => exact .inr ⟨_, _, .halted hsep⟩
  | ok o t =>
    rcases o with ⟨w, next⟩ | (e | e | n)
    · by_cases hstall : next.length = a.input.length
      · exact .inr ⟨_, _, .stalled hsep hstall⟩
      · cases hp : p next t with
        | error why u => exact .inr ⟨_, _, .stopped hsep hstall hp⟩
        | ok o u =>
          rcases o with ⟨v, rest⟩ | (e | e | n)
          · exact .inl ⟨_, _, .taken hsep hstall hp⟩
          · exact .inr ⟨_, _, .trailing hsep hstall hp⟩
          · exact .inr ⟨_, _, .handedOn hsep hstall hp rfl⟩
          · exact .inr ⟨_, _, .handedOn hsep hstall hp rfl⟩
    · exact .inr ⟨_, _, .ended hsep⟩
    · exact .inr ⟨_, _, .refused hsep rfl⟩
    · exact .inr ⟨_, _, .refused hsep rfl⟩

theorem loop_turn (h : Turn into sep p a l b) (turns : Nat) :
    Parser.separatedLoop into sep p (turns + 1) a.held a.input a.state =
      Parser.separatedLoop into sep p turns b.held b.input b.state := by
  cases h with
  | taken hsep hprogress hp =>
    rw [Parser.separatedLoop, Run.bind_of_ok hsep]
    simp only [beq_eq_false_iff_ne.mpr hprogress]
    exact Run.bind_of_ok hp

/-- The loop after turns in a row. -/
theorem loop_rounds (h : Rounds (Turn into sep p) a ls b) (turns : Nat) :
    Parser.separatedLoop into sep p (turns + ls.length) a.held a.input a.state =
      Parser.separatedLoop into sep p turns b.held b.input b.state :=
  h.run_eq (fun left _ c => Parser.separatedLoop into sep p left c.held c.input c.state)
    (fun hturn left _ => loop_turn hturn left) turns

theorem loop_closes (h : Closes into sep p a last result) (turns : Nat) :
    Parser.separatedLoop into sep p (turns + 1) a.held a.input a.state = result := by
  rw [Parser.separatedLoop]
  cases h with
  | ended hsep => exact Run.bind_of_ok hsep
  | refused hsep hg => exact Passes.bind_eq hsep hg
  | halted hsep => exact Run.bind_of_error hsep
  | stalled hsep hnext =>
    rw [Run.bind_of_ok hsep]
    simp only [hnext, BEq.rfl, if_true]
    rfl
  | trailing hsep hprogress hp =>
    rw [Run.bind_of_ok hsep]
    simp only [beq_eq_false_iff_ne.mpr hprogress]
    exact Run.bind_of_ok hp
  | handedOn hsep hprogress hp hg =>
    rw [Run.bind_of_ok hsep]
    simp only [beq_eq_false_iff_ne.mpr hprogress]
    exact Passes.bind_eq hp hg
  | stopped hsep hprogress hp =>
    rw [Run.bind_of_ok hsep]
    simp only [beq_eq_false_iff_ne.mpr hprogress]
    exact Run.bind_of_error hp

theorem Closes.noted (h : Closes into sep p a last result) (seen : List (Call τ ε)) :
    Closes into (sep.noted 0) (p.noted 1) (a.noted seen) last
      (Noted.remember (seen ++ last) result) := by
  have hseen (first second : Call τ ε) : seen ++ [first, second] = seen ++ [first] ++ [second] :=
    (List.append_assoc seen [first] [second]).symm
  cases h with
  | ended hsep => exact .ended (Parser.noted_of_ok 0 hsep seen)
  | refused hsep hg => exact .refused (Parser.noted_of_ok 0 hsep seen) hg
  | halted hsep =>
    rw [List.append_nil]
    exact .halted (Parser.noted_of_error 0 hsep seen)
  | stalled hsep hnext => exact .stalled (Parser.noted_of_ok 0 hsep seen) hnext
  | trailing hsep hprogress hp =>
    rw [hseen]
    exact .trailing (Parser.noted_of_ok 0 hsep seen) hprogress (Parser.noted_of_ok 1 hp _)
  | handedOn hsep hprogress hp hg =>
    rw [hseen]
    exact .handedOn (Parser.noted_of_ok 0 hsep seen) hprogress (Parser.noted_of_ok 1 hp _) hg
  | stopped hsep hprogress hp =>
    exact .stopped (Parser.noted_of_ok 0 hsep seen) hprogress (Parser.noted_of_error 1 hp _)

/-- Turns in a row up to a stage that closes the list are the course of the loop, where it has more turns
than there are elements. -/
theorem loop_of_closes (hsep : sep.Shrinks) (hp : p.Shrinks) (h : Rounds (Turn into sep p) a ls b)
    (hcloses : Closes into sep p b last result) (seen : List (Call τ ε)) {turns : Nat}
    (hturns : a.input.length < turns) :
    Parser.separatedLoop into sep p turns a.held a.input a.state = result ∧
      Parser.separatedLoop into (sep.noted 0) (p.noted 1) turns a.held a.input ⟨a.state, seen⟩ =
        Noted.remember (seen ++ ls.flatMap Round.calls ++ last) result := by
  have hle := rounds_le hsep hp h
  obtain ⟨more, rfl⟩ : ∃ more, turns = more + 1 + ls.length := ⟨turns - 1 - ls.length, by omega⟩
  have hrun := loop_rounds h (more + 1)
  have hnoted := loop_rounds (rounds_noted h seen) (more + 1)
  exact ⟨hrun.trans (loop_closes hcloses more),
    hnoted.trans (loop_closes (hcloses.noted _) more)⟩

/-- With more turns than elements, the loop goes through its rounds and is closed by a stage, never by
the number of turns. -/
theorem exists_rounds (hsep : sep.Shrinks) (hp : p.Shrinks) (into : Container α κ) (a : Stage κ τ σ)
    (seen : List (Call τ ε)) : ∃ ls b last result, Rounds (Turn into sep p) a ls b ∧
      Closes into sep p b last result ∧
      ∀ turns, a.input.length < turns →
        Parser.separatedLoop into sep p turns a.held a.input a.state = result ∧
        Parser.separatedLoop into (sep.noted 0) (p.noted 1) turns a.held a.input ⟨a.state, seen⟩ =
          Noted.remember (seen ++ ls.flatMap Round.calls ++ last) result := by
  have total := turn_or_closes into sep p
  rcases Rounds.take_or_close total a (a.input.length + 1) with
    ⟨ls, b, h, hn⟩ | ⟨ls, b, h, hn, last, result, hcloses⟩
  · have hle := rounds_le hsep hp h
    omega
  · exact ⟨ls, b, last, result, h, hcloses, fun _ => loop_of_closes hsep hp h hcloses seen⟩

end Reprise.Separated
