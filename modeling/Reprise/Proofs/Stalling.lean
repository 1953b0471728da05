import Reprise.Proofs.Repeating

/-!
# Stalling

A parser that succeeds on every input, as one that may take nothing does, never tells a repetition to stop. Its
remainders get shorter until it takes nothing from one of them, and a repetition without an upper bound comes to
that point before its counts are used up. So it ends there, in an error of its own.
-/

namespace Reprise

variable {σ τ ε α β κ : Type}

namespace Parser

/-- Succeeds on every input. -/
def Succeeds (p : Parser σ τ ε α) : Prop :=
  ∀ x s, ∃ v rest t, p x s = .ok (.success v rest) t

/-- Applied to what it leaves, over and over, a parser takes input until it takes nothing. `Stalls p x s y t`
says that `y` is the first input from which it takes nothing, and `t` the state behind that application. -/
inductive Stalls (p : Parser σ τ ε α) : Window τ → σ → Window τ → σ → Prop where
  | here {x rest : Window τ} {s t : σ} {v : α} : p x s = .ok (.success v rest) t →
    rest.length = x.length → Stalls p x s x t
  | further {x y z : Window τ} {s t u : σ} {v : α} : p x s = .ok (.success v y) t →
    y.length ≠ x.length → Stalls p y t z u → Stalls p x s z u

/-- Remainders can not get shorter without end. -/
theorem exists_stalls {p : Parser σ τ ε α} (hsucceeds : p.Succeeds) (hp : p.Shrinks) (x : Window τ) (s : σ) :
    ∃ y t, p.Stalls x s y t := by
  induction hn : x.length using Nat.strong_induction_on generalizing x s with
  | h n ih =>
    obtain ⟨v, rest, t, hsuccess⟩ := hsucceeds x s
    by_cases hrest : rest.length = x.length
    · exact ⟨x, t, .here hsuccess hrest⟩
    · have hlt : rest.length < n := hn ▸ Nat.lt_of_le_of_ne (hp _ _ _ _ _ hsuccess) hrest
      obtain ⟨y, u, hstalls⟩ := ih rest.length hlt rest t rfl
      exact ⟨y, u, .further hsuccess hrest hstalls⟩

theorem succeeds_takeWhile [Payload τ ε] (test : τ → Bool) (kind : ErrorKind) :
    (takeWhile test 0 kind : Parser σ τ ε (Window τ)).Succeeds := by
  intro x s
  exact ⟨_, _, s, congrFun (takeWhile_eq test 0 kind x) s⟩

end Parser

namespace Repetition

variable [Payload τ ε] {p : Parser σ τ ε α} {x y : Window τ} {s t : σ}

/-- The loop ends where its child takes nothing, if it has a turn for every element before and one more. -/
theorem loop_of_stalls {r : Repetition} (hr : r.requireProgress = true) (hp : p.Shrinks)
    (h : p.Stalls x s y t) (F : β → α → β) {turns : Nat} (hturns : x.length < turns) (i : Nat) (held : β) :
    r.loop p (fun held v => return F held v) turns i held x s = .ok (.errorAt y r.kind) t := by
  induction h generalizing turns i held with
  | @here x rest s t v hsuccess hrest =>
    have hcloses : r.Closes p (fun held v => return F held v) i ⟨held, x, s⟩ _ _ :=
      .stalled hsuccess hr hrest
    obtain ⟨more, hmore⟩ := Nat.exists_eq_succ_of_ne_zero (Nat.ne_zero_of_lt hturns)
    rw [hmore]
    exact loop_closes hcloses more
  | @further x y z s t u v hsuccess hrest _ ih =>
    have hturn : r.Turn p (fun held v => return F held v) ⟨held, x, s⟩ _ ⟨F held v, y, t⟩ :=
      .taken hsuccess (fun _ => hrest) rfl
    have hlt : y.length < x.length := Nat.lt_of_le_of_ne (hp _ _ _ _ _ hsuccess) hrest
    obtain ⟨more, hmore⟩ := Nat.exists_eq_succ_of_ne_zero (Nat.ne_zero_of_lt hturns)
    rw [hmore] at hturns ⊢
    exact (loop_turn hturn more i).trans (ih (Nat.lt_of_lt_of_le hlt (Nat.le_of_lt_succ hturns)) _ _)

/-- Repetitions that go on until their child does not: they have no upper bound, and ask for progress. -/
structure Unbounded (r : Repetition) : Prop where
  inverted : r.range.inverted = false
  counts : r.counts = .upTo largestCount ∨ r.counts = .endless
  progress : r.requireProgress = true

theorem Unbounded.lt_turns {r : Repetition} (h : r.Unbounded) {available : Nat}
    (hlt : available < largestCount) : available < r.counts.turns available := by
  rcases h.counts with hcounts | hcounts
  · rwa [hcounts]
  · rw [hcounts]
    exact Nat.lt_succ_self available

theorem unbounded_within (low : Nat) (kind : ErrorKind) :
    (within (Bounds.atLeast low).toRange kind).Unbounded := ⟨rfl, .inl rfl, rfl⟩

theorem unbounded_fold (low : Nat) : (fold (Bounds.atLeast low).toRange).Unbounded :=
  ⟨rfl, .inr rfl, rfl⟩

/-- Over a child that comes to take nothing, a repetition without an upper bound ends there. -/
theorem Unbounded.run_stalls {r : Repetition} (h : r.Unbounded) (hp : p.Shrinks)
    (hstalls : p.Stalls x s y t) (hx : x.length < largestCount) (F : β → α → β) (held : β) :
    r.run p (fun held v => return F held v) held x s = .ok (.errorAt y r.kind) t := by
  rw [run_eq_loop h.inverted]
  exact loop_of_stalls h.progress hp hstalls F (h.lt_turns hx) 0 held

theorem Unbounded.foldOver_stalls {r : Repetition} (h : r.Unbounded) (hp : p.Shrinks)
    (hstalls : p.Stalls x s y t) (hx : x.length < largestCount) {init : Run σ β} {start : β} {s₀ : σ}
    (hinit : init s₀ = .ok start s) (step : β → α → β) :
    Parser.foldOver r init step p x s₀ = .ok (.errorAt y r.kind) t :=
  (Run.bind_of_ok hinit).trans (h.run_stalls hp hstalls hx step start)

/-- A child that never signals ends a repetition without an upper bound by taking nothing. There is a first input
in the chain of its remainders from which it takes nothing, and whatever is made of the values, the outcome is
a fresh error of the repetition's own kind at that input. Folds run their child from the state in which their
start was made. To go on without a lower bound is to go on at least zero times. -/
theorem stalls_where_nothing_taken (hsucceeds : p.Succeeds) (hp : p.Shrinks) (hx : x.length < largestCount)
    (s : σ) : ∃ y t, p.Stalls x s y t ∧
      (∀ {κ : Type} (into : Container α κ),
        Parser.many0 into p x s = .ok (.errorAt y .many0) t ∧
        Parser.many1 into p x s = .ok (.errorAt y .many1) t ∧
        Parser.many Bounds.unbounded.toRange into p x s = .ok (.errorAt y .many) t ∧
        ∀ low, Parser.many (Bounds.atLeast low).toRange into p x s = .ok (.errorAt y .many) t) ∧
      Parser.many0Count p x s = .ok (.errorAt y .many0Count) t ∧
      Parser.many1Count p x s = .ok (.errorAt y .many1Count) t ∧
      ∀ {β : Type} (init : Run σ β) (step : β → α → β) (start : β) (s₀ : σ), init s₀ = .ok start s →
        Parser.foldMany0 init step p x s₀ = .ok (.errorAt y .foldMany0) t ∧
        Parser.foldMany1 init step p x s₀ = .ok (.errorAt y .foldMany1) t ∧
        Parser.fold Bounds.unbounded.toRange init step p x s₀ = .ok (.errorAt y .fold) t ∧
        ∀ low, Parser.fold (Bounds.atLeast low).toRange init step p x s₀ = .ok (.errorAt y .fold) t := by
  obtain ⟨y, t, hstalls⟩ := p.exists_stalls hsucceeds hp x s
  have hwithin (low : Nat) (kind : ErrorKind) {β : Type} (F : β → α → β) (held : β) :
      (within (Bounds.atLeast low).toRange kind).run p (fun held v => return F held v) held x s =
        .ok (.errorAt y kind) t :=
    (unbounded_within low kind).run_stalls hp hstalls hx F held
  refine ⟨y, t, hstalls, fun into => ?_, ?_, ?_, fun init step start s₀ hinit => ?_⟩
  · exact ⟨hwithin 0 .many0 into.insert into.empty, hwithin 1 .many1 into.insert into.empty,
      hwithin 0 .many into.insert into.empty, fun low => hwithin low .many into.insert into.empty⟩
  · exact hwithin 0 .many0Count Container.counter.insert 0
  · exact hwithin 1 .many1Count Container.counter.insert 0
  · have hfold {r : Repetition} (hr : r.Unbounded) :
        Parser.foldOver r init step p x s₀ = .ok (.errorAt y r.kind) t :=
      hr.foldOver_stalls hp hstalls hx hinit step
    exact ⟨hfold (unbounded_within 0 .foldMany0), hfold (unbounded_within 1 .foldMany1),
      hfold (unbounded_fold 0), fun low => hfold (unbounded_fold low)⟩

/-- Digits, of which none are behind the first two, are looked for over and over. -/
theorem stalls_where_nothing_taken_digits :
    let p : Parser Unit UInt8 (Trail UInt8) (Window UInt8) := .digits 0
    let x : Window UInt8 := .ofList [49, 50, 65]
    p.Succeeds ∧ p.Shrinks ∧ x.length < largestCount ∧ p.Stalls x () (x.drop 2) () ∧
      Parser.many1 .sequence p x () = .ok (.signal (.error ⟨⟨x.drop 2, .many1⟩, []⟩)) () ∧
      Parser.fold (Bounds.atLeast 3).toRange (pure 0) (fun n _ => n + 1) p x () =
        .ok (.signal (.error ⟨⟨x.drop 2, .fold⟩, []⟩)) () := by
  intro p x
  have hsucceeds : p.Succeeds := Parser.succeeds_takeWhile _ _
  have hp : p.Shrinks := Parser.shrinks_takeWhile _ _ _
  have hx : x.length < largestCount := by decide
  obtain ⟨y, t, hstalls, hmany, -, -, hfold⟩ := stalls_where_nothing_taken hsucceeds hp hx ()
  have hrun : Parser.many1 .sequence p x () = .ok (.signal (.error ⟨⟨x.drop 2, .many1⟩, []⟩)) () := rfl
  cases (hmany .sequence).2.1.symm.trans hrun
  exact ⟨hsucceeds, hp, hx, hstalls, hrun, (hfold (pure 0) (fun n _ => n + 1) 0 () rfl).2.2.2 3⟩

end Repetition
end Reprise
