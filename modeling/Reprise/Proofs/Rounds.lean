import Reprise.Proofs.Combinator

/-!
# Turns in a row

A loop takes turns until something closes it. A turn leads from one stage of the loop to the next, and
shows the calls it made and the value it got. What single turns do adds up over turns in a row.
-/

namespace Reprise

variable {σ τ ε α κ : Type} {A A' ρ R : Type*}

/-- Turns in a row from a stage, with what each of them shows, in order. -/
inductive Rounds (turn : A → ρ → A → Prop) (a : A) : List ρ → A → Prop where
  | none : Rounds turn a [] a
  | more {b c : A} {ls : List ρ} {l : ρ} : Rounds turn a ls b → turn b l c →
    Rounds turn a (ls ++ [l]) c

namespace Rounds

variable {turn : A → ρ → A → Prop} {a b : A} {ls : List ρ}

/-- Turns that use up some of a measure are no more than there was of it. -/
theorem length_add_measure_le {μ : A → Nat} (hturn : ∀ {b l c}, turn b l c → μ c < μ b)
    (h : Rounds turn a ls b) : ls.length + μ b ≤ μ a := by
  induction h with
  | none => simp
  | more _ hlast ih =>
    have hlt := hturn hlast
    rw [List.length_append, List.length_singleton]
    omega

/-- A quantity that grows by a part of its own with each turn. -/
theorem foldl_eq {β γ : Type*} {f : A → γ} {step : γ → β → γ} {g : ρ → β}
    (hturn : ∀ {b l c}, turn b l c → f c = step (f b) (g l)) (h : Rounds turn a ls b) :
    f b = (ls.map g).foldl step (f a) := by
  induction h with
  | none => rfl
  | more _ hlast ih => rw [hturn hlast, ih, List.map_append, List.foldl_append]; rfl

/-- Turns are taken one after the other by a function of the turns left and of those taken. -/
theorem run_eq (run : Nat → Nat → A → R)
    (hturn : ∀ {b l c}, turn b l c → ∀ left taken, run (left + 1) taken b = run left (taken + 1) c)
    (h : Rounds turn a ls b) (left : Nat) : run (left + ls.length) 0 a = run left ls.length b := by
  induction h generalizing left with
  | none => rfl
  | more _ hlast ih =>
    rw [List.length_append, List.length_singleton, ← hturn hlast, ← ih, Nat.add_right_comm]
    rfl

/-- Turns of one kind that are turns of another kind between other stages. -/
theorem lift {turn' : A' → ρ → A' → Prop} {γ : Type*} {f : A → List γ → A'} {g : ρ → List γ}
    (hturn : ∀ {b l c}, turn b l c → ∀ seen, turn' (f b seen) l (f c (seen ++ g l)))
    (h : Rounds turn a ls b) (seen : List γ) :
    Rounds turn' (f a seen) ls (f b (seen ++ ls.flatMap g)) := by
  induction h with
  | none =>
    rw [List.flatMap_nil, List.append_nil]
    exact .none
  | more _ hlast ih =>
    have h := ih.more (hturn hlast _)
    rwa [List.append_assoc, ← List.flatMap_singleton g, ← List.flatMap_append] at h

/-- Where every stage has a turn or is closed, any number of turns is taken, or a stage before is
closed. -/
theorem take_or_close {closed : A → Prop} (total : ∀ b, (∃ l c, turn b l c) ∨ closed b) (a : A)
    (n : Nat) : (∃ ls b, Rounds turn a ls b ∧ ls.length = n) ∨
      ∃ ls b, Rounds turn a ls b ∧ ls.length < n ∧ closed b := by
  induction n with
  | zero => exact .inl ⟨[], a, .none, rfl⟩
  | succ n ih =>
    rcases ih with ⟨ls, b, hrounds, hn⟩ | ⟨ls, b, hrounds, hn, hclosed⟩
    · rcases total b with ⟨l, c, hturn⟩ | hclosed
      · refine .inl ⟨ls ++ [l], c, hrounds.more hturn, ?_⟩
        rw [List.length_append, List.length_singleton, hn]
      · exact .inr ⟨ls, b, hrounds, Nat.lt_succ_of_le (Nat.le_of_eq hn), hclosed⟩
    · exact .inr ⟨ls, b, hrounds, Nat.lt_succ_of_lt hn, hclosed⟩

end Rounds

/-- Where a loop stands: what it holds, what is left of the input, and the state. -/
structure Stage (κ τ σ : Type) where
  held : κ
  input : Window τ
  state : σ

/-- What a turn shows: the calls it made and the value it got. -/
structure Round (τ ε α : Type) where
  calls : List (Call τ ε)
  value : α

/-- A stage with the calls so far. -/
def Stage.noted (a : Stage κ τ σ) (calls : List (Call τ ε)) : Stage κ τ (Noted σ τ ε) :=
  ⟨a.held, a.input, ⟨a.state, calls⟩⟩

/-- A result with the calls that led to it. -/
def Noted.remember (calls : List (Call τ ε)) :
    EStateM.Result Stop σ α → EStateM.Result Stop (Noted σ τ ε) α
  | .ok v t => .ok v ⟨t, calls⟩
  | .error why t => .error why ⟨t, calls⟩

theorem Noted.remember_inj {calls calls' : List (Call τ ε)} {result : EStateM.Result Stop σ α}
    (h : remember calls result = remember calls' result) : calls = calls' := by
  cases result <;> cases h <;> rfl

end Reprise
