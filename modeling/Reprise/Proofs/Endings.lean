import Reprise.Proofs.Progress

/-!
# Collecting, counting and folding

A repetition ends in the same way whatever is made of its values. Repetitions with ranges that can not
be told apart within an input share their endings; they differ in the kind of error they write only.
-/

namespace Reprise

variable {σ τ ε α β : Type}

/-- How a repetition ends, apart from the kind it writes and from what it makes of the values. -/
inductive Ending (τ ε α : Type) where
  | inverted
  | enough (values : List α) (rest : Window τ)
  | tooFew (input : Window τ) (payload : ε)
  | stalled (input : Window τ)
  | handedOn (g : Signal ε)

namespace Ending

variable [Payload τ ε]

/-- The outcome of a repetition at `x`, where its errors are of a kind and `make` takes the values. -/
def outcome (x : Window τ) (kind : ErrorKind) (make : List α → β) : Ending τ ε α → Outcome τ ε β
  | inverted => .failureAt x kind
  | enough vs rest => .success (make vs) rest
  | tooFew y e => .signal (.error (Payload.append y kind e))
  | stalled y => .errorAt y kind
  | handedOn g => .signal g

/-- The values in order of arrival. -/
def collected (ending : Run σ (Ending τ ε α)) (x : Window τ) (kind : ErrorKind) :
    Run σ (Outcome τ ε (Array α)) :=
  outcome x kind List.toArray <$> ending

/-- The number of values. -/
def counted (ending : Run σ (Ending τ ε α)) (x : Window τ) (kind : ErrorKind) :
    Run σ (Outcome τ ε Nat) :=
  outcome x kind List.length <$> ending

/-- The left fold of the values, from a start that is made once, before anything else. -/
def folded (ending : Run σ (Ending τ ε α)) (x : Window τ) (kind : ErrorKind) (init : Run σ β)
    (step : β → α → β) : Run σ (Outcome τ ε β) := do
  let start ← init
  outcome x kind (List.foldl step start) <$> ending

end Ending

namespace Repetition

/-- Repetitions that can not be told apart in `n` turns, but for the kind they write. Both ask for
progress. -/
structure Alike (n : Nat) (r r' : Repetition) : Prop where
  inverted : r'.range.inverted = r.range.inverted
  contains : ∀ k, r'.range.contains (Counts.after k) = r.range.contains (Counts.after k)
  size_eq : ∀ k ≤ n, r.counts.size = k → r'.counts.size = k
  lt_size : ∀ k ≤ n, (k : ℕ∞) < r.counts.size → (k : ℕ∞) < r'.counts.size
  progress : r.requireProgress = true
  progress' : r'.requireProgress = true

/-- Repetitions that differ in the kind they write only. -/
theorem Alike.of_range {r : Repetition} (hr : r.requireProgress = true) (n : Nat) (kind : ErrorKind) :
    Alike n r { r with kind := kind } where
  inverted := rfl
  contains _ := rfl
  size_eq _ _ h := h
  lt_size _ _ h := h
  progress := hr
  progress' := hr

/-- Without an upper bound, or with one that is the largest count, with or without an end of counts. -/
theorem alike_capped {low n : Nat} (hlow : low ≤ largestCount) (kind : ErrorKind) :
    Alike n (many (Bounds.atLeast low).toRange)
      (within (Bounds.inclusive low largestCount).toRange kind) where
  inverted := decide_eq_false (Nat.not_lt.mpr hlow)
  contains k := by
    have hk : Counts.after k ≤ largestCount := Nat.min_le_right k largestCount
    simp [within, many, Bounds.toRange, Bounds.inclusive, Bounds.atLeast, Bounds.contains, hk]
  size_eq _ _ h := h
  lt_size _ _ h := h
  progress := rfl
  progress' := rfl

theorem alike_endless {low n : Nat} (hn : n < largestCount) :
    Alike n (many (Bounds.atLeast low).toRange) (fold (Bounds.atLeast low).toRange) where
  inverted := rfl
  contains _ := rfl
  size_eq k hk h := by
    have heq : largestCount = k := Nat.cast_inj.mp h
    omega
  lt_size k _ _ := ENat.natCast_lt_top k
  progress := rfl
  progress' := rfl

/-- Bounds with and without their last count. -/
theorem Bounds.toRange_exclusive (low high : Nat) :
    (Bounds.exclusive low (high + 1)).toRange = (Bounds.inclusive low high).toRange := by
  have hcontains : (Bounds.exclusive low (high + 1)).contains = (Bounds.inclusive low high).contains := by
    funext k
    change (decide (low ≤ k) && decide (k < high + 1)) = (decide (low ≤ k) && decide (k ≤ high))
    rw [decide_eq_decide.mpr Nat.lt_succ_iff]
  unfold Bounds.toRange
  rw [hcontains]
  rfl

variable {r r' : Repetition} {p : Parser σ τ ε α} {n : Nat}

/-- The turns of one repetition are those of the other, whatever their sinks make of the values. -/
theorem Alike.rounds (h : Alike n r r') (F : β → α → β) (held : β)
    {x : Window τ} {s : σ} {b : Stage Unit τ σ} {ls : List (Round τ ε α)}
    (hrounds : Rounds (r.Turn p fun _ _ => return ()) ⟨(), x, s⟩ ls b) :
    Rounds (r'.Turn p fun held v => return F held v) ⟨held, x, s⟩ ls
      ⟨(ls.map Round.value).foldl F held, b.input, b.state⟩ := by
  have hlift : Rounds (r'.Turn p fun held v => return F held v) _ ls _ := hrounds.lift
    (f := fun c vs => ⟨vs.foldl F held, c.input, c.state⟩) (g := fun l => [l.value]) (by
      rintro b l c ⟨hp, hprogress, hsink⟩ vs
      refine .taken hp (fun _ => hprogress h.progress) ?_
      rw [List.foldl_append]
      cases hsink
      rfl) []
  rwa [List.nil_append, ← List.map_eq_flatMap] at hlift

variable [Payload τ ε]

/-- What ends one repetition ends the other, in the same way. -/
theorem Alike.finishes {k : Nat} (hk : k ≤ n) {b : Stage Unit τ σ} {last : List (Call τ ε)}
    {result : EStateM.Result Stop σ (Outcome τ ε Unit)} {x : Window τ}
    (hfinishes : r.Finishes p (fun _ _ => return ()) k (Counts.after k) b last result)
    (vs : List α) : ∃ ending : Run σ (Ending τ ε α), ∀ {r' : Repetition}, Alike n r r' →
      ∀ {β : Type} (F : β → α → β) (held : β),
        r'.Finishes p (fun held v => return F held v) k (Counts.after k)
          ⟨vs.foldl F held, b.input, b.state⟩ last
          ((Ending.outcome x r'.kind (List.foldl F held) <$> ending) b.state) := by
  cases hfinishes with
  | exhausted hsize =>
    exact ⟨fun _ => .ok (.enough vs b.input) b.state, fun h _ _ _ => .exhausted (h.size_eq k hk hsize)⟩
  | closed hlt hcloses =>
    cases hcloses with
    | @enough e t hp hcount =>
      exact ⟨fun _ => .ok (.enough vs b.input) t, fun h _ _ _ => .closed (h.lt_size k hk hlt)
        (.enough hp ((h.contains k).trans hcount))⟩
    | @tooFew e t hp hcount =>
      exact ⟨fun _ => .ok (.tooFew b.input e) t, fun h _ _ _ => .closed (h.lt_size k hk hlt)
        (.tooFew hp ((h.contains k).trans hcount))⟩
    | @handedOn g t hp hg =>
      exact ⟨fun _ => .ok (.handedOn g) t, fun h _ _ _ => .closed (h.lt_size k hk hlt)
        (.handedOn hp hg)⟩
    | @stalled v rest t hp _ hrest =>
      exact ⟨fun _ => .ok (.stalled b.input) t, fun h _ _ _ => .closed (h.lt_size k hk hlt)
        (.stalled hp h.progress' hrest)⟩
    | @stopped why t hp =>
      exact ⟨fun _ => .error why t, fun h _ _ _ => .closed (h.lt_size k hk hlt) (.stopped hp)⟩
    | refused _ _ hsink => cases hsink

/-- The ending that repetitions share at an input and in a state. -/
theorem exists_ending_at (hp : p.Shrinks) (hr : r.requireProgress = true) (x : Window τ) (s : σ) :
    ∃ ending : Run σ (Ending τ ε α), ∀ {r' : Repetition}, Alike x.length r r' →
      ∀ {β : Type} (F : β → α → β) (held : β), r'.run p (fun held v => return F held v) held x s =
        (Ending.outcome x r'.kind (List.foldl F held) <$> ending) s := by
  cases hinverted : r.range.inverted with
  | true =>
    refine ⟨pure .inverted, fun h _ F held => ?_⟩
    rw [run_inverted (h.inverted.trans hinverted)]
    rfl
  | false =>
    obtain ⟨ls, b, hrounds, hfinishes⟩ :=
      exists_rounds hp (fun _ => hr) (fun _ _ => return ()) ⟨(), x, s⟩
    obtain ⟨last, result, hfinishes⟩ := hfinishes (Counts.after ls.length)
    have hle : ls.length ≤ x.length := Nat.le_of_add_right_le (rounds_le hp hr hrounds)
    obtain ⟨ending, hending⟩ := Alike.finishes hle (x := x) hfinishes (ls.map Round.value)
    refine ⟨fun _ => ending b.state, fun h _ F held => ?_⟩
    rw [run_eq_loop (h.inverted.trans hinverted)]
    have hrounds' := h.rounds F held hrounds
    exact loop_of_finishes hrounds' (hending h F held) fun hlt =>
      lt_turns hp (fun _ => h.progress') hrounds' hlt (Nat.le_refl x.length)

/-- Repetitions that are alike share their endings. -/
theorem exists_ending (hp : p.Shrinks) (hr : r.requireProgress = true) (x : Window τ) :
    ∃ ending : Run σ (Ending τ ε α), ∀ {r' : Repetition}, Alike x.length r r' →
      ∀ {β : Type} (F : β → α → β) (held : β), r'.run p (fun held v => return F held v) held x =
        Ending.outcome x r'.kind (List.foldl F held) <$> ending := by
  choose ending hending using exists_ending_at hp hr x
  refine ⟨fun s => ending s s, fun h _ F held => funext fun s => ?_⟩
  exact hending s h F held

/-- A repetition ends so at an input, whether it collects, counts or folds. -/
structure EndsIn (r : Repetition) (p : Parser σ τ ε α) (x : Window τ)
    (ending : Run σ (Ending τ ε α)) : Prop where
  collected : Parser.collect r .sequence #[] p x = Ending.collected ending x r.kind
  counted : Parser.countOver r p x = Ending.counted ending x r.kind
  folded : ∀ {β : Type} (init : Run σ β) (step : β → α → β),
    Parser.foldOver r init step p x = Ending.folded ending x r.kind init step

theorem exists_endsIn (hp : p.Shrinks) (hr : r.requireProgress = true) (x : Window τ) :
    ∃ ending : Run σ (Ending τ ε α), ∀ {r' : Repetition}, Alike x.length r r' →
      r'.EndsIn p x ending := by
  obtain ⟨ending, hending⟩ := exists_ending hp hr x
  refine ⟨ending, fun h => ⟨?_, ?_, fun init step => ?_⟩⟩
  · have hpush : List.foldl Array.push #[] = (List.toArray : List α → Array α) := by
      funext vs
      simp
    have hcollect := hending h Array.push #[]
    rwa [hpush] at hcollect
  · have hlength : List.foldl Container.counter.insert 0 = (List.length : List α → Nat) := by
      funext vs
      exact (Container.insertAll_counter vs 0).trans (Nat.zero_add _)
    have hcount := hending h Container.counter.insert 0
    rwa [hlength] at hcount
  · exact congrArg (init >>= ·) (funext fun start => hending h step start)

/-- An array is not made larger for values that are announced. -/
theorem manyBetween_sequence (low high : Nat) (p : Parser σ τ ε α) :
    Parser.manyBetween low high .sequence p =
      Parser.collect (.manyBetween low high) .sequence #[] p := by
  unfold Parser.manyBetween
  exact congrArg (Parser.collect _ Container.sequence · p) (ite_self _)

/-- Collecting, counting and folding are the same repetition. Over a child that never leaves more than
it got, and an input whose turns can be counted, the parsers of each group share one ending, of which
they make an array of values, their number or their left fold: those that go on as long as they can,
those that need one value at least, and those between two bounds, inverted ones included. -/
theorem share_endings (hp : p.Shrinks) {x : Window τ} (hx : x.length < largestCount) :
    (∃ ending : Run σ (Ending τ ε α),
      Parser.many0 .sequence p x = Ending.collected ending x .many0 ∧
      Parser.many Bounds.unbounded.toRange .sequence p x = Ending.collected ending x .many ∧
      Parser.manyBetween 0 largestCount .sequence p x = Ending.collected ending x .manyBetween ∧
      Parser.many0Count p x = Ending.counted ending x .many0Count ∧
      ∀ {β : Type} (init : Run σ β) (step : β → α → β),
        Parser.foldMany0 init step p x = Ending.folded ending x .foldMany0 init step ∧
        Parser.fold Bounds.unbounded.toRange init step p x = Ending.folded ending x .fold init step) ∧
    (∃ ending : Run σ (Ending τ ε α),
      Parser.many1 .sequence p x = Ending.collected ending x .many1 ∧
      Parser.many (Bounds.atLeast 1).toRange .sequence p x = Ending.collected ending x .many ∧
      Parser.manyBetween 1 largestCount .sequence p x = Ending.collected ending x .manyBetween ∧
      Parser.many1Count p x = Ending.counted ending x .many1Count ∧
      ∀ {β : Type} (init : Run σ β) (step : β → α → β),
        Parser.foldMany1 init step p x = Ending.folded ending x .foldMany1 init step ∧
        Parser.fold (Bounds.atLeast 1).toRange init step p x = Ending.folded ending x .fold init step) ∧
    ∀ low high, ∃ ending : Run σ (Ending τ ε α),
      Parser.manyBetween low high .sequence p x = Ending.collected ending x .manyBetween ∧
      Parser.many (Bounds.inclusive low high).toRange .sequence p x =
        Ending.collected ending x .many ∧
      Parser.many (Bounds.exclusive low (high + 1)).toRange .sequence p x =
        Ending.collected ending x .many ∧
      ∀ {β : Type} (init : Run σ β) (step : β → α → β),
        Parser.foldManyBetween low high init step p x =
          Ending.folded ending x .foldManyBetween init step ∧
        Parser.fold (Bounds.inclusive low high).toRange init step p x =
          Ending.folded ending x .fold init step ∧
        Parser.fold (Bounds.exclusive low (high + 1)).toRange init step p x =
          Ending.folded ending x .fold init step := by
  refine ⟨?_, ?_, fun low high => ?_⟩
  · obtain ⟨ending, h⟩ := exists_endsIn hp (r := many Bounds.unbounded.toRange) rfl x
    refine ⟨ending, (h (.of_range rfl _ .many0)).collected, (h (.of_range rfl _ .many)).collected, ?_,
      (h (.of_range rfl _ .many0Count)).counted, fun init step =>
      ⟨(h (.of_range rfl _ .foldMany0)).folded init step, (h (alike_endless hx)).folded init step⟩⟩
    rw [manyBetween_sequence]
    exact (h (alike_capped (Nat.zero_le _) .manyBetween)).collected
  · obtain ⟨ending, h⟩ := exists_endsIn hp (r := many (Bounds.atLeast 1).toRange) rfl x
    refine ⟨ending, (h (.of_range rfl _ .many1)).collected, (h (.of_range rfl _ .many)).collected, ?_,
      (h (.of_range rfl _ .many1Count)).counted, fun init step =>
      ⟨(h (.of_range rfl _ .foldMany1)).folded init step, (h (alike_endless hx)).folded init step⟩⟩
    rw [manyBetween_sequence]
    exact (h (alike_capped (by decide) .manyBetween)).collected
  · obtain ⟨ending, h⟩ := exists_endsIn hp (r := many (Bounds.inclusive low high).toRange) rfl x
    rw [Bounds.toRange_exclusive, manyBetween_sequence]
    exact ⟨ending, (h (.of_range rfl _ .manyBetween)).collected, (h (.of_range rfl _ .many)).collected,
      (h (.of_range rfl _ .many)).collected, fun init step =>
      ⟨(h (.of_range rfl _ .foldManyBetween)).folded init step,
        (h (.of_range rfl _ .fold)).folded init step, (h (.of_range rfl _ .fold)).folded init step⟩⟩

/-- Letters A in front of another letter. -/
theorem share_endings_letters :
    let p : Parser Unit UInt8 (Trail UInt8) (Window UInt8) := .literal .complete [65]
    let x : Window UInt8 := .ofList [65, 65, 66]
    p.Shrinks ∧ x.length < largestCount ∧
      (∃ ending : Run Unit (Ending UInt8 (Trail UInt8) (Window UInt8)),
        Parser.many0 .sequence p x = Ending.collected ending x .many0 ∧
        Parser.many0Count p x = Ending.counted ending x .many0Count) ∧
      Parser.many0 .sequence p x () =
        .ok (.success #[x.take 1, (x.drop 1).take 1] (x.drop 2)) () := by
  intro p x
  have hp : p.Shrinks := Parser.shrinks_tag _ _ _
  have hx : x.length < largestCount := by decide
  obtain ⟨⟨ending, hmany, _, _, hcount, _⟩, _⟩ := share_endings hp hx
  exact ⟨hp, hx, ⟨ending, hmany, hcount⟩, rfl⟩

end Repetition
end Reprise
