import Mathlib.Data.ENat.Basic
import Reprise.Proofs.Rounds

/-!
# The course of a repetition

Step by step, a repetition takes turns: the child gets a value and the sink takes it. It ends before a
turn where the child signals, makes no progress or stops, or when its counts are used up. This describes
the loop without the loop: by what happened, not by what is done next.
-/

namespace Reprise

variable {σ τ ε α β : Type}

namespace Counts

/-- How many counts a sequence has. -/
def size : Counts → ℕ∞
  | upTo limit => limit
  | endless => ⊤

theorem turns_of_size_eq {c : Counts} {k : Nat} (h : c.size = k) (available : Nat) :
    c.turns available = k := by
  cases c with
  | upTo limit => exact Nat.cast_inj.mp h
  | endless => exact absurd h.symm (ENat.natCast_ne_top k)

/-- The count after `k` turns. It stays at the largest one. -/
def after (k : Nat) : Nat := min k largestCount

theorem after_zero : after 0 = 0 := Nat.zero_min _

theorem next_after (k : Nat) : next (after k) = after (k + 1) := by
  unfold next after
  split <;> omega

theorem after_of_le {k : Nat} (h : k ≤ largestCount) : after k = k := Nat.min_eq_left h

end Counts

namespace Repetition

/-- A turn: the child gets a value, with progress where it is required, and the sink takes it. -/
inductive Turn (r : Repetition) (p : Parser σ τ ε α) (sink : β → α → Run σ β) (a : Stage β τ σ) :
    Round τ ε α → Stage β τ σ → Prop where
  | taken {v : α} {t : σ} {b : Stage β τ σ} : p a.input a.state = .ok (.success v b.input) t →
    (r.requireProgress = true → b.input.length ≠ a.input.length) →
    sink a.held v t = .ok b.held b.state → Turn r p sink a ⟨[⟨0, a.input, none⟩], v⟩ b

variable {r : Repetition} {p : Parser σ τ ε α} {sink : β → α → Run σ β} {a b : Stage β τ σ}
  {l : Round τ ε α} {ls : List (Round τ ε α)}

theorem Turn.input_lt (hp : p.Shrinks) (hr : r.requireProgress = true) (h : r.Turn p sink a l b) :
    b.input.length < a.input.length := by
  cases h with
  | taken hsuccess hprogress _ => exact Nat.lt_of_le_of_ne (hp _ _ _ _ _ hsuccess) (hprogress hr)

/-- With progress there are no more turns than elements. -/
theorem rounds_le (hp : p.Shrinks) (hr : r.requireProgress = true)
    (h : Rounds (r.Turn p sink) a ls b) : ls.length + b.input.length ≤ a.input.length :=
  h.length_add_measure_le (μ := fun c => c.input.length) fun hturn => hturn.input_lt hp hr

/-- A sink without effects folds the values. -/
theorem held_eq {F : β → α → β} (h : Rounds (r.Turn p fun held v => return F held v) a ls b) :
    b.held = (ls.map Round.value).foldl F a.held := by
  refine h.foldl_eq (f := Stage.held) ?_
  rintro b l c ⟨_, _, hsink⟩
  exact (EStateM.Result.ok.inj hsink).1.symm

/-- The loop has a turn left for every count that the sequence still has. -/
theorem lt_turns (hp : p.Shrinks) (hends : r.Ends) (h : Rounds (r.Turn p sink) a ls b)
    (hlt : (ls.length : ℕ∞) < r.counts.size) {available : Nat} (hall : a.input.length ≤ available) :
    ls.length < r.counts.turns available := by
  cases hcounts : r.counts with
  | upTo limit =>
    rw [hcounts] at hlt
    exact Nat.cast_lt.mp hlt
  | endless =>
    have hle := rounds_le hp (hends hcounts) h
    exact Nat.lt_succ_of_le ((Nat.le_of_add_right_le hle).trans hall)

/-- Counts below the largest one are never told apart from the number of turns. -/
theorem after_rounds (hp : p.Shrinks) (hends : r.Ends)
    (hlimit : ∀ n, r.counts = .upTo n → n ≤ largestCount) (hinput : a.input.length < largestCount)
    (h : Rounds (r.Turn p sink) a ls b) (hlt : (ls.length : ℕ∞) < r.counts.size) :
    Counts.after ls.length = ls.length := by
  refine Counts.after_of_le ?_
  have hturns := lt_turns hp hends h hlt (Nat.le_refl _)
  cases hcounts : r.counts with
  | upTo limit =>
    rw [hcounts] at hturns
    exact hturns.le.trans (hlimit limit hcounts)
  | endless => exact (Nat.le_of_add_right_le (rounds_le hp (hends hcounts) h)).trans hinput.le

/-- Over a child whose calls are written down, a turn adds its calls. -/
theorem Turn.noted (h : r.Turn p sink a l b) (seen : List (Call τ ε)) :
    r.Turn (p.noted 0) (fun held v => (sink held v).noted) (a.noted seen) l
      (b.noted (seen ++ l.calls)) := by
  cases h with
  | taken hp hprogress hsink =>
    refine .taken (b := b.noted _) (Parser.noted_of_ok 0 hp seen) hprogress ?_
    simp only [Run.noted, Stage.noted, hsink]
    rfl

/-- The calls of a repetition are those of its child. -/
theorem rounds_noted (h : Rounds (r.Turn p sink) a ls b) (seen : List (Call τ ε)) :
    Rounds (r.Turn (p.noted 0) fun held v => (sink held v).noted) (a.noted seen) ls
      (b.noted (seen ++ ls.flatMap Round.calls)) :=
  h.lift (fun hturn seen => hturn.noted seen) seen

variable [Payload τ ε]

/-- A stage that closes a repetition at a count, by one more call or none, and the result of it. -/
inductive Closes (r : Repetition) (p : Parser σ τ ε α) (sink : β → α → Run σ β)
    (count : Nat) (a : Stage β τ σ) :
    List (Call τ ε) → EStateM.Result Stop σ (Outcome τ ε β) → Prop where
  | enough {e : ε} {t : σ} : p a.input a.state = .ok (.signal (.error e)) t →
    r.range.contains count = true → Closes r p sink count a [⟨0, a.input, some (.error e)⟩]
      (.ok (.success a.held a.input) t)
  | tooFew {e : ε} {t : σ} : p a.input a.state = .ok (.signal (.error e)) t →
    r.range.contains count = false → Closes r p sink count a [⟨0, a.input, some (.error e)⟩]
      (.ok (.signal (.error (Payload.append a.input r.kind e))) t)
  | handedOn {g : Signal ε} {t : σ} : p a.input a.state = .ok (.signal g) t → g.isError = false →
    Closes r p sink count a [⟨0, a.input, some g⟩] (.ok (.signal g) t)
  | stalled {v : α} {rest : Window τ} {t : σ} : p a.input a.state = .ok (.success v rest) t →
    r.requireProgress = true → rest.length = a.input.length →
    Closes r p sink count a [⟨0, a.input, none⟩] (.ok (.errorAt a.input r.kind) t)
  | stopped {why : Stop} {t : σ} : p a.input a.state = .error why t →
    Closes r p sink count a [] (.error why t)
  | refused {v : α} {rest : Window τ} {t u : σ} {why : Stop} :
    p a.input a.state = .ok (.success v rest) t →
    (r.requireProgress = true → rest.length ≠ a.input.length) → sink a.held v t = .error why u →
    Closes r p sink count a [⟨0, a.input, none⟩] (.error why u)

theorem turn_or_closes (r : Repetition) (p : Parser σ τ ε α) (sink : β → α → Run σ β)
    (a : Stage β τ σ) :
    (∃ l b, r.Turn p sink a l b) ∨ ∀ count, ∃ last result, r.Closes p sink count a last result := by
  cases hp : p a.input a.state with
  | error why t => exact .inr fun _ => ⟨_, _, .stopped hp⟩
  | ok o t =>
    rcases o with ⟨v, rest⟩ | (e | e | n)
    · by_cases hstall : r.requireProgress = true ∧ rest.length = a.input.length
      · exact .inr fun _ => ⟨_, _, .stalled hp hstall.1 hstall.2⟩
      · have hprogress : r.requireProgress = true → rest.length ≠ a.input.length :=
          not_and.mp hstall
        cases hsink : sink a.held v t with
        | ok held u => exact .inl ⟨_, ⟨held, rest, u⟩, .taken hp hprogress hsink⟩
        | error why u => exact .inr fun _ => ⟨_, _, .refused hp hprogress hsink⟩
    · refine .inr fun count => ?_
      cases hcount : r.range.contains count with
      | true => exact ⟨_, _, .enough hp hcount⟩
      | false => exact ⟨_, _, .tooFew hp hcount⟩
    · exact .inr fun _ => ⟨_, _, .handedOn hp rfl⟩
    · exact .inr fun _ => ⟨_, _, .handedOn hp rfl⟩

theorem not_stalled {x rest : Window τ} (h : r.requireProgress = true → rest.length ≠ x.length) :
    (r.requireProgress && rest.length == x.length) = false := by
  simpa using h

theorem loop_turn (h : r.Turn p sink a l b) (turns i : Nat) :
    r.loop p sink (turns + 1) i a.held a.input a.state =
      r.loop p sink turns (Counts.next i) b.held b.input b.state := by
  cases h with
  | taken hp hprogress hsink =>
    rw [loop, Run.bind_of_ok hp]
    simp only [not_stalled hprogress]
    exact Run.bind_of_ok hsink

theorem loop_closes {i : Nat} {last : List (Call τ ε)}
    {result : EStateM.Result Stop σ (Outcome τ ε β)} (h : r.Closes p sink i a last result)
    (turns : Nat) : r.loop p sink (turns + 1) i a.held a.input a.state = result := by
  rw [loop]
  cases h with
  | enough hp hcount | tooFew hp hcount =>
    rw [Run.bind_of_ok hp]
    simp only [hcount]
    rfl
  | handedOn hp hg => exact Passes.bind_eq hp hg
  | stalled hp hprogress hrest =>
    rw [Run.bind_of_ok hp]
    simp only [hprogress, hrest, BEq.rfl, Bool.and_self, if_true]
    rfl
  | stopped hp => exact Run.bind_of_error hp
  | refused hp hprogress hsink =>
    rw [Run.bind_of_ok hp]
    simp only [not_stalled hprogress]
    exact Run.bind_of_error hsink

/-- The loop after turns in a row. -/
theorem loop_rounds (h : Rounds (r.Turn p sink) a ls b) (turns : Nat) :
    r.loop p sink (turns + ls.length) 0 a.held a.input a.state =
      r.loop p sink turns (Counts.after ls.length) b.held b.input b.state := by
  have hrun := h.run_eq
    (fun left taken c => r.loop p sink left (Counts.after taken) c.held c.input c.state)
    (fun hturn left taken => by rw [loop_turn hturn, Counts.next_after]) turns
  simpa only [Counts.after_zero] using hrun

theorem Closes.noted {count : Nat} {last : List (Call τ ε)}
    {result : EStateM.Result Stop σ (Outcome τ ε β)} (h : r.Closes p sink count a last result)
    (seen : List (Call τ ε)) :
    r.Closes (p.noted 0) (fun held v => (sink held v).noted) count (a.noted seen) last
      (Noted.remember (seen ++ last) result) := by
  cases h with
  | enough hp hcount => exact .enough (Parser.noted_of_ok 0 hp seen) hcount
  | tooFew hp hcount => exact .tooFew (Parser.noted_of_ok 0 hp seen) hcount
  | handedOn hp hg => exact .handedOn (Parser.noted_of_ok 0 hp seen) hg
  | stalled hp hprogress hrest => exact .stalled (Parser.noted_of_ok 0 hp seen) hprogress hrest
  | stopped hp =>
    rw [List.append_nil]
    exact .stopped (Parser.noted_of_error 0 hp seen)
  | refused hp hprogress hsink =>
    refine .refused (Parser.noted_of_ok 0 hp seen) hprogress ?_
    simp only [Run.noted, Stage.noted, hsink]
    rfl

/-- How a repetition finishes at the stage after `k` turns: its counts are used up, or it is closed. -/
inductive Finishes (r : Repetition) (p : Parser σ τ ε α) (sink : β → α → Run σ β) (k count : Nat)
    (b : Stage β τ σ) : List (Call τ ε) → EStateM.Result Stop σ (Outcome τ ε β) → Prop where
  | exhausted : r.counts.size = k →
    Finishes r p sink k count b [] (.ok (.success b.held b.input) b.state)
  | closed {last : List (Call τ ε)} {result : EStateM.Result Stop σ (Outcome τ ε β)} :
    (k : ℕ∞) < r.counts.size → r.Closes p sink count b last result →
    Finishes r p sink k count b last result

theorem Finishes.noted {k count : Nat} {last : List (Call τ ε)}
    {result : EStateM.Result Stop σ (Outcome τ ε β)} (h : r.Finishes p sink k count b last result)
    (seen : List (Call τ ε)) :
    r.Finishes (p.noted 0) (fun held v => (sink held v).noted) k count (b.noted seen) last
      (Noted.remember (seen ++ last) result) := by
  cases h with
  | exhausted hsize =>
    rw [List.append_nil]
    exact .exhausted hsize
  | closed hlt hcloses => exact .closed hlt (hcloses.noted seen)

/-- The loop from its start, with the turns for all of the input or for more. -/
theorem loop_of_finishes (h : Rounds (r.Turn p sink) a ls b) {last : List (Call τ ε)}
    {result : EStateM.Result Stop σ (Outcome τ ε β)}
    (hfinishes : r.Finishes p sink ls.length (Counts.after ls.length) b last result)
    {available : Nat} (hturns : (ls.length : ℕ∞) < r.counts.size → ls.length < r.counts.turns available) :
    r.loop p sink (r.counts.turns available) 0 a.held a.input a.state = result := by
  cases hfinishes with
  | exhausted hsize =>
    rw [Counts.turns_of_size_eq hsize, ← Nat.zero_add ls.length, loop_rounds h]
    rfl
  | closed hlt hcloses =>
    obtain ⟨more, hmore⟩ := Nat.exists_eq_add_of_lt (hturns hlt)
    have hleft : r.counts.turns available = more + 1 + ls.length := by omega
    rw [hleft, loop_rounds h, loop_closes hcloses]

/-- With a last count, a repetition finishes after turns in a row, whatever its child leaves. -/
theorem exists_rounds_upTo {limit : Nat} (hcounts : r.counts = .upTo limit) (p : Parser σ τ ε α)
    (sink : β → α → Run σ β) (a : Stage β τ σ) : ∃ ls b, Rounds (r.Turn p sink) a ls b ∧
      ∀ count, ∃ last result, r.Finishes p sink ls.length count b last result := by
  have hsize : r.counts.size = (limit : ℕ∞) := congrArg Counts.size hcounts
  rcases Rounds.take_or_close (turn_or_closes r p sink) a limit with
    ⟨ls, b, h, rfl⟩ | ⟨ls, b, h, hn, hcloses⟩
  · exact ⟨ls, b, h, fun _ => ⟨_, _, .exhausted hsize⟩⟩
  · refine ⟨ls, b, h, fun count => ?_⟩
    obtain ⟨last, result, hcloses⟩ := hcloses count
    exact ⟨last, result, .closed (hsize ▸ Nat.cast_lt.mpr hn) hcloses⟩

/-- Over a child that never leaves more than it got, a repetition finishes after turns in a row. -/
theorem exists_rounds (hp : p.Shrinks) (hends : r.Ends) (sink : β → α → Run σ β) (a : Stage β τ σ) :
    ∃ ls b, Rounds (r.Turn p sink) a ls b ∧
      ∀ count, ∃ last result, r.Finishes p sink ls.length count b last result := by
  cases hcounts : r.counts with
  | upTo limit => exact exists_rounds_upTo hcounts p sink a
  | endless =>
    have hsize : r.counts.size = ⊤ := congrArg Counts.size hcounts
    rcases Rounds.take_or_close (turn_or_closes r p sink) a (a.input.length + 1) with
      ⟨ls, b, h, hn⟩ | ⟨ls, b, h, _, hcloses⟩
    · have hle := rounds_le hp (hends hcounts) h
      omega
    · refine ⟨ls, b, h, fun count => ?_⟩
      obtain ⟨last, result, hcloses⟩ := hcloses count
      exact ⟨last, result, .closed (hsize ▸ ENat.natCast_lt_top _) hcloses⟩

/-- What a repetition means. A range without counts is a failure before any call. Otherwise turns are
taken one after the other, until the counts are used up or the stage that was reached has no turn. -/
inductive Means (r : Repetition) (p : Parser σ τ ε α) (sink : β → α → Run σ β) (a : Stage β τ σ) :
    List (Call τ ε) → EStateM.Result Stop σ (Outcome τ ε β) → Prop where
  | inverted : r.range.inverted = true → Means r p sink a [] (.ok (.failureAt a.input r.kind) a.state)
  | finished {ls : List (Round τ ε α)} {b : Stage β τ σ} {last : List (Call τ ε)}
    {result : EStateM.Result Stop σ (Outcome τ ε β)} : r.range.inverted = false →
    Rounds (r.Turn p sink) a ls b → r.Finishes p sink ls.length ls.length b last result →
    Means r p sink a (ls.flatMap Round.calls ++ last) result

section

variable (hp : p.Shrinks) (hends : r.Ends) (hlimit : ∀ n, r.counts = .upTo n → n ≤ largestCount)
  (hinput : a.input.length < largestCount) {calls : List (Call τ ε)}
  {result : EStateM.Result Stop σ (Outcome τ ε β)}

include hp hends hlimit hinput

theorem Means.run_eq (h : r.Means p sink a calls result) :
    r.run p sink a.held a.input a.state = result ∧
      r.run (p.noted 0) (fun held v => (sink held v).noted) a.held a.input ⟨a.state, []⟩ =
        Noted.remember calls result := by
  cases h with
  | inverted hinverted =>
    rw [run_inverted hinverted, run_inverted hinverted]
    exact ⟨rfl, rfl⟩
  | @finished ls b last _ hinverted hrounds hfinishes =>
    have hturns := fun hlt => lt_turns hp hends hrounds hlt (Nat.le_refl a.input.length)
    have hfinishes' : r.Finishes p sink ls.length (Counts.after ls.length) b last result := by
      cases hfinishes with
      | exhausted hsize => exact .exhausted hsize
      | closed hlt hcloses =>
        rw [after_rounds hp hends hlimit hinput hrounds hlt]
        exact .closed hlt hcloses
    rw [run_eq_loop hinverted, run_eq_loop hinverted]
    exact ⟨loop_of_finishes hrounds hfinishes' hturns,
      loop_of_finishes (rounds_noted hrounds []) (hfinishes'.noted _) hturns⟩

omit hlimit hinput in
theorem exists_means (sink : β → α → Run σ β) : ∃ calls result, r.Means p sink a calls result := by
  cases hinverted : r.range.inverted with
  | true => exact ⟨_, _, .inverted hinverted⟩
  | false =>
    obtain ⟨ls, b, h, hfinishes⟩ := exists_rounds hp hends sink a
    obtain ⟨last, result, hfinishes⟩ := hfinishes ls.length
    exact ⟨_, _, .finished hinverted h hfinishes⟩

/-- A repetition does what it means: over a child that never leaves more than it got, with a sequence no
longer than counts go, and over inputs whose turns can be counted, its result and the calls of the child
are those of the declared course, and no others. -/
theorem run_iff_means : r.Means p sink a calls result ↔
    r.run p sink a.held a.input a.state = result ∧
      r.run (p.noted 0) (fun held v => (sink held v).noted) a.held a.input ⟨a.state, []⟩ =
        Noted.remember calls result := by
  refine ⟨fun h => h.run_eq hp hends hlimit hinput, ?_⟩
  rintro ⟨hrun, hnoted⟩
  obtain ⟨calls', result', h⟩ := exists_means (a := a) hp hends sink
  obtain ⟨hrun', hnoted'⟩ := h.run_eq hp hends hlimit hinput
  obtain rfl := hrun'.symm.trans hrun
  obtain rfl := Noted.remember_inj (hnoted'.symm.trans hnoted)
  exact h

end

/-- Letters A are repeated under a range that allows even numbers of them only. -/
theorem run_iff_means_even :
    let even : Range := ⟨false, fun n => n % 2 == 0, .upTo largestCount, .endless⟩
    let p : Parser Unit UInt8 (Trail UInt8) (Window UInt8) := .literal .complete [65]
    let x : Window UInt8 := .ofList [65, 65, 66]
    let sink : Nat → Window UInt8 → Run Unit Nat := fun n _ => return n + 1
    (p.Shrinks ∧ (fold even).Ends ∧ (∀ n, (fold even).counts = .upTo n → n ≤ largestCount) ∧
      x.length < largestCount) ∧
    (fold even).run p sink 0 x () = .ok (.success 2 (x.drop 2)) () ∧
    (fold even).run (p.noted 0) (fun n v => (sink n v).noted) 0 x ⟨(), []⟩ =
      .ok (.success 2 (x.drop 2)) ⟨(), [⟨0, x, none⟩, ⟨0, x.drop 1, none⟩,
        ⟨0, x.drop 2, some (.error (Payload.ofKind (x.drop 2) .tag))⟩]⟩ := by
  intro even p x sink
  have hp : p.Shrinks := Parser.shrinks_tag _ _ _
  have hends : (fold even).Ends := fun _ => rfl
  have hlimit : ∀ n, (fold even).counts = .upTo n → n ≤ largestCount := nofun
  have hinput : x.length < largestCount := by decide
  refine ⟨⟨hp, hends, hlimit, hinput⟩, ?_⟩
  have first : (fold even).Turn p sink ⟨0, x, ()⟩ ⟨[⟨0, x, none⟩], x.take 1⟩ ⟨1, x.drop 1, ()⟩ :=
    .taken rfl (by decide) rfl
  have second : (fold even).Turn p sink ⟨1, x.drop 1, ()⟩ ⟨[⟨0, x.drop 1, none⟩], (x.drop 1).take 1⟩
      ⟨2, x.drop 2, ()⟩ := .taken rfl (by decide) rfl
  have last : (fold even).Closes p sink 2 ⟨2, x.drop 2, ()⟩
      [⟨0, x.drop 2, some (.error (Payload.ofKind (x.drop 2) .tag))⟩]
      (.ok (.success 2 (x.drop 2)) ()) := .enough rfl rfl
  exact (run_iff_means (a := ⟨0, x, ()⟩) hp hends hlimit hinput).mp
    (.finished rfl ((Rounds.none.more first).more second) (.closed (ENat.natCast_lt_top 2) last))

end Repetition
end Reprise
