import Reprise.Proofs.Rounds

/-!
# The course of a repetition up to a terminator

In a turn the terminator errs and the body gets a value, with progress. The stage at which the
terminator does not err, or the body gets no value, closes the loop.
-/

namespace Reprise.Terminated

variable {σ τ ε α β κ : Type}

/-- A turn: the terminator errs, and the body gets a value with progress. -/
inductive Turn (into : Container α κ) (p : Parser σ τ ε α) (till : Parser σ τ ε β)
    (a : Stage κ τ σ) : Round τ ε α → Stage κ τ σ → Prop where
  | taken {e : ε} {t u : σ} {v : α} {rest : Window τ} :
    till a.input a.state = .ok (.signal (.error e)) t → p a.input t = .ok (.success v rest) u →
    rest.length ≠ a.input.length →
    Turn into p till a ⟨[⟨1, a.input, some (.error e)⟩, ⟨0, a.input, none⟩], v⟩
      ⟨into.insert a.held v, rest, u⟩

/-- A stage that closes the loop, with the last calls and the result. -/
inductive Closes [Payload τ ε] (into : Container α κ) (p : Parser σ τ ε α) (till : Parser σ τ ε β)
    (a : Stage κ τ σ) : List (Call τ ε) → EStateM.Result Stop σ (Outcome τ ε (κ × β)) → Prop where
  | found {u : β} {rest : Window τ} {t : σ} : till a.input a.state = .ok (.success u rest) t →
    Closes into p till a [⟨1, a.input, none⟩] (.ok (.success (a.held, u) rest) t)
  | refused {g : Signal ε} {t : σ} : till a.input a.state = .ok (.signal g) t → g.isError = false →
    Closes into p till a [⟨1, a.input, some g⟩] (.ok (.signal g) t)
  | halted {why : Stop} {t : σ} : till a.input a.state = .error why t →
    Closes into p till a [] (.error why t)
  | stalled {e : ε} {t u : σ} {v : α} {rest : Window τ} :
    till a.input a.state = .ok (.signal (.error e)) t → p a.input t = .ok (.success v rest) u →
    rest.length = a.input.length →
    Closes into p till a [⟨1, a.input, some (.error e)⟩, ⟨0, a.input, none⟩]
      (.ok (.errorAt a.input .manyTill) u)
  | missed {e e' : ε} {t u : σ} : till a.input a.state = .ok (.signal (.error e)) t →
    p a.input t = .ok (.signal (.error e')) u →
    Closes into p till a [⟨1, a.input, some (.error e)⟩, ⟨0, a.input, some (.error e')⟩]
      (.ok (.signal (.error (Payload.append a.input .manyTill e'))) u)
  | handedOn {e : ε} {g : Signal ε} {t u : σ} : till a.input a.state = .ok (.signal (.error e)) t →
    p a.input t = .ok (.signal g) u → g.isError = false →
    Closes into p till a [⟨1, a.input, some (.error e)⟩, ⟨0, a.input, some g⟩] (.ok (.signal g) u)
  | stopped {e : ε} {t u : σ} {why : Stop} : till a.input a.state = .ok (.signal (.error e)) t →
    p a.input t = .error why u →
    Closes into p till a [⟨1, a.input, some (.error e)⟩] (.error why u)

variable {into : Container α κ} {p : Parser σ τ ε α} {till : Parser σ τ ε β} {a b : Stage κ τ σ}
  {l : Round τ ε α} {ls : List (Round τ ε α)}

theorem rounds_le (hp : p.Shrinks) (h : Rounds (Turn into p till) a ls b) :
    ls.length + b.input.length ≤ a.input.length := by
  refine h.length_add_measure_le (μ := fun c => c.input.length) ?_
  rintro b l c (⟨_, hsuccess, hprogress⟩)
  exact Nat.lt_of_le_of_ne (hp _ _ _ _ _ hsuccess) hprogress

theorem held_eq (h : Rounds (Turn into p till) a ls b) :
    b.held = into.insertAll a.held (ls.map Round.value) :=
  h.foldl_eq (f := Stage.held) (by rintro b l c ⟨⟩; rfl)

theorem Turn.noted (h : Turn into p till a l b) (seen : List (Call τ ε)) :
    Turn into (p.noted 0) (till.noted 1) (a.noted seen) l (b.noted (seen ++ l.calls)) := by
  cases h with
  | @taken e t _ _ _ htill hp hprogress =>
    have htill' := Parser.noted_of_ok 1 htill seen
    have hp' := Parser.noted_of_ok 0 hp (seen ++ [⟨1, a.input, some (.error e)⟩])
    rw [List.append_assoc] at hp'
    exact .taken htill' hp' hprogress

/-- The calls of the loop are those of its children. -/
theorem rounds_noted (h : Rounds (Turn into p till) a ls b) (seen : List (Call τ ε)) :
    Rounds (Turn into (p.noted 0) (till.noted 1)) (a.noted seen) ls
      (b.noted (seen ++ ls.flatMap Round.calls)) :=
  h.lift (fun hturn seen => hturn.noted seen) seen

variable [Payload τ ε] {last : List (Call τ ε)}
  {result : EStateM.Result Stop σ (Outcome τ ε (κ × β))}

theorem turn_or_closes (into : Container α κ) (p : Parser σ τ ε α) (till : Parser σ τ ε β)
    (a : Stage κ τ σ) : (∃ l b, Turn into p till a l b) ∨ ∃ last result, Closes into p till a last result := by
  cases htill : till a.input a.state with
  | error why t => exact .inr ⟨_, _, .halted htill⟩
  | ok o t =>
    rcases o with ⟨u, rest⟩ | (e | e | n)
    · exact .inr ⟨_, _, .found htill⟩
    · cases hp : p a.input t with
      | error why u => exact .inr ⟨_, _, .stopped htill hp⟩
      | ok o u =>
        rcases o with ⟨v, rest⟩ | (e' | e' | n)
        · by_cases hstall : rest.length = a.input.length
          · exact .inr ⟨_, _, .stalled htill hp hstall⟩
          · exact .inl ⟨_, _, .taken htill hp hstall⟩
        · exact .inr ⟨_, _, .missed htill hp⟩
        · exact .inr ⟨_, _, .handedOn htill hp rfl⟩
        · exact .inr ⟨_, _, .handedOn htill hp rfl⟩
    · exact .inr ⟨_, _, .refused htill rfl⟩
    · exact .inr ⟨_, _, .refused htill rfl⟩

theorem loop_turn (h : Turn into p till a l b) (turns : Nat) :
    Parser.manyTillLoop into p till (turns + 1) a.held a.input a.state =
      Parser.manyTillLoop into p till turns b.held b.input b.state := by
  cases h with
  | taken htill hp hprogress =>
    rw [Parser.manyTillLoop, Run.bind_of_ok htill]
    simp only
    rw [Run.bind_of_ok hp]
    simp only [beq_eq_false_iff_ne.mpr hprogress]
    rfl

/-- The loop after turns in a row. -/
theorem loop_rounds (h : Rounds (Turn into p till) a ls b) (turns : Nat) :
    Parser.manyTillLoop into p till (turns + ls.length) a.held a.input a.state =
      Parser.manyTillLoop into p till turns b.held b.input b.state :=
  h.run_eq (fun left _ c => Parser.manyTillLoop into p till left c.held c.input c.state)
    (fun hturn left _ => loop_turn hturn left) turns

theorem loop_closes (h : Closes into p till a last result) (turns : Nat) :
    Parser.manyTillLoop into p till (turns + 1) a.held a.input a.state = result := by
  rw [Parser.manyTillLoop]
  cases h with
  | found htill => exact Run.bind_of_ok htill
  | refused htill hg => exact Passes.bind_eq htill hg
  | halted htill => exact Run.bind_of_error htill
  | stalled htill hp hrest =>
    rw [Run.bind_of_ok htill]
    simp only
    rw [Run.bind_of_ok hp]
    simp only [hrest, BEq.rfl, if_true]
    rfl
  | missed htill hp =>
    rw [Run.bind_of_ok htill]
    exact Run.bind_of_ok hp
  | handedOn htill hp hg =>
    rw [Run.bind_of_ok htill]
    exact Passes.bind_eq hp hg
  | stopped htill hp =>
    rw [Run.bind_of_ok htill]
    exact Run.bind_of_error hp

theorem Closes.noted (h : Closes into p till a last result) (seen : List (Call τ ε)) :
    Closes into (p.noted 0) (till.noted 1) (a.noted seen) last
      (Noted.remember (seen ++ last) result) := by
  have hseen (first second : Call τ ε) : seen ++ [first, second] = seen ++ [first] ++ [second] :=
    (List.append_assoc seen [first] [second]).symm
  cases h with
  | found htill => exact .found (Parser.noted_of_ok 1 htill seen)
  | refused htill hg => exact .refused (Parser.noted_of_ok 1 htill seen) hg
  | halted htill =>
    rw [List.append_nil]
    exact .halted (Parser.noted_of_error 1 htill seen)
  | stalled htill hp hrest =>
    rw [hseen]
    exact .stalled (Parser.noted_of_ok 1 htill seen) (Parser.noted_of_ok 0 hp _) hrest
  | missed htill hp =>
    rw [hseen]
    exact .missed (Parser.noted_of_ok 1 htill seen) (Parser.noted_of_ok 0 hp _)
  | handedOn htill hp hg =>
    rw [hseen]
    exact .handedOn (Parser.noted_of_ok 1 htill seen) (Parser.noted_of_ok 0 hp _) hg
  | stopped htill hp =>
    exact .stopped (Parser.noted_of_ok 1 htill seen) (Parser.noted_of_error 0 hp _)

/-- Turns in a row up to a stage that closes the loop are its course, where it has more turns than there
are elements. -/
theorem loop_of_closes (hp : p.Shrinks) (h : Rounds (Turn into p till) a ls b)
    (hcloses : Closes into p till b last result) {turns : Nat} (hturns : a.input.length < turns) :
    Parser.manyTillLoop into p till turns a.held a.input a.state = result ∧
      Parser.manyTillLoop into (p.noted 0) (till.noted 1) turns a.held a.input ⟨a.state, []⟩ =
        Noted.remember (ls.flatMap Round.calls ++ last) result := by
  have hle := rounds_le hp h
  obtain ⟨more, rfl⟩ : ∃ more, turns = more + 1 + ls.length := ⟨turns - 1 - ls.length, by omega⟩
  have hrun := loop_rounds h (more + 1)
  have hnoted := loop_rounds (rounds_noted h []) (more + 1)
  exact ⟨hrun.trans (loop_closes hcloses more),
    hnoted.trans (loop_closes (hcloses.noted _) more)⟩

/-- With more turns than elements, the loop goes through its rounds and is closed by a stage, never by
the number of turns. -/
theorem exists_rounds (hp : p.Shrinks) (into : Container α κ) (till : Parser σ τ ε β)
    (a : Stage κ τ σ) : ∃ ls b last result, Rounds (Turn into p till) a ls b ∧
      Closes into p till b last result ∧
      ∀ turns, a.input.length < turns →
        Parser.manyTillLoop into p till turns a.held a.input a.state = result ∧
        Parser.manyTillLoop into (p.noted 0) (till.noted 1) turns a.held a.input ⟨a.state, []⟩ =
          Noted.remember (ls.flatMap Round.calls ++ last) result := by
  have total := turn_or_closes into p till
  rcases Rounds.take_or_close total a (a.input.length + 1) with
    ⟨ls, b, h, hn⟩ | ⟨ls, b, h, hn, last, result, hcloses⟩
  · have hle := rounds_le hp h
    omega
  · exact ⟨ls, b, last, result, h, hcloses, fun _ => loop_of_closes hp h hcloses⟩

/-- What a repetition up to a terminator means: turns are taken from the start as long as the terminator
errs and the body gets a value with progress, and the stage that was reached then closes the loop. -/
inductive Means (into : Container α κ) (p : Parser σ τ ε α) (till : Parser σ τ ε β) (x : Window τ)
    (s : σ) : List (Call τ ε) → EStateM.Result Stop σ (Outcome τ ε (κ × β)) → Prop where
  | closed {ls : List (Round τ ε α)} {b : Stage κ τ σ} {last : List (Call τ ε)}
    {result : EStateM.Result Stop σ (Outcome τ ε (κ × β))} :
    Rounds (Turn into p till) ⟨into.empty, x, s⟩ ls b → Closes into p till b last result →
    Means into p till x s (ls.flatMap Round.calls ++ last) result

variable {x : Window τ} {s : σ}

theorem exists_means (hp : p.Shrinks) (into : Container α κ) (till : Parser σ τ ε β) (x : Window τ)
    (s : σ) : ∃ calls result, Means into p till x s calls result ∧
      Parser.manyTill into p till x s = result ∧
      Parser.manyTill into (p.noted 0) (till.noted 1) x ⟨s, []⟩ = Noted.remember calls result := by
  obtain ⟨ls, b, last, result, h, hcloses, hrun⟩ := exists_rounds hp into till ⟨into.empty, x, s⟩
  exact ⟨_, result, .closed h hcloses, hrun _ (Nat.lt_succ_self x.length)⟩

theorem Means.run_eq (hp : p.Shrinks) {calls : List (Call τ ε)}
    (h : Means into p till x s calls result) : Parser.manyTill into p till x s = result ∧
      Parser.manyTill into (p.noted 0) (till.noted 1) x ⟨s, []⟩ = Noted.remember calls result := by
  obtain ⟨h, hcloses⟩ := h
  exact loop_of_closes hp h hcloses (Nat.lt_succ_self x.length)

/-- A repetition up to a terminator does what it means, over a body that never leaves more than it got:
there is a course, and its result and its calls are those of the run, and no others. What is held on the
way are the values of the body, in order. -/
theorem manyTill_iff_means (hp : p.Shrinks) (into : Container α κ) (till : Parser σ τ ε β)
    (x : Window τ) (s : σ) :
    (∃ calls result, Means into p till x s calls result) ∧
    (∀ calls result, Means into p till x s calls result ↔
      Parser.manyTill into p till x s = result ∧
        Parser.manyTill into (p.noted 0) (till.noted 1) x ⟨s, []⟩ = Noted.remember calls result) ∧
    ∀ ls b, Rounds (Turn into p till) ⟨into.empty, x, s⟩ ls b →
      b.held = into.insertAll into.empty (ls.map Round.value) := by
  obtain ⟨calls, result, hmeans, hrun, hnoted⟩ := exists_means hp into till x s
  refine ⟨⟨calls, result, hmeans⟩, fun calls' result' => ⟨fun h => h.run_eq hp, ?_⟩,
    fun ls b h => held_eq h⟩
  rintro ⟨hrun', hnoted'⟩
  obtain rfl := hrun.symm.trans hrun'
  obtain rfl := Noted.remember_inj (hnoted.symm.trans hnoted')
  exact hmeans

/-- Letters A up to a letter B, and up to the end of the input, which is tried first at each letter. A
letter that is no A is an error at its place, with the place of the loop behind it. -/
theorem manyTill_iff_means_letters :
    let a : Parser Unit UInt8 (Trail UInt8) (Window UInt8) := .literal .complete [65]
    let b : Parser Unit UInt8 (Trail UInt8) (Window UInt8) := .literal .complete [66]
    let x : Window UInt8 := .ofList [65, 66, 67]
    let failed (y : Window UInt8) (kind : ErrorKind) : Signal (Trail UInt8) :=
      .error (Payload.ofKind y kind)
    a.Shrinks ∧
    Parser.manyTill .sequence (a.noted 0) (b.noted 1) x ⟨(), []⟩ =
      .ok (.success (#[x.take 1], (x.drop 1).take 1) (x.drop 2))
        ⟨(), [⟨1, x, some (failed x .tag)⟩, ⟨0, x, none⟩, ⟨1, x.drop 1, none⟩]⟩ ∧
    Parser.manyTill .sequence (a.noted 0) (Parser.eof.noted 1) x ⟨(), []⟩ =
      .ok (.signal (.error ⟨⟨x.drop 1, .tag⟩, [⟨x.drop 1, .manyTill⟩]⟩))
        ⟨(), [⟨1, x, some (failed x .eof)⟩, ⟨0, x, none⟩,
          ⟨1, x.drop 1, some (failed (x.drop 1) .eof)⟩, ⟨0, x.drop 1, some (failed (x.drop 1) .tag)⟩]⟩ := by
  intro a b x failed
  have ha : a.Shrinks := Parser.shrinks_tag _ _ _
  have turn : Turn .sequence a b ⟨#[], x, ()⟩
      ⟨[⟨1, x, some (failed x .tag)⟩, ⟨0, x, none⟩], x.take 1⟩ ⟨#[x.take 1], x.drop 1, ()⟩ :=
    .taken rfl rfl (by decide)
  have turn' : Turn .sequence a .eof ⟨#[], x, ()⟩
      ⟨[⟨1, x, some (failed x .eof)⟩, ⟨0, x, none⟩], x.take 1⟩ ⟨#[x.take 1], x.drop 1, ()⟩ :=
    .taken rfl rfl (by decide)
  refine ⟨ha, ?_, ?_⟩
  · exact (((manyTill_iff_means ha .sequence b x ()).2.1 _ _).mp
      (.closed (Rounds.none.more turn) (.found rfl))).2
  · exact (((manyTill_iff_means ha .sequence .eof x ()).2.1 _ _).mp
      (.closed (Rounds.none.more turn') (.missed rfl rfl))).2

end Reprise.Terminated
