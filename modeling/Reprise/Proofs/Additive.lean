import Reprise.Proofs.Exactly
import Reprise.Proofs.ReadBack
import Reprise.Proofs.SeparatedRepetition

/-!
# Counts in parts

To ask for a number of values in two parts, the second part from where the first one ends, is to ask for all of
them at once. Where a part ends early the whole does, at the same place and with the same payload. As long as
every value takes input, it makes no difference whether that is asked for, too.
-/

namespace Reprise

variable {σ τ ε α β γ κ : Type}

/-- The same ending with further values before those that it has. -/
def Ending.after (vs : List α) : Ending τ ε α → Ending τ ε α
  | enough ws rest => enough (vs ++ ws) rest
  | ending => ending

namespace Parser

variable {p : Parser σ τ ε α} {x y z : Window τ} {s t u : σ} {vs ws : List α} {a b n : Nat}
  {ended : Except Stop (Ending τ ε α)}

theorem Gets.append (h : p.Gets x s vs y t) (h' : p.Gets y t ws z u) : p.Gets x s (vs ++ ws) z u := by
  induction h with
  | none => exact h'
  | more hp _ ih => exact .more hp (ih h')

/-- The course of a second part is that of the whole, behind the values of the first part. -/
theorem Course.after (hgets : p.Gets x s vs y t) (hcourse : p.Course b y t ws ended u) :
    p.Course (vs.length + b) x s (vs ++ ws) (ended.map (Ending.after vs)) u := by
  have hlength : (vs ++ ws).length = vs.length + ws.length := List.length_append
  cases hcourse with
  | complete hgets' hn => exact .complete (hgets.append hgets') (by omega)
  | tooFew hgets' hn herror => exact .tooFew (hgets.append hgets') (by omega) herror
  | handedOn hgets' hn hsignal hg => exact .handedOn (hgets.append hgets') (by omega) hsignal hg
  | stopped hgets' hn hstop => exact .stopped (hgets.append hgets') (by omega) hstop

/-- A course is complete, or it ends early and does so whatever more is asked for. -/
theorem Course.complete_or_early (h : p.Course a x s vs ended u) :
    (∃ y, ended = .ok (.enough vs y) ∧ p.Gets x s vs y u ∧ vs.length = a) ∨
      (∀ ws y, ended ≠ .ok (.enough ws y)) ∧ ∀ b, p.Course (a + b) x s vs ended u := by
  cases h with
  | complete hgets hn => exact .inl ⟨_, rfl, hgets, hn⟩
  | tooFew hgets hn herror =>
    exact .inr ⟨nofun, fun b => .tooFew hgets (Nat.lt_add_right b hn) herror⟩
  | handedOn hgets hn hsignal hg =>
    exact .inr ⟨nofun, fun b => .handedOn hgets (Nat.lt_add_right b hn) hsignal hg⟩
  | stopped hgets hn hstop => exact .inr ⟨nofun, fun b => .stopped hgets (Nat.lt_add_right b hn) hstop⟩

/-- As long as fewer than `n` values were got, no value takes nothing. -/
def Advances (p : Parser σ τ ε α) (n : Nat) (x : Window τ) (s : σ) : Prop :=
  ∀ ⦃vs y t v z u⦄, p.Gets x s vs y t → vs.length < n → p y t = .ok (.success v z) u →
    z.length ≠ y.length

theorem Advances.next {v : α} (h : p.Advances (n + 1) x s) (hp : p x s = .ok (.success v y) t) :
    y.length ≠ x.length ∧ p.Advances n y t :=
  ⟨h .none (Nat.zero_lt_succ n) hp, fun _ _ _ _ _ _ hgets hn => h (.more hp hgets) (Nat.succ_lt_succ hn)⟩

theorem Progresses.advances (h : p.Progresses) (n : Nat) (x : Window τ) (s : σ) : p.Advances n x s :=
  fun _ _ _ _ _ _ _ _ hp => h _ _ _ _ _ hp

theorem followedBy_of_success {v : α} (h : p x s = .ok (.success v y) t) (next : α → Parser σ τ ε β) :
    p.followedBy next x s = next v y t := Run.bind_of_ok h

variable [Payload τ ε]

/-- What comes behind a repetition that does not end well is not tried. -/
theorem followedBy_of_early {q : Parser σ τ ε β} {next : β → Parser σ τ ε γ} {kind : ErrorKind}
    {make : List α → β} (h : q x s = Ending.result x kind make ended u)
    (hearly : ∀ ws y, ended ≠ .ok (.enough ws y)) (make' : List α → γ) :
    q.followedBy next x s = Ending.result x kind make' ended u := by
  unfold followedBy
  rcases ended with why | ending
  · exact Run.bind_of_error h
  · refine (Run.bind_of_ok h).trans ?_
    cases ending with
    | enough ws y => exact absurd rfl (hearly ws y)
    | _ => rfl

/-- The values of a course in order of arrival. -/
theorem sequence_of_course (h : p.Course n x s vs ended u) (kind : ErrorKind) :
    collect (.exactly n kind) .sequence #[] p x s = Ending.result x kind List.toArray ended u := by
  have hmake : (Container.sequence : Container α _).insertAll #[] = List.toArray :=
    funext Container.insertAll_sequence
  exact hmake ▸ Repetition.collect_course h kind .sequence #[]

/-- The result of a second part, with the values of the first part before its own. -/
theorem Course.result_after (h : p.Course n y t ws ended u) (x : Window τ) (kind : ErrorKind)
    (vs : List α) : Ending.result x kind List.toArray (ended.map (Ending.after vs)) u =
      Ending.result y kind (fun ws => vs.toArray ++ ws.toArray) ended u := by
  cases h with
  | complete _ _ =>
    have happend : (vs ++ ws).toArray = vs.toArray ++ ws.toArray := by simp
    change EStateM.Result.ok (Outcome.success (vs ++ ws).toArray _) u = _
    rw [happend]
    rfl
  | tooFew _ _ _ | handedOn _ _ _ _ | stopped _ _ _ => rfl

/-- Counting goes on in a second part where the first one ended. -/
theorem count_add (a b : Nat) (p : Parser σ τ ε α) : count (a + b) .sequence p =
    ((count a .sequence p).andThen (count b .sequence p)).map fun (vs, ws) => vs ++ ws := by
  rw [map_andThen]
  funext x s
  obtain ⟨vs, ended, t, hfirst⟩ := p.exists_course a x s
  have hcount : count a .sequence p x s = Ending.result x .count List.toArray ended t :=
    sequence_of_course hfirst .count
  rcases hfirst.complete_or_early with ⟨y, rfl, hgets, rfl⟩ | ⟨hearly, hwhole⟩
  · obtain ⟨ws, ended, u, hsecond⟩ := p.exists_course b y t
    have hparts := map_result (sequence_of_course hsecond .count) fun ws => vs.toArray ++ ws
    calc count (vs.length + b) .sequence p x s
      _ = Ending.result x .count List.toArray (ended.map (Ending.after vs)) u :=
        sequence_of_course (hsecond.after hgets) .count
      _ = Ending.result y .count (fun ws => vs.toArray ++ ws.toArray) ended u :=
        hsecond.result_after x .count vs
      _ = (count b .sequence p).map (fun ws => vs.toArray ++ ws) y t := hparts.symm
      _ = _ := (followedBy_of_success hcount fun vs => (count b .sequence p).map fun ws => vs ++ ws).symm
  · exact (sequence_of_course (hwhole b) .count).trans (followedBy_of_early hcount hearly _).symm

end Parser

namespace Repetition

variable [Payload τ ε] {p : Parser σ τ ε α} {x : Window τ} {s : σ}

/-- Where every value takes input, the loop does not need to ask for it. -/
theorem loop_of_advances {r : Repetition} (F : β → α → β) {turns : Nat} (h : p.Advances turns x s)
    (i : Nat) (held : β) : r.loop p (fun held v => return F held v) turns i held x s =
      { r with requireProgress := false }.loop p (fun held v => return F held v) turns i held x s := by
  induction turns generalizing i held x s with
  | zero => rfl
  | succ turns ih =>
    rw [loop, loop]
    cases hp : p x s with
    | error why t => rw [Run.bind_of_error hp, Run.bind_of_error hp]
    | ok o t =>
      rw [Run.bind_of_ok hp, Run.bind_of_ok hp]
      rcases o with ⟨v, y⟩ | (e | e | k)
      · obtain ⟨hne, hnext⟩ := h.next hp
        simp only [not_stalled fun _ => hne]
        exact ih hnext _ _
      · rfl
      · rfl
      · rfl

/-- To ask for progress changes nothing for an exact number of values that all take input. -/
theorem collect_of_advances {n : Nat} (h : p.Advances n x s) (kind : ErrorKind) (into : Container α κ)
    (held : κ) : Parser.collect (within (Bounds.exactly n).toRange kind) into held p x s =
      Parser.collect (exactly n kind) into held p x s := by
  have hinverted := inverted_exactly n kind
  unfold Parser.collect
  rw [run_eq_loop hinverted, run_eq_loop (r := within (Bounds.exactly n).toRange kind) hinverted]
  exact loop_of_advances into.insert h 0 held

end Repetition

namespace Parser

variable [Payload τ ε]

/-- Counts add up: to ask for `a + b` values is to ask for `a` values and, from where they end, for `b` further
ones, and to put the two lists together. The remainder, the list and every signal are the same, with the
same payload. Where every value on the way takes input, it makes no difference that `many` and `manyBetween`
ask for that: the three take the same course, and differ in the kind that they write only. -/
theorem count_in_parts (p : Parser σ τ ε α) :
    (∀ a b, count (a + b) .sequence p =
      ((count a .sequence p).andThen (count b .sequence p)).map fun (vs, ws) => vs ++ ws) ∧
    ∀ n x s, p.Advances n x s → ∃ vs ended u, p.Course n x s vs ended u ∧
      count n .sequence p x s = Ending.result x .count List.toArray ended u ∧
      many (Bounds.exactly n).toRange .sequence p x s = Ending.result x .many List.toArray ended u ∧
      manyBetween n n .sequence p x s = Ending.result x .manyBetween List.toArray ended u := by
  refine ⟨fun a b => count_add a b p, fun n x s hadvances => ?_⟩
  obtain ⟨vs, ended, u, hcourse⟩ := p.exists_course n x s
  have hwithin (kind : ErrorKind) :
      collect (.within (Bounds.exactly n).toRange kind) .sequence #[] p x s =
        Ending.result x kind List.toArray ended u :=
    (Repetition.collect_of_advances hadvances kind .sequence #[]).trans (sequence_of_course hcourse kind)
  refine ⟨vs, ended, u, hcourse, sequence_of_course hcourse .count, hwithin .many, ?_⟩
  rw [Repetition.manyBetween_sequence]
  exact hwithin .manyBetween

/-- Of three letters A the last one is missing, which the second of two parts finds. -/
theorem count_in_parts_letters :
    let p : Parser Unit UInt8 (Trail UInt8) (Window UInt8) := .literal .complete [65]
    let x : Window UInt8 := .ofList [65, 65, 66]
    let missing (kind : ErrorKind) :
        EStateM.Result Stop Unit (Outcome UInt8 (Trail UInt8) (Array (Window UInt8))) :=
      .ok (.signal (.error ⟨⟨x.drop 2, .tag⟩, [⟨x.drop 2, kind⟩]⟩)) ()
    (((count 1 .sequence p).andThen (count 2 .sequence p)).map fun (vs, ws) => vs ++ ws) x () =
        missing .count ∧
      p.Advances 3 x () ∧ ∃ vs ended, p.Course 3 x () vs ended () ∧
        Ending.result x .many List.toArray ended () = missing .many ∧
        Ending.result x .manyBetween List.toArray ended () = missing .manyBetween := by
  intro p x missing
  have hadvances : p.Advances 3 x () := (progresses_tag _ _ (List.cons_ne_nil _ _)).advances 3 x ()
  refine ⟨(congrFun (congrFun ((count_in_parts p).1 1 2) x) ()).symm, hadvances, ?_⟩
  obtain ⟨vs, ended, u, hcourse, -, hmany, hbetween⟩ := (count_in_parts p).2 3 x () hadvances
  exact ⟨vs, ended, hcourse, hmany.symm, hbetween.symm⟩

end Parser
end Reprise
