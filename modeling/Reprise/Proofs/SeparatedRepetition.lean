import Reprise.Proofs.Containers
import Reprise.Proofs.Endings

/-!
# Separated lists as repetitions

A separated list is an element and a repetition of a separator with an element behind it. The two loops
go hand in hand as long as separators take input. Where one takes none, the list ends there with an error
of its own, and no element is tried any more.
-/

namespace Reprise

variable {σ τ ε α β γ κ : Type}

namespace Parser

/-- No success leaves as much as there was. -/
def Progresses (p : Parser σ τ ε α) : Prop :=
  ∀ x s v rest t, p x s = .ok (.success v rest) t → rest.length ≠ x.length

/-- A parser that goes on from the value of another one. -/
def followedBy (p : Parser σ τ ε α) (next : α → Parser σ τ ε β) : Parser σ τ ε β := fun x => do
  match ← p x with
  | .success v rest => next v rest
  | .signal g => return .signal g

/-- Parsers that go on in the same way from all that a parser may leave. -/
theorem followedBy_congr {p : Parser σ τ ε α} {next next' : α → Parser σ τ ε β} (hp : p.Shrinks) {x : Window τ} {s : σ}
    (h : ∀ v rest t, rest.length ≤ x.length → next v rest t = next' v rest t) :
    p.followedBy next x s = p.followedBy next' x s := by
  unfold followedBy
  cases hv : p x s with
  | error why t => rw [Run.bind_of_error hv, Run.bind_of_error hv]
  | ok o t =>
    rw [Run.bind_of_ok hv, Run.bind_of_ok hv]
    cases o with
    | success v rest => exact h v rest t (hp _ _ _ _ _ hv)
    | signal g => rfl

theorem map_andThen (p : Parser σ τ ε α) (q : Parser σ τ ε β) (f : α × β → γ) :
    (p.andThen q).map f = p.followedBy fun v => q.map fun w => f (v, w) := by
  funext x
  unfold map andThen followedBy
  rw [bind_assoc]
  refine bind_congr fun o => ?_
  cases o with
  | signal g => rfl
  | success v rest =>
    simp only [bind_assoc]
    refine bind_congr fun o => ?_
    cases o <;> rfl

/-- A separator and an element, of which the element is kept. -/
def leading (sep : Parser σ τ ε β) (p : Parser σ τ ε α) : Parser σ τ ε α :=
  (sep.andThen p).map Prod.snd

theorem leading_eq (sep : Parser σ τ ε β) (p : Parser σ τ ε α) :
    sep.leading p = sep.followedBy fun _ => p := by
  rw [leading, map_andThen]
  exact congrArg (fun q => sep.followedBy fun _ => q) p.map_id

theorem progresses_tag [Payload τ ε] {ρ : Type} (same : τ → ρ → Bool) (mode : Mode) {pattern : List ρ}
    (h : pattern ≠ []) : (tag same mode pattern : Parser σ τ ε (Window τ)).Progresses := by
  intro x s v rest t ht
  have hpos := List.length_pos_iff.mpr h
  rw [tag_eq] at ht
  split at ht
  · split at ht
    · cases mode <;> cases ht
    · cases ht
      rw [Window.length_drop]
      omega
  · cases ht

end Parser

variable [Payload τ ε] {sep : Parser σ τ ε β} {p : Parser σ τ ε α}

/-- What a fold makes of the values, made of the array of them instead. -/
theorem Repetition.foldOver_eq_map_collect {r : Repetition} (hends : r.Ends) (start : κ)
    (step : κ → α → κ) (p : Parser σ τ ε α) : Parser.foldOver r (pure start) step p =
      (Parser.collect r .sequence #[] p).map fun vs => vs.toList.foldl step start :=
  collect_eq_map hends ⟨start, step, fun held _ => held, 1⟩ start p

namespace Separated

/-- Both loops take the same turns, over separators that take input. -/
theorem loop_eq_loop {r : Repetition} (hall : ∀ i, r.range.contains i = true) (hsep : sep.Shrinks)
    (hprogress : sep.Progresses) (hp : p.Shrinks) (into : Container α κ) (turns turns' i : Nat)
    (held : κ) (x : Window τ) (s : σ) (hturns : x.length < turns) (hturns' : x.length < turns') :
    Parser.separatedLoop into sep p turns held x s =
      r.loop (sep.leading p) (fun held v => return into.insert held v) turns' i held x s := by
  induction turns generalizing turns' i held x s with
  | zero => omega
  | succ turns ih =>
    obtain ⟨turns', rfl⟩ : ∃ k, turns' = k + 1 := ⟨turns' - 1, by omega⟩
    have hleading : (sep.leading p) x = sep.followedBy (fun _ => p) x :=
      congrFun (Parser.leading_eq sep p) x
    rw [Parser.separatedLoop, Repetition.loop, hleading, Parser.followedBy, bind_assoc]
    cases hw : sep x s with
    | error why t => rw [Run.bind_of_error hw, Run.bind_of_error hw]
    | ok o t =>
      rw [Run.bind_of_ok hw, Run.bind_of_ok hw]
      rcases o with ⟨w, next⟩ | (e | e | n)
      · have hle := hsep _ _ _ _ _ hw
        have hne := hprogress _ _ _ _ _ hw
        simp only [beq_eq_false_iff_ne.mpr hne]
        cases hv : p next t with
        | error why u => exact (Run.bind_of_error hv).trans (Run.bind_of_error hv).symm
        | ok o u =>
          refine (Run.bind_of_ok hv).trans (Eq.trans ?_ (Run.bind_of_ok hv).symm)
          rcases o with ⟨v, rest⟩ | (e | e | n)
          · have hrest := hp _ _ _ _ _ hv
            have hstall : (rest.length == x.length) = false := beq_eq_false_iff_ne.mpr (by omega)
            simp only [hstall, Bool.and_false]
            exact ih turns' (Counts.next i) _ rest u (by omega) (by omega)
          · simp only [hall]
            rfl
          · rfl
          · rfl
      · simp only [pure_bind, hall]
        rfl
      · rfl
      · rfl

/-- What follows the first element is folded by a repetition that errs at no count, if it has a turn for
each element and one more. -/
theorem rest_eq_foldOver {r : Repetition} (hall : ∀ i, r.range.contains i = true)
    (hinverted : r.range.inverted = false) (hsep : sep.Shrinks) (hprogress : sep.Progresses)
    (hp : p.Shrinks) (into : Container α κ) (first : α) {x : Window τ}
    (hturns : x.length < r.counts.turns x.length) (s : σ) :
    Parser.separatedRest into sep p first x s =
      Parser.foldOver r (pure (into.insert into.empty first)) into.insert (sep.leading p) x s := by
  unfold Parser.foldOver
  rw [pure_bind, Repetition.run_eq_loop hinverted]
  exact loop_eq_loop hall hsep hprogress hp into _ _ 0 _ x s (Nat.lt_succ_self _) hturns

theorem list1_eq_followedBy (into : Container α κ) :
    Parser.separatedList1 into sep p = p.followedBy (Parser.separatedRest into sep p) := rfl

theorem list0_eq (into : Container α κ) (x : Window τ) (s : σ) :
    Parser.separatedList0 into sep p x s = match p x s with
      | .ok (.signal (.error _)) t => .ok (.success into.empty x) t
      | _ => Parser.separatedList1 into sep p x s := by
  unfold Parser.separatedList0 Parser.separatedList1
  cases hv : p x s with
  | error why t => exact (Run.bind_of_error hv).trans (Run.bind_of_error hv).symm
  | ok o t =>
    rw [Run.bind_of_ok hv, Run.bind_of_ok hv]
    rcases o with _ | _ | _ | _ <;> rfl

/-- Where turns lead to a separator that takes nothing, the list ends. The calls are those of the turns
and of that separator. -/
theorem rest_of_stalled (hsep : sep.Shrinks) (hp : p.Shrinks) {into : Container α κ} {first : α}
    {x : Window τ} {s u : σ} {ls : List (Round τ ε α)} {b : Stage κ τ σ} {w : β} {next : Window τ}
    (h : Rounds (Turn into sep p) ⟨into.insert into.empty first, x, s⟩ ls b)
    (hw : sep b.input b.state = .ok (.success w next) u) (hnext : next.length = b.input.length)
    (seen : List (Call τ ε)) :
    Parser.separatedRest into sep p first x s = .ok (.errorAt b.input .separatedList) u ∧
      Parser.separatedRest into (sep.noted 0) (p.noted 1) first x ⟨s, seen⟩ =
        .ok (.errorAt b.input .separatedList)
          ⟨u, seen ++ ls.flatMap Round.calls ++ [⟨0, b.input, none⟩]⟩ :=
  loop_of_closes hsep hp h (.stalled hw hnext) seen (Nat.lt_succ_self x.length)

/-- A separated list is an element and a repetition of a separator with an element behind it, if
separators take input. Over every input it is the repetition without end, and where the elements can be
counted it is the one that collects any number of values, to which the first one is prepended. Without a
first element one kind of list signals as the element does, and the other one is empty after an error. A
separator that takes nothing makes a list end with an error of its own at the input before it, after
which no element is tried. -/
theorem lists_are_repetitions (hsep : sep.Shrinks) (hp : p.Shrinks) (into : Container α κ)
    (x : Window τ) (s : σ) :
    (sep.Progresses →
      Parser.separatedList1 into sep p x s =
        p.followedBy (fun first => Parser.fold Bounds.unbounded.toRange
          (pure (into.insert into.empty first)) into.insert (sep.leading p)) x s ∧
      (x.length < largestCount → Parser.separatedList1 into sep p x s =
        p.followedBy (fun first => (Parser.many0 .sequence (sep.leading p)).map fun others =>
          into.insertAll into.empty (first :: others.toList)) x s)) ∧
    (Parser.separatedList0 into sep p x s = match p x s with
      | .ok (.signal (.error _)) t => .ok (.success into.empty x) t
      | _ => Parser.separatedList1 into sep p x s) ∧
    ∀ first rest t ls b w next u, p x s = .ok (.success first rest) t →
      Rounds (Turn into sep p) ⟨into.insert into.empty first, rest, t⟩ ls b →
      sep b.input b.state = .ok (.success w next) u → next.length = b.input.length →
      Parser.separatedList1 into sep p x s = .ok (.errorAt b.input .separatedList) u ∧
      Parser.separatedList0 into sep p x s = .ok (.errorAt b.input .separatedList) u ∧
      Parser.separatedList1 into (sep.noted 0) (p.noted 1) x ⟨s, []⟩ =
        .ok (.errorAt b.input .separatedList)
          ⟨u, [⟨1, x, none⟩] ++ ls.flatMap Round.calls ++ [⟨0, b.input, none⟩]⟩ ∧
      Parser.separatedList0 into (sep.noted 0) (p.noted 1) x ⟨s, []⟩ =
        .ok (.errorAt b.input .separatedList)
          ⟨u, [⟨1, x, none⟩] ++ ls.flatMap Round.calls ++ [⟨0, b.input, none⟩]⟩ := by
  refine ⟨fun hprogress => ⟨?_, fun hx => ?_⟩, list0_eq into x s, ?_⟩
  · rw [list1_eq_followedBy]
    refine Parser.followedBy_congr hp fun first rest t _ => ?_
    exact rest_eq_foldOver (r := .fold Bounds.unbounded.toRange) (fun _ => rfl) rfl hsep hprogress hp
      into first (Nat.lt_succ_self _) t
  · rw [list1_eq_followedBy]
    refine Parser.followedBy_congr hp fun first rest t hrest => ?_
    rw [rest_eq_foldOver (r := .many0) (fun _ => rfl) rfl hsep hprogress hp into first
      (Nat.lt_of_le_of_lt hrest hx) t]
    exact congrFun (congrFun (Repetition.foldOver_eq_map_collect (r := .many0) (fun _ => rfl) _ _ _) rest) t
  · intro first rest t ls b w next u hfirst h hw hnext
    obtain ⟨hrun, hnoted⟩ := rest_of_stalled hsep hp h hw hnext [⟨1, x, none⟩]
    have hfirst' := Parser.noted_of_ok 1 hfirst []
    exact ⟨(Run.bind_of_ok hfirst).trans hrun, (Run.bind_of_ok hfirst).trans hrun,
      (Run.bind_of_ok hfirst').trans hnoted, (Run.bind_of_ok hfirst').trans hnoted⟩

/-- Letters with one comma between two of them, and with any number of commas, which may be none. The
comma behind the last letter is left, and where no comma stands the other list ends with an error. -/
theorem lists_are_repetitions_letters :
    let comma : Parser Unit UInt8 (Trail UInt8) (Window UInt8) := .literal .complete [44]
    let commas : Parser Unit UInt8 (Trail UInt8) (Window UInt8) := .takeWhile (· == 44) 0 .tag
    let letters : Parser Unit UInt8 (Trail UInt8) (Window UInt8) := .letters
    let x : Window UInt8 := .ofList [97, 44, 98, 44, 59]
    let y : Window UInt8 := .ofList [97, 44, 44, 98, 59, 99]
    (comma.Shrinks ∧ comma.Progresses ∧ commas.Shrinks ∧ letters.Shrinks ∧ x.length < largestCount) ∧
    Parser.separatedList1 .sequence comma letters x () =
      letters.followedBy (fun first => (Parser.many0 .sequence (comma.leading letters)).map
        fun others => Container.sequence.insertAll #[] (first :: others.toList)) x () ∧
    Parser.separatedList1 .sequence comma letters x () =
      .ok (.success #[x.take 1, (x.drop 2).take 1] (x.drop 3)) () ∧
    Parser.separatedList0 .sequence (commas.noted 0) (letters.noted 1) y ⟨(), []⟩ =
      .ok (.errorAt (y.drop 4) .separatedList) ⟨(), [⟨1, y, none⟩, ⟨0, y.drop 1, none⟩,
        ⟨1, y.drop 3, none⟩, ⟨0, y.drop 4, none⟩]⟩ := by
  intro comma commas letters x y
  have hcomma : comma.Shrinks := Parser.shrinks_tag _ _ _
  have hprogress : comma.Progresses := Parser.progresses_tag _ _ (List.cons_ne_nil _ _)
  have hcommas : commas.Shrinks := Parser.shrinks_takeWhile _ _ _
  have hletters : letters.Shrinks := Parser.shrinks_takeWhile _ _ _
  have hx : x.length < largestCount := by decide
  have hlist := lists_are_repetitions hcomma hletters .sequence x ()
  have hstall := lists_are_repetitions hcommas hletters .sequence y ()
  have turn : Turn .sequence commas letters ⟨#[y.take 1], y.drop 1, ()⟩
      ⟨[⟨0, y.drop 1, none⟩, ⟨1, y.drop 3, none⟩], (y.drop 3).take 1⟩
      ⟨#[y.take 1, (y.drop 3).take 1], y.drop 4, ()⟩ := .taken rfl (by decide) rfl
  refine ⟨⟨hcomma, hprogress, hcommas, hletters, hx⟩, (hlist.1 hprogress).2 hx, rfl, ?_⟩
  exact (hstall.2.2 _ _ _ _ _ _ _ _ rfl (Rounds.none.more turn) rfl rfl).2.2.2

end Separated

end Reprise
