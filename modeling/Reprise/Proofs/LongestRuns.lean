import Mathlib.Data.List.TakeWhile
import Reprise.Proofs.Lines
import Reprise.Proofs.Repeating

/-!
# Longest runs

A parser that takes elements while they pass a test takes the longest run of them that its input begins with, and
the input behind it does not go on with such an element. So nothing is taken by the same test there, and a
repetition finds one run at most.
-/

namespace Reprise

variable {σ τ ε κ : Type} {test : τ → Bool} {source front front' behind : List τ}

/-- The longest of the prefixes of a source whose elements all pass a test. -/
structure LongestRun (test : τ → Bool) (source front : List τ) : Prop where
  shown : front <+: source
  passes : ∀ e ∈ front, test e = true
  length_le : ∀ front', front' <+: source → (∀ e ∈ front', test e = true) → front'.length ≤ front.length

namespace LongestRun

theorem of_takeWhile (test : τ → Bool) (source : List τ) : LongestRun test source (source.takeWhile test) where
  shown := List.takeWhile_prefix test
  passes _ he := List.mem_takeWhile_imp he
  length_le := by
    rintro front ⟨behind, rfl⟩ hpasses
    rw [List.takeWhile_append_of_pos hpasses, List.length_append]
    exact Nat.le_add_right _ _

theorem unique (h : LongestRun test source front) (h' : LongestRun test source front') : front = front' := by
  have hle : front.length ≤ front'.length := h'.length_le front h.shown h.passes
  have hge : front'.length ≤ front.length := h.length_le front' h'.shown h'.passes
  exact (List.prefix_of_prefix_length_le h.shown h'.shown hle).eq_of_length (Nat.le_antisymm hle hge)

/-- A run is the longest one if its elements pass and what is behind it does not go on with another. -/
theorem append_iff : LongestRun test (front ++ behind) front ↔
    (∀ e ∈ front, test e = true) ∧ ∀ e ∈ behind.head?, test e = false := by
  constructor
  · intro h
    refine ⟨h.passes, fun e he => ?_⟩
    by_contra hpass
    -- with that element there is a longer run
    have hall : ∀ e' ∈ front ++ [e], test e' = true := by
      rw [List.forall_mem_append, List.forall_mem_singleton]
      exact ⟨h.passes, Bool.eq_true_of_not_eq_false hpass⟩
    have hlonger : front ++ [e] <+: front ++ behind :=
      (List.prefix_append_right_inj front).mpr ⟨behind.tail, (List.eq_cons_of_mem_head? he).symm⟩
    have hle := h.length_le (front ++ [e]) hlonger hall
    simp at hle
  · rintro ⟨hpasses, hbehind⟩
    have h := of_takeWhile test (front ++ behind)
    rwa [takeWhile_append_of_head hpasses hbehind] at h

variable {x : Window τ}

theorem elements_take (h : LongestRun test x.elements front) : (x.take front.length).elements = front :=
  (List.prefix_iff_eq_take.mp h.shown).symm

theorem head_drop (h : LongestRun test x.elements front) :
    ∀ e ∈ (x.drop front.length).elements.head?, test e = false := by
  have hx : front ++ (x.drop front.length).elements = x.elements := by
    rw [← x.take_append_drop front.length, h.elements_take]
  exact (append_iff.mp (hx ▸ h)).2

/-- Behind a longest run the longest one is empty. -/
theorem drop (h : LongestRun test x.elements front) : LongestRun test (x.drop front.length).elements [] :=
  append_iff.mpr ⟨List.forall_mem_nil _, h.head_drop⟩

end LongestRun

namespace Parser

variable [Payload τ ε] {x : Window τ}

/-- The longest run is taken, unless it is too short. -/
theorem takeWhile_of_longestRun (h : LongestRun test x.elements front) (least : Nat) (kind : ErrorKind) :
    (takeWhile test least kind x : Run σ (Outcome τ ε (Window τ))) = pure (
      if front.length < least then .errorAt x kind
      else .success (x.take front.length) (x.drop front.length)) := by
  rw [takeWhile_eq, ← h.unique (.of_takeWhile test x.elements)]

section

variable {F : κ → Window τ → κ} (kind : ErrorKind) (held : κ) (s : σ)

/-- A run that is not empty makes a turn of a repetition. -/
theorem turn_takeWhile (h : LongestRun test x.elements front) (hfront : front ≠ []) :
    Repetition.many0.Turn (takeWhile test 1 kind : Parser σ τ ε (Window τ)) (fun held v => return F held v)
      ⟨held, x, s⟩ ⟨[⟨0, x, none⟩], x.take front.length⟩
      ⟨F held (x.take front.length), x.drop front.length, s⟩ := by
  have hpos : 0 < front.length := List.length_pos_iff.mpr hfront
  have hle : front.length ≤ x.length := x.length_eq ▸ h.shown.length_le
  have hrest : (x.drop front.length).length ≠ x.length := by
    rw [Window.length_drop]
    omega
  refine .taken ?_ (fun _ => hrest) rfl
  rw [takeWhile_of_longestRun h, if_neg (Nat.not_lt.mpr hpos)]
  rfl

/-- A repetition ends well where no run is left to take. -/
theorem closes_takeWhile (h : LongestRun test x.elements []) (i : Nat) :
    ∃ last : List (Call τ ε), Repetition.many0.Closes (takeWhile test 1 kind) (fun held v => return F held v) i
      ⟨held, x, s⟩ last (.ok (.success held x) s) :=
  ⟨_, .enough (congrFun (takeWhile_of_longestRun h 1 kind) s) rfl⟩

end

/-- There is one run at most, since behind it there is none. -/
theorem many0_takeWhile (h : LongestRun test x.elements front) (kind : ErrorKind)
    (into : Container (Window τ) κ) (s : σ) :
    (many0 into (takeWhile test 1 kind) x s : EStateM.Result Stop σ (Outcome τ ε κ)) =
      .ok (.success (into.insertAll into.empty (if front = [] then [] else [x.take front.length]))
        (x.drop front.length)) s := by
  have hinverted : Repetition.many0.range.inverted = false := rfl
  -- two turns at least, for the run and for what is behind it
  have hturns : Repetition.many0.counts.turns x.length = largestCount - 2 + 1 + 1 := rfl
  unfold many0 collect
  rw [Repetition.run_eq_loop hinverted, hturns]
  by_cases hfront : front = []
  · subst hfront
    obtain ⟨last, hcloses⟩ := closes_takeWhile (ε := ε) (F := into.insert) kind into.empty s h 0
    rw [Repetition.loop_closes hcloses]
    simp [Container.insertAll]
  · have hturn := turn_takeWhile (ε := ε) (F := into.insert) kind into.empty s h hfront
    obtain ⟨last, hcloses⟩ := closes_takeWhile (ε := ε) (F := into.insert) kind
      (into.insert into.empty (x.take front.length)) s h.drop (Counts.next 0)
    rw [if_neg hfront]
    exact (Repetition.loop_turn hturn _ 0).trans (Repetition.loop_closes hcloses _)

/-- Every source begins with one longest run of elements that pass a test, which may be empty. If it has as many
elements as are asked for, it is taken, just as it is, and what is left is empty or starts with an element that
does not pass; otherwise there is an error of the given kind where the source starts. To go on with the same test
is to take nothing, and a repetition that asks for an element each time yields the run alone, or nothing where the
run is empty. -/
theorem takes_longest_run (test : τ → Bool) (x : Window τ) :
    (∃! front, LongestRun test x.elements front) ∧
    ∀ front, LongestRun test x.elements front →
      let taken := x.take front.length
      let rest := x.drop front.length
      (taken.elements = front ∧ taken.elements ++ rest.elements = x.elements ∧
        ∀ e ∈ rest.elements.head?, test e = false) ∧
      ∀ (kind : ErrorKind) (s : σ),
        let run (least : Nat) (y : Window τ) : EStateM.Result Stop σ (Outcome τ ε (Window τ)) :=
          takeWhile test least kind y s
        (∀ least, (least ≤ front.length → run least x = .ok (.success taken rest) s) ∧
          (front.length < least → run least x = .ok (.errorAt x kind) s)) ∧
        run 0 rest = .ok (.success (rest.take 0) rest) s ∧
        ∀ {κ : Type} (into : Container (Window τ) κ),
          (many0 into (takeWhile test 1 kind) x s : EStateM.Result Stop σ (Outcome τ ε κ)) =
            .ok (.success (into.insertAll into.empty (if front = [] then [] else [taken])) rest) s := by
  refine ⟨⟨_, .of_takeWhile test x.elements, fun front h => h.unique (.of_takeWhile test x.elements)⟩,
    fun front h => ⟨⟨h.elements_take, x.take_append_drop front.length, h.head_drop⟩, fun kind s => ?_⟩⟩
  intro run
  refine ⟨fun least => ⟨fun hle => ?_, fun hlt => ?_⟩, ?_, fun into => many0_takeWhile h kind into s⟩
  · have htaken := congrFun (takeWhile_of_longestRun (σ := σ) (ε := ε) h least kind) s
    rwa [if_neg (Nat.not_lt.mpr hle)] at htaken
  · have hrefused := congrFun (takeWhile_of_longestRun (σ := σ) (ε := ε) h least kind) s
    rwa [if_pos hlt] at hrefused
  · have hnothing := congrFun (takeWhile_of_longestRun (σ := σ) (ε := ε) h.drop 0 kind) s
    rwa [if_neg (Nat.not_lt_zero _), List.length_nil, Window.drop_zero] at hnothing

/-- Two digits in front of a letter: they are enough or too few, and no others are found. -/
theorem takes_longest_run_digits :
    let run (least : Nat) : Parser Unit UInt8 (Trail UInt8) (Window UInt8) := .digits least
    let x : Window UInt8 := .ofList [49, 50, 65, 51]
    LongestRun isDigit x.elements [49, 50] ∧
      run 2 x () = .ok (.success (x.take 2) (x.drop 2)) () ∧ run 3 x () = .ok (.errorAt x .digit) () ∧
      run 0 (x.drop 2) () = .ok (.success ((x.drop 2).take 0) (x.drop 2)) () ∧
      many0 .sequence (run 1) x () = .ok (.success #[x.take 2] (x.drop 2)) () := by
  intro run x
  have hdigits : ∀ e ∈ ([49, 50] : List UInt8), isDigit e = true := List.all_eq_true.mp rfl
  have hletter : ∀ e ∈ ([65, 51] : List UInt8).head?, isDigit e = false := by
    rintro e ⟨⟩
    rfl
  have hfront : LongestRun isDigit x.elements [49, 50] := LongestRun.append_iff.mpr ⟨hdigits, hletter⟩
  obtain ⟨-, hlongest⟩ := takes_longest_run (σ := Unit) (ε := Trail UInt8) isDigit x
  obtain ⟨-, hrun⟩ := hlongest [49, 50] hfront
  obtain ⟨hleast, hnothing, hmany⟩ := hrun .digit ()
  exact ⟨hfront, (hleast 2).1 (by decide), (hleast 3).2 (by decide), hnothing, hmany .sequence⟩

end Parser

end Reprise
