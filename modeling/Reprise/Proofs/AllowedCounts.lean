import Mathlib.Order.Bounds.Defs
import Mathlib.Order.Interval.Set.Defs
import Reprise.Proofs.Additive

/-!
# Allowed counts

Whether a range is inverted, what it contains, the most it allows and the counts to go through are said one by
one, and a repetition that has gone through all counts does not ask for the range again. So they have to agree:
on every range there is, up to the largest count, they describe one interval of counts, and no repetition within
the range succeeds with a number of values outside of it.
-/

namespace Reprise

variable {σ τ ε α β κ : Type}

namespace Bounds

/-- The ranges that are provided, with bounds of 64 bits. -/
inductive Provided : Bounds → Prop where
  | inclusive (low high : UInt64) : Provided (.inclusive low.toNat high.toNat)
  | exclusive (low stop : UInt64) : Provided (.exclusive low.toNat stop.toNat)
  | atLeast (low : UInt64) : Provided (.atLeast low.toNat)
  | atMost (high : UInt64) : Provided (.atMost high.toNat)
  | below (stop : UInt64) : Provided (.below stop.toNat)
  | exactly (n : UInt64) : Provided (.exactly n.toNat)
  | unbounded : Provided .unbounded

/-- The counts that a range contains. -/
def allowed (b : Bounds) : Set Nat := {n | n ≤ largestCount ∧ b.contains n = true}

variable {b : Bounds}

theorem toNat_le_largestCount (n : UInt64) : n.toNat ≤ largestCount := Nat.le_sub_one_of_lt n.toNat_lt

theorem Provided.lower_le (h : b.Provided) : b.lower ≤ largestCount := by
  cases h with
  | inclusive n _ | exclusive n _ | atLeast n | exactly n => exact toNat_le_largestCount n
  | atMost _ | below _ | unbounded => exact Nat.zero_le _

theorem Provided.most_le (h : b.Provided) : b.most ≤ largestCount := by
  cases h with
  | inclusive _ n | atMost n | exactly n => exact toNat_le_largestCount n
  | exclusive _ n | below n => exact (Nat.sub_le _ 1).trans (toNat_le_largestCount n)
  | atLeast _ | unbounded => exact Nat.le_refl _

theorem contains_iff (hb : b.isInverted = false) {n : Nat} (hn : n ≤ largestCount) :
    b.contains n = true ↔ b.lower ≤ n ∧ n ≤ b.most := by
  obtain ⟨low, upper⟩ := b
  cases upper with
  | included high => simp [contains, most]
  | excluded stop =>
    simp [isInverted] at hb
    simp [contains, most]
    omega
  | unbounded => simp [contains, most, hn]

theorem lower_le_most (h : b.Provided) (hb : b.isInverted = false) : b.lower ≤ b.most := by
  have hlower := h.lower_le
  obtain ⟨low, upper⟩ := b
  cases upper with
  | included high => simpa [isInverted, most] using hb
  | excluded stop =>
    simp [isInverted] at hb
    simp [most]
    omega
  | unbounded => exact hlower

theorem allowed_eq_Icc (h : b.Provided) (hb : b.isInverted = false) :
    b.allowed = Set.Icc b.lower b.most := by
  ext n
  constructor
  · rintro ⟨hn, hcontains⟩
    exact (contains_iff hb hn).mp hcontains
  · intro hn
    have hle : n ≤ largestCount := hn.2.trans h.most_le
    exact ⟨hle, (contains_iff hb hle).mpr hn⟩

theorem isGreatest_most (h : b.Provided) (hb : b.isInverted = false) : IsGreatest b.allowed b.most := by
  rw [allowed_eq_Icc h hb]
  exact ⟨⟨lower_le_most h hb, Nat.le_refl _⟩, fun _ hn => hn.2⟩

theorem isInverted_iff (h : b.Provided) : b.isInverted = true ↔ b.allowed = ∅ := by
  constructor
  · intro hb
    ext n
    obtain ⟨low, upper⟩ := b
    cases upper with
    | included high =>
      simp [isInverted] at hb
      simp [allowed, contains]
      omega
    | excluded stop =>
      simp [isInverted] at hb
      simp [allowed, contains]
      omega
    | unbounded => cases hb
  · intro hnone
    by_contra hb
    have hmost := (isGreatest_most h (Bool.eq_false_of_not_eq_true hb)).1
    rw [hnone] at hmost
    exact hmost

theorem most_eq_largestCount {b : Bounds} (hb : b.isBounded = false) : b.most = largestCount := by
  obtain ⟨low, upper⟩ := b
  cases upper with
  | included high | excluded stop => simp [isBounded] at hb
  | unbounded => rfl

end Bounds

namespace Repetition

variable {r : Repetition} {p : Parser σ τ ε α} {F : β → α → β} {held : β} {x rest : Window τ}
  {s u : σ}

/-- Turns whose sink folds the values are applications of the child one after the other. -/
theorem gets_of_rounds {a b : Stage β τ σ} {ls : List (Round τ ε α)}
    (h : Rounds (r.Turn p fun held v => return F held v) a ls b) :
    p.Gets a.input a.state (ls.map Round.value) b.input b.state := by
  induction h with
  | none => exact .none
  | more _ hturn ih =>
    obtain ⟨hp, _, hsink⟩ := hturn
    obtain ⟨-, rfl⟩ := EStateM.Result.ok.inj hsink
    rw [List.map_append]
    exact ih.append (.more hp .none)

/-- How a repetition succeeds with some values: its counts are used up by them, or its child errs on what they
leave, at a count that the range contains. -/
inductive SucceedsWith (r : Repetition) (p : Parser σ τ ε α) (x : Window τ) (s : σ) (vs : List α)
    (rest : Window τ) (u : σ) : Prop where
  | exhausted : p.Gets x s vs rest u → r.counts.size = vs.length → SucceedsWith r p x s vs rest u
  | erred {t : σ} {e : ε} : p.Gets x s vs rest t → (vs.length : ℕ∞) < r.counts.size →
    r.range.contains (Counts.after vs.length) = true → p rest t = .ok (.signal (.error e)) u →
    SucceedsWith r p x s vs rest u

variable [Payload τ ε]

/-- What a finished repetition succeeds with are the values of its turns. -/
theorem succeedsWith_of_finishes {a b : Stage β τ σ} {ls : List (Round τ ε α)} {last : List (Call τ ε)}
    {held : β} (h : Rounds (r.Turn p fun held v => return F held v) a ls b)
    (hfinishes : r.Finishes p (fun held v => return F held v) ls.length (Counts.after ls.length) b last
      (.ok (.success held rest) u)) :
    r.SucceedsWith p a.input a.state (ls.map Round.value) rest u ∧
      held = (ls.map Round.value).foldl F a.held := by
  have hgets := gets_of_rounds h
  have hlength : (ls.map Round.value).length = ls.length := List.length_map _
  cases hfinishes with
  | exhausted hsize => exact ⟨.exhausted hgets (hlength ▸ hsize), held_eq h⟩
  | closed hlt hcloses =>
    cases hcloses with
    | enough hp hcount => exact ⟨.erred hgets (hlength ▸ hlt) (hlength ▸ hcount) hp, held_eq h⟩

theorem not_inverted_of_success {sink : β → α → Run σ β} {v : β}
    (h : r.run p sink held x s = .ok (.success v rest) u) : r.range.inverted = false := by
  by_contra hinverted
  rw [run_inverted (Bool.eq_true_of_not_eq_false hinverted)] at h
  cases h

/-- Every success of a repetition is of that form. Only without a last count it matters that the child never
leaves more than it got: then there are no more values than elements. -/
theorem exists_succeedsWith (hends : r.counts = .endless → p.Shrinks ∧ r.requireProgress = true) {v : β}
    (h : r.run p (fun held v => return F held v) held x s = .ok (.success v rest) u) :
    ∃ vs, r.SucceedsWith p x s vs rest u ∧ v = vs.foldl F held ∧
      (r.counts = .endless → vs.length ≤ x.length) := by
  rw [run_eq_loop (not_inverted_of_success h)] at h
  cases hcounts : r.counts with
  | upTo limit =>
    obtain ⟨ls, b, hrounds, hfinishes⟩ :=
      exists_rounds_upTo hcounts p (fun held v => return F held v) ⟨held, x, s⟩
    obtain ⟨last, result, hfinishes⟩ := hfinishes (Counts.after ls.length)
    have hsize : r.counts.size = (limit : ℕ∞) := congrArg Counts.size hcounts
    have hturns (hlt : (ls.length : ℕ∞) < r.counts.size) : ls.length < r.counts.turns x.length := by
      rw [Counts.turns_of_size_eq hsize]
      exact Nat.cast_lt.mp (hsize ▸ hlt)
    have hrun := loop_of_finishes hrounds hfinishes hturns
    obtain rfl := hrun.symm.trans h
    obtain ⟨hsucceeds, hheld⟩ := succeedsWith_of_finishes hrounds hfinishes
    exact ⟨_, hsucceeds, hheld, nofun⟩
  | endless =>
    obtain ⟨hp, hr⟩ := hends hcounts
    obtain ⟨ls, b, hrounds, hfinishes⟩ :=
      exists_rounds hp (fun _ => hr) (fun held v => return F held v) ⟨held, x, s⟩
    obtain ⟨last, result, hfinishes⟩ := hfinishes (Counts.after ls.length)
    have hrun := loop_of_finishes hrounds hfinishes fun hlt =>
      lt_turns hp (fun _ => hr) hrounds hlt (Nat.le_refl x.length)
    obtain rfl := hrun.symm.trans h
    obtain ⟨hsucceeds, hheld⟩ := succeedsWith_of_finishes hrounds hfinishes
    refine ⟨_, hsucceeds, hheld, fun _ => ?_⟩
    rw [List.length_map]
    exact Nat.le_of_add_right_le (rounds_le hp hr hrounds)

end Repetition

namespace Bounds

variable {b : Bounds} {p : Parser σ τ ε α} {x rest : Window τ} {s u : σ} {vs : List α}

/-- The values that were got are as many as a range allows. Where it allows more of them, the child erred on
what is left. -/
structure StopsWithin (b : Bounds) (p : Parser σ τ ε α) (x : Window τ) (s : σ) (vs : List α)
    (rest : Window τ) (u : σ) : Prop where
  allowed : vs.length ∈ b.allowed
  full : vs.length = b.most → p.Gets x s vs rest u
  erred : vs.length < b.most → ∃ t e, p.Gets x s vs rest t ∧ p rest t = .ok (.signal (.error e)) u

/-- The counts that a repetition within a range goes through end at the most that it allows, or they have no
end, and then the input does not last for all of them. -/
theorem stopsWithin (hprovided : b.Provided) (hb : b.isInverted = false) {r : Repetition}
    (hrange : r.range = b.toRange) (hcounts : r.counts = .upTo b.most ∨
      r.counts = .endless ∧ b.most = largestCount ∧ vs.length < largestCount)
    (h : r.SucceedsWith p x s vs rest u) : b.StopsWithin p x s vs rest u := by
  cases h with
  | exhausted hgets hsize =>
    have hfull : vs.length = b.most := by
      rcases hcounts with hcounts | ⟨hcounts, -, -⟩
      · rw [hcounts] at hsize
        exact (Nat.cast_inj.mp hsize).symm
      · rw [hcounts] at hsize
        exact absurd hsize.symm (ENat.natCast_ne_top _)
    exact ⟨hfull ▸ (isGreatest_most hprovided hb).1, fun _ => hgets, fun hlt => absurd hfull hlt.ne⟩
  | @erred t e hgets hlt hcontains hp =>
    have hless : vs.length < b.most := by
      rcases hcounts with hcounts | ⟨-, hmost, hlength⟩
      · rw [hcounts] at hlt
        exact Nat.cast_lt.mp hlt
      · rwa [hmost]
    have hle : vs.length ≤ largestCount := hless.le.trans hprovided.most_le
    rw [Counts.after_of_le hle, hrange] at hcontains
    exact ⟨⟨hle, hcontains⟩, fun hfull => absurd hfull hless.ne, fun _ => ⟨t, e, hgets, hp⟩⟩

variable [Payload τ ε]

theorem many_stopsWithin (hprovided : b.Provided) (into : Container α κ) {held : κ}
    (h : Parser.many b.toRange into p x s = .ok (.success held rest) u) :
    ∃ vs, b.StopsWithin p x s vs rest u ∧ held = into.insertAll into.empty vs := by
  have hb : b.isInverted = false := Repetition.not_inverted_of_success h
  obtain ⟨vs, hsucceeds, hheld, -⟩ := Repetition.exists_succeedsWith (r := .many b.toRange) nofun h
  exact ⟨vs, stopsWithin hprovided hb rfl (.inl rfl) hsucceeds, hheld⟩

theorem fold_stopsWithin (hprovided : b.Provided)
    (hends : b.isBounded = false → p.Shrinks ∧ x.length < largestCount) (init : Run σ β) (step : β → α → β)
    {acc : β} (h : Parser.fold b.toRange init step p x s = .ok (.success acc rest) u) :
    ∃ start t vs, init s = .ok start t ∧ b.StopsWithin p x t vs rest u ∧ acc = vs.foldl step start := by
  unfold Parser.fold Parser.foldOver at h
  cases hinit : init s with
  | error why t =>
    rw [Run.bind_of_error hinit] at h
    cases h
  | ok start t =>
    rw [Run.bind_of_ok hinit] at h
    have hb : b.isInverted = false := Repetition.not_inverted_of_success h
    cases hbounded : b.isBounded with
    | true =>
      have hcounts : b.toRange.uncapped = .upTo b.most := if_pos hbounded
      have hbound (hendless : (Repetition.fold b.toRange).counts = .endless) :
          p.Shrinks ∧ (Repetition.fold b.toRange).requireProgress = true := by
        cases hcounts.symm.trans hendless
      obtain ⟨vs, hsucceeds, hacc, -⟩ := Repetition.exists_succeedsWith (r := .fold b.toRange) hbound h
      exact ⟨start, t, vs, rfl, stopsWithin hprovided hb rfl (.inl hcounts) hsucceeds, hacc⟩
    | false =>
      obtain ⟨hp, hx⟩ := hends hbounded
      have hcounts : b.toRange.uncapped = .endless := if_neg (Bool.eq_false_iff.mp hbounded)
      obtain ⟨vs, hsucceeds, hacc, hle⟩ :=
        Repetition.exists_succeedsWith (r := .fold b.toRange) (fun _ => ⟨hp, rfl⟩) h
      have hlt : vs.length < largestCount := (hle hcounts).trans_lt hx
      exact ⟨start, t, vs, rfl, stopsWithin hprovided hb rfl
        (.inr ⟨hcounts, most_eq_largestCount hbounded, hlt⟩) hsucceeds, hacc⟩

/-- Over each provided range the four descriptions agree. It is inverted just when it allows no count; otherwise
the most it allows is the greatest count that it allows, and it allows all from the lower bound to there. A
repetition within a range that allows no count fails before any call of its child; a fold makes its start first.
And wherever one succeeds, the number of its values is allowed, and if the range allows more, the child erred on
what is left. Nothing is asked of the child, but for a fold without an upper bound, which takes as many turns as
there are elements at most: the child must not leave more than it got, and the turns must be countable. -/
theorem repeats_within (hprovided : b.Provided) :
    (b.isInverted = true ↔ b.allowed = ∅) ∧
    (b.isInverted = false → IsGreatest b.allowed b.most ∧ b.allowed = Set.Icc b.lower b.most) ∧
    (b.allowed = ∅ → ∀ (p : Parser σ τ ε α) (x : Window τ),
      (∀ {κ : Type} (into : Container α κ),
        Parser.many b.toRange into p x = pure (.failureAt x .many)) ∧
      ∀ {β : Type} (init : Run σ β) (step : β → α → β),
        Parser.fold b.toRange init step p x = init >>= fun _ => pure (.failureAt x .fold)) ∧
    ∀ (p : Parser σ τ ε α) (x rest : Window τ) (s u : σ),
      (∀ {κ : Type} (into : Container α κ) (held : κ),
        Parser.many b.toRange into p x s = .ok (.success held rest) u →
        ∃ vs, b.StopsWithin p x s vs rest u ∧ held = into.insertAll into.empty vs) ∧
      ((b.isBounded = false → p.Shrinks ∧ x.length < largestCount) →
        ∀ {β : Type} (init : Run σ β) (step : β → α → β) (acc : β),
        Parser.fold b.toRange init step p x s = .ok (.success acc rest) u →
        ∃ start t vs, init s = .ok start t ∧ b.StopsWithin p x t vs rest u ∧ acc = vs.foldl step start) := by
  refine ⟨isInverted_iff hprovided, fun hb => ⟨isGreatest_most hprovided hb, allowed_eq_Icc hprovided hb⟩,
    fun hnone p x => ?_, fun p x rest s u => ⟨fun into held h => many_stopsWithin hprovided into h,
      fun hends {β} init step acc h => fold_stopsWithin hprovided hends init step h⟩⟩
  have hinverted : b.toRange.inverted = true := (isInverted_iff hprovided).mpr hnone
  constructor
  · intro κ into
    exact Repetition.run_inverted (r := .many b.toRange) hinverted p _ into.empty x
  · intro β init step
    refine bind_congr fun start => ?_
    exact Repetition.run_inverted (r := .fold b.toRange) hinverted p _ start x

/-- Letters A in front of another letter: as many as there may be, all that there are, and none at all. -/
theorem repeats_within_letters :
    let p : Parser Unit UInt8 (Trail UInt8) (Window UInt8) := .literal .complete [65]
    let x : Window UInt8 := .ofList [65, 65, 65, 65, 66]
    let few : Bounds := .exclusive 2 4
    let more : Bounds := .atLeast 1
    let no : Bounds := .exclusive 3 3
    (few.Provided ∧ few.isInverted = false ∧ IsGreatest few.allowed 3 ∧
      Parser.many few.toRange .counter p x () = .ok (.success 3 (x.drop 3)) () ∧
      ∃ vs, few.StopsWithin p x () vs (x.drop 3) () ∧ vs.length = 3) ∧
    (more.Provided ∧ p.Shrinks ∧ x.length < largestCount ∧
      Parser.fold more.toRange (pure 0) (fun n _ => n + 1) p x () = .ok (.success 4 (x.drop 4)) () ∧
      ∃ vs, more.StopsWithin p x () vs (x.drop 4) ()) ∧
    no.Provided ∧ no.allowed = ∅ ∧
      Parser.many no.toRange .counter p x = pure (.failureAt x .many) := by
  intro p x few more no
  have hfew : few.Provided := .exclusive 2 4
  have hmore : more.Provided := .atLeast 1
  have hno : no.Provided := .exclusive 3 3
  have hp : p.Shrinks := Parser.shrinks_tag _ _ _
  have hx : x.length < largestCount := by decide
  have hmany : Parser.many few.toRange .counter p x () = .ok (.success 3 (x.drop 3)) () := rfl
  have hfold : Parser.fold more.toRange (pure 0) (fun n _ => n + 1) p x () =
    .ok (.success 4 (x.drop 4)) () := rfl
  obtain ⟨-, hgreatest, -, hstops⟩ :=
    repeats_within (σ := Unit) (τ := UInt8) (ε := Trail UInt8) (α := Window UInt8) hfew
  obtain ⟨-, -, -, hstops'⟩ :=
    repeats_within (σ := Unit) (τ := UInt8) (ε := Trail UInt8) (α := Window UInt8) hmore
  obtain ⟨hempty, -, hfails, -⟩ :=
    repeats_within (σ := Unit) (τ := UInt8) (ε := Trail UInt8) (α := Window UInt8) hno
  obtain ⟨vs, hvs, hlength⟩ := (hstops p x _ () ()).1 .counter 3 hmany
  obtain ⟨_, _, ws, _, hws, -⟩ :=
    (hstops' p x _ () ()).2 (fun _ => ⟨hp, hx⟩) (pure 0) (fun n _ => n + 1) 4 hfold
  have hthree : 3 = 0 + vs.length := hlength.trans (Container.insertAll_counter vs 0)
  have hnone : no.allowed = ∅ := hempty.mp (by decide)
  refine ⟨⟨hfew, rfl, (hgreatest rfl).1, hmany, vs, hvs, ?_⟩, ⟨hmore, hp, hx, hfold, ws, hws⟩, hno, hnone,
    (hfails hnone p x).1 .counter⟩
  omega

end Bounds

end Reprise
