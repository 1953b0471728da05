import Reprise.Proofs.ReadBack
import Reprise.Proofs.Terminated

/-!
# First occurrences

Single elements up to a fixed pattern are a search. At each place the pattern is tried before an element is
taken, so the place at which it is found has none before it, and where there is none the end of the input
is reached.
-/

namespace Reprise

variable {σ τ ε κ : Type}

namespace Parser

variable [BEq τ] [LawfulBEq τ] {pattern : List τ} {x : Window τ}

/-- What agrees with a pattern and is no shorter begins with it. -/
theorem isPrefix_of_agree {xs : List τ} (hagree : agree (fun a b => a == b) xs pattern = true)
    (hle : pattern.length ≤ xs.length) : pattern <+: xs := by
  induction xs generalizing pattern with
  | nil =>
    obtain rfl := List.length_eq_zero_iff.mp (Nat.le_zero.mp hle)
    exact List.nil_prefix
  | cons a as ih =>
    cases pattern with
    | nil => exact List.nil_prefix
    | cons b bs =>
      simp only [agree, Bool.and_eq_true, beq_iff_eq] at hagree
      exact List.cons_prefix_cons.mpr ⟨hagree.1.symm, ih hagree.2 (Nat.le_of_succ_le_succ hle)⟩

variable [Payload τ ε]

theorem literal_of_not_isPrefix (h : ¬ pattern <+: x.elements) (s : σ) :
    (literal .complete pattern x s : EStateM.Result Stop σ (Outcome τ ε (Window τ))) =
      .ok (.errorAt x .tag) s := by
  unfold literal
  rw [tag_eq]
  by_cases hagree : agree (fun a b => a == b) x.elements pattern = true
  · have hlt : x.length < pattern.length := by
      rw [x.length_eq]
      exact Nat.lt_of_not_le fun hle => h (isPrefix_of_agree hagree hle)
    rw [if_pos hagree, if_pos hlt]
    rfl
  · rw [if_neg hagree]
    rfl

end Parser

/-- A source in three parts, of which the one in the middle is the first occurrence of a pattern. -/
structure FirstOccurrence (pattern source before behind : List τ) : Prop where
  source_eq : source = before ++ (pattern ++ behind)
  length_le : ∀ before' behind', source = before' ++ (pattern ++ behind') →
    before.length ≤ before'.length

/-- Wherever a pattern occurs it has a first occurrence. -/
theorem exists_firstOccurrence {pattern source : List τ} (h : pattern <:+: source) :
    ∃ before behind, FirstOccurrence pattern source before behind := by
  induction source with
  | nil =>
    obtain rfl := List.infix_nil.mp h
    exact ⟨[], [], rfl, fun _ _ _ => Nat.zero_le _⟩
  | cons c cs ih =>
    by_cases hhere : pattern <+: c :: cs
    · obtain ⟨behind, hbehind⟩ := hhere
      exact ⟨[], behind, hbehind.symm, fun _ _ _ => Nat.zero_le _⟩
    · obtain ⟨before, behind, hfirst⟩ := ih ((List.infix_cons_iff.mp h).resolve_left hhere)
      refine ⟨c :: before, behind, congrArg (c :: ·) hfirst.source_eq, ?_⟩
      intro before' behind' hsource
      cases before' with
      | nil => exact absurd ⟨behind', hsource.symm⟩ hhere
      | cons c' before' =>
        obtain ⟨rfl, hcs⟩ := List.cons_eq_cons.mp hsource
        exact Nat.succ_le_succ (hfirst.length_le before' behind' hcs)

namespace Terminated

/-- The pattern stands nowhere before a part of the source. -/
def Misses (pattern before behind : List τ) : Prop :=
  ∀ front back, before = front ++ back → back ≠ [] → ¬ pattern <+: back ++ behind

theorem Misses.tail {pattern before behind : List τ} {c : τ} (h : Misses pattern (c :: before) behind) :
    Misses pattern before behind :=
  fun front back hbefore => h (c :: front) back (congrArg (c :: ·) hbefore)

theorem misses_of_firstOccurrence {pattern source before behind : List τ}
    (h : FirstOccurrence pattern source before behind) : Misses pattern before (pattern ++ behind) := by
  rintro front back rfl hback ⟨behind', hbehind⟩
  have hsource : source = front ++ (pattern ++ behind') := by
    rw [h.source_eq, hbehind, List.append_assoc]
  have hle := h.length_le front behind' hsource
  have hpos := List.length_pos_iff.mpr hback
  rw [List.length_append] at hle
  omega

theorem misses_of_not_isInfix {pattern source : List τ} (h : ¬ pattern <:+: source) :
    Misses pattern source [] := by
  rintro front back rfl _ hstart
  rw [List.append_nil] at hstart
  exact h (hstart.isInfix.trans (List.suffix_append front back).isInfix)

variable [BEq τ] [LawfulBEq τ] [Payload τ ε] {pattern before behind : List τ} {x : Window τ}

/-- The loop takes elements as long as the pattern is missed. -/
theorem loop_misses (into : Container τ κ) (hmisses : Misses pattern before behind)
    (hx : x.elements = before ++ behind) (turns : Nat) (held : κ) (s : σ) :
    Parser.manyTillLoop into Parser.one (.literal .complete pattern : Parser σ τ ε (Window τ))
        (turns + before.length) held x s =
      Parser.manyTillLoop into Parser.one (.literal .complete pattern) turns
        (into.insertAll held before) (x.drop before.length) s := by
  induction before generalizing x held with
  | nil => rw [List.length_nil, Window.drop_zero]; rfl
  | cons c cs ih =>
    have hhere : ¬ pattern <+: x.elements := hx ▸ hmisses [] (c :: cs) rfl (List.cons_ne_nil c cs)
    obtain ⟨hlt, hrest⟩ := Window.drop_one_of_cons hx
    have hone : (Parser.one x s : EStateM.Result Stop σ (Outcome τ ε τ)) =
        .ok (.success c (x.drop 1)) s := by
      rw [Parser.one_eq, hx]
      rfl
    have hturn : Turn into Parser.one (.literal .complete pattern : Parser σ τ ε (Window τ))
        ⟨held, x, s⟩ _ ⟨into.insert held c, x.drop 1, s⟩ :=
      .taken (Parser.literal_of_not_isPrefix hhere s) hone (Nat.ne_of_lt hlt)
    rw [List.length_cons, ← Nat.add_assoc, loop_turn hturn, ih hmisses.tail hrest, Window.drop_drop,
      Nat.add_comm 1]
    rfl

/-- Elements up to a pattern are a search for its first occurrence. Where there is one, the elements before
it are collected in order, the pattern is the other value, and what stands behind it is left. Where there
is none, the error of the missing element at the end of the input is handed on from there. -/
theorem finds_first_occurrence (into : Container τ κ) (pattern : List τ) (x : Window τ) (s : σ) :
    let found : EStateM.Result Stop σ (Outcome τ ε (κ × Window τ)) :=
      Parser.manyTill into Parser.one (.literal .complete pattern) x s
    (∀ before behind, FirstOccurrence pattern x.elements before behind →
      found = .ok (.success
        (into.insertAll into.empty before, (x.drop before.length).take pattern.length)
        (x.drop (before.length + pattern.length))) s) ∧
    (pattern <:+: x.elements → ∃ before behind, FirstOccurrence pattern x.elements before behind) ∧
    (¬ pattern <:+: x.elements → found = .ok (.signal (.error (Payload.append (x.drop x.length) .manyTill
      (Payload.ofKind (x.drop x.length) .eof)))) s) := by
  intro found
  refine ⟨?_, exists_firstOccurrence, ?_⟩
  · intro before behind hfirst
    have hrest : (x.drop before.length).elements = pattern ++ behind := by
      rw [Window.elements_drop, hfirst.source_eq, List.drop_left]
    have hle : before.length ≤ x.length := by
      rw [x.length_eq, hfirst.source_eq, List.length_append]
      omega
    obtain ⟨more, hmore⟩ := Nat.exists_eq_add_of_le hle
    have hcloses : Closes into Parser.one (.literal .complete pattern : Parser σ τ ε (Window τ))
        ⟨into.insertAll into.empty before, x.drop before.length, s⟩ _ _ :=
      .found (Parser.literal_of_isPrefix .complete ⟨behind, hrest.symm⟩ s)
    have hturns : x.length + 1 = more + 1 + before.length := by omega
    change Parser.manyTillLoop _ _ _ (x.length + 1) _ x s = _
    rw [hturns, loop_misses into (misses_of_firstOccurrence hfirst) hfirst.source_eq,
      loop_closes hcloses, Window.drop_drop]
  · intro hnone
    have hend : (x.drop x.length).elements = [] := by
      rw [Window.elements_drop, x.length_eq, List.drop_length]
    have hmissed : ¬ pattern <+: (x.drop x.length).elements := by
      rw [hend, List.prefix_nil]
      rintro rfl
      exact hnone List.nil_infix
    have hone : (Parser.one (x.drop x.length) s : EStateM.Result Stop σ (Outcome τ ε τ)) =
        .ok (.errorAt (x.drop x.length) .eof) s := by
      rw [Parser.one_eq, hend]
      rfl
    have hcloses : Closes into Parser.one (.literal .complete pattern : Parser σ τ ε (Window τ))
        ⟨into.insertAll into.empty x.elements, x.drop x.length, s⟩ _ _ :=
      .missed (Parser.literal_of_not_isPrefix hmissed s) hone
    have hpass := loop_misses (ε := ε) into (misses_of_not_isInfix hnone)
      (List.append_nil x.elements).symm 1 into.empty s
    rw [← x.length_eq, loop_closes hcloses, Nat.add_comm] at hpass
    exact hpass

/-- The first occurrence overlaps with the beginning of one that fails, and another pattern has none. -/
theorem finds_first_occurrence_overlapping :
    let x : Window UInt8 := .ofList [97, 97, 97, 98, 99]
    let found (pattern : List UInt8) :
        EStateM.Result Stop Unit (Outcome UInt8 (Trail UInt8) (Array UInt8 × Window UInt8)) :=
      Parser.manyTill .sequence Parser.one (.literal .complete pattern) x ()
    FirstOccurrence [97, 97, 98] x.elements [97] [99] ∧
      found [97, 97, 98] = .ok (.success (#[97], (x.drop 1).take 3) (x.drop 4)) () ∧
      ¬ [98, 98] <:+: x.elements ∧
      found [98, 98] = .ok (.signal (.error ⟨⟨x.drop 5, .eof⟩, [⟨x.drop 5, .manyTill⟩]⟩)) () := by
  intro x found
  have hfirst : FirstOccurrence [97, 97, 98] x.elements [97] [99] := by
    refine ⟨rfl, fun before' behind' hsource => ?_⟩
    cases before' with
    | nil => simp [x] at hsource
    | cons _ before' => exact Nat.le_add_left 1 before'.length
  have hnone : ¬ [98, 98] <:+: x.elements := by decide
  exact ⟨hfirst, (finds_first_occurrence .sequence _ x ()).1 _ _ hfirst, hnone,
    (finds_first_occurrence .sequence _ x ()).2.2 hnone⟩

end Terminated

end Reprise
