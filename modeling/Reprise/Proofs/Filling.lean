import Reprise.Proofs.Combinator
import Reprise.Proofs.Exactly
import Reprise.Proofs.Footprint
import Reprise.Proofs.ReadBack

/-!
# Filled rows

Filling a row asks for as many values as it has slots, and writes each value to the slot of its number as soon
as it is there. Where this ends early, the first slots are written and the others are not. A grammar can look
at the size of a row but not at what is in it, so it reads what it would read if values were collected.
-/

namespace Reprise

variable {σ τ ε α β : Type}

namespace Buffers

theorem get?_write_self (b : Buffers τ) (name : String) (slot : Nat) (v : Value τ) :
    (b.write name slot v).get? name = (b.get? name).map (·.setIfInBounds slot v) := by
  simp [get?_write]

/-- A row of slots of which the first ones were written. -/
def overwritten (row : Array (Value τ)) (vs : List (Value τ)) : Array (Value τ) :=
  row.mapIdx fun slot old => vs[slot]?.getD old

variable (row : Array (Value τ)) (vs : List (Value τ))

@[simp] theorem size_overwritten : (overwritten row vs).size = row.size := Array.size_mapIdx

@[simp] theorem getElem_overwritten (slot : Nat) (h : slot < (overwritten row vs).size)
    (hslot : slot < row.size) : (overwritten row vs)[slot] = vs[slot]?.getD row[slot] :=
  Array.getElem_mapIdx _

theorem overwritten_nil : overwritten row [] = row :=
  Array.ext (size_overwritten row []) fun slot _ hslot => getElem_overwritten row [] slot _ hslot

/-- One more value goes to the slot behind the others, if there is one. -/
theorem setIfInBounds_overwritten (v : Value τ) :
    (overwritten row vs).setIfInBounds vs.length v = overwritten row (vs ++ [v]) := by
  refine Array.ext (by simp) fun slot _ hsize => ?_
  have hslot : slot < row.size := size_overwritten row _ ▸ hsize
  rw [Array.getElem_setIfInBounds (by simpa using hslot), getElem_overwritten row vs slot _ hslot,
    getElem_overwritten row _ slot _ hslot]
  rcases Nat.lt_trichotomy slot vs.length with hlt | rfl | hgt
  · rw [if_neg (Nat.ne_of_gt hlt), List.getElem?_append_left hlt]
  · rw [if_pos rfl, List.getElem?_concat_length, Option.getD_some]
  · have hle : (vs ++ [v]).length ≤ slot := by simpa using hgt
    rw [if_neg (Nat.ne_of_lt hgt), List.getElem?_eq_none (Nat.le_of_lt hgt), List.getElem?_eq_none hle]

/-- The values stand in the first slots, and the other slots are as they were. -/
theorem toList_overwritten (h : vs.length ≤ row.size) :
    (overwritten row vs).toList = vs ++ row.toList.drop vs.length := by
  refine List.ext_getElem (by simp; omega) fun slot hsize _ => ?_
  have hslot : slot < row.size := by simpa using hsize
  rw [Array.getElem_toList, getElem_overwritten row vs slot _ hslot]
  by_cases hlt : slot < vs.length
  · rw [List.getElem_append_left hlt, List.getElem?_eq_getElem hlt, Option.getD_some]
  · have hle := Nat.le_of_not_lt hlt
    rw [List.getElem_append_right hle, List.getElem?_eq_none hle, Option.getD_none, List.getElem_drop,
      Array.getElem_toList]
    congr 1
    omega

end Buffers

/-- The state in which a run ends. -/
def Run.final : EStateM.Result Stop σ α → σ
  | .ok _ t | .error _ t => t

namespace Mapped

variable {σ' ε' : Type} {f : ε → ε'} {S : σ → σ' → Prop} {r : EStateM.Result Stop σ (Outcome τ ε α)}
  {r' : EStateM.Result Stop σ' (Outcome τ ε' α)}

theorem final (h : Mapped f S r r') : S (Run.final r) (Run.final r') := by
  cases h with
  | ok _ ht => exact ht
  | stop _ ht => exact ht

theorem of_final {S' : σ → σ' → Prop} (h : Mapped f S r r') (h' : S' (Run.final r) (Run.final r')) :
    Mapped f S' r r' := by
  cases h with
  | ok o _ => exact .ok o h'
  | stop why _ => exact .stop why h'

end Mapped

/-- A parser leaves a row as it is, however it ends. -/
def Parser.Spares (p : Rule τ ε) (buffer : String) : Prop :=
  ∀ x s, (Run.final (p x s)).buffers.get? buffer = s.buffers.get? buffer

/-- The whole store. -/
def Footprint.all : Footprint := ⟨fun _ => True, True⟩

/-- All of the store but one row. -/
def Footprint.allBut (buffer : String) : Footprint := ⟨(· ≠ buffer), True⟩

/-- What a grammar and the rules that it reaches use of the store is within a part of it. -/
structure Bindings.Confines (bindings : Bindings τ) (g : Grammar τ) (F : Footprint) : Prop where
  buffers : ∀ b, g.Fills b → F.buffers b
  starts : g.LooksAtStarts → F.starts
  reached : ∀ n, g.Mentions n → (bindings.footprint n).Within F

theorem Bindings.confines_all (bindings : Bindings τ) (g : Grammar τ) : bindings.Confines g .all :=
  ⟨fun _ _ => trivial, fun _ => trivial, fun _ _ => ⟨fun _ _ => trivial, fun _ => trivial⟩⟩

namespace Bindings.Confines

variable [Payload τ ε] [Element τ] {bindings : Bindings τ} {g : Grammar τ} {F : Footprint}

theorem parser_eq (h : bindings.Confines g F) (depth : Nat) : (g.parser (bindings.rule depth) : Rule τ ε) =
    g.parserWith (.confined F) (bindings.ruleWith (.confined F) depth) := by
  rw [← Grammar.parserWith_ofRunState]
  exact g.parserWith_confined h.buffers h.starts fun n hn =>
    rule_eq_confined (fun _ _ => rfl) (h.reached n hn) depth .here

/-- Two runs of a grammar, from states that agree on all that it can use. -/
theorem mapped (h : bindings.Confines g F) {a : Buffers τ} {s s' : RunState τ ε}
    (hs : RunState.Confined F a a s s') (depth : Nat) (x : Window τ) :
    Mapped (id : ε → ε) (RunState.Confined F a a) (g.parser (bindings.rule depth) x s)
      (g.parser (bindings.rule depth) x s') := by
  have hE := Link.effectful_confined (ε := ε) (F := F) (a := a) fun _ _ => rfl
  rw [h.parser_eq]
  exact (Link.related_with hE (Link.related_ruleWith hE bindings depth) g _ _ _ _
    (Window.extend_nil x).symm hs).mapped PayloadMap.id

/-- A grammar spares a row that nothing fills of what it reaches. -/
theorem spares {buffer : String} (h : bindings.Confines g (.allBut buffer)) (depth : Nat) :
    (g.parser (bindings.rule depth) : Rule τ ε).Spares buffer := by
  intro x s
  have hrefl : RunState.Confined (.allBut buffer) s.buffers s.buffers s s :=
    ⟨.refl _ _, .refl _ _, fun _ => rfl, rfl⟩
  exact (h.mapped hrefl depth x).final.kept.get_eq buffer fun hne => hne rfl

end Bindings.Confines

/-- What filling a row does along with a run that collects. The second run has the same effects on the store
as the first one, except in that row. -/
def Filled (a : Buffers τ) (buffer : String) (row : Array (Value τ)) (seen : List (Value τ))
    (s : RunState τ ε) (slot : Nat) (s' : RunState τ ε) : Prop :=
  slot = seen.length ∧ RunState.Confined .all a a s s' ∧
    s'.buffers.get? buffer = some (Buffers.overwritten row seen)

namespace Grammar

variable [Payload τ ε] [Element τ] {bindings : Bindings τ} {depth : Nat} {g : Grammar τ} {buffer : String}

theorem follows_filled (hg : (g.parser (bindings.rule depth) : Rule τ ε).Spares buffer) (a : Buffers τ)
    (row : Array (Value τ)) :
    Repetition.Follows (g.parser (bindings.rule depth) : Rule τ ε) (g.parser (bindings.rule depth))
      (fun slot v => do RunState.write buffer slot v; return slot + 1) (Filled a buffer row) where
  applied := by
    rintro seen s slot s' x ⟨hslot, hs, hrow⟩
    have hmapped := (bindings.confines_all g).mapped hs depth x
    exact hmapped.of_final ⟨hslot, hmapped.final, (hg x s').trans hrow⟩
  taken := by
    rintro seen s _ s' v ⟨rfl, hs, hrow⟩
    have hlength : seen.length + 1 = (seen ++ [v]).length := by simp
    refine ⟨_, _, rfl, hlength, ⟨hs.kept, hs.kept'.write trivial _ v, hs.starts_eq,
      hs.events_eq⟩, ?_⟩
    rw [Buffers.get?_write_self, hrow, Option.map_some, Buffers.setIfInBounds_overwritten]

/-- As many slots are filled as the row has. -/
theorem fill_eq {x : Window τ} {s : RunState τ ε} {row : Array (Value τ)}
    (hrow : s.buffers.get? buffer = some row) (slots : Nat) (g : Grammar τ) (rule : String → Rule τ ε) :
    (fill buffer slots g).parser rule x s =
      (Parser.fill row.size (RunState.write buffer) (g.parser rule)).map (fun _ => .unit) x s := by
  have hsize : s.buffers.size buffer = row.size := by rw [Buffers.size, hrow]; rfl
  rw [← hsize]
  rfl

/-- A row is filled with the values that collecting as many of them gets. -/
theorem fill_course (hg : (g.parser (bindings.rule depth) : Rule τ ε).Spares buffer) {x : Window τ}
    {s t : RunState τ ε} {row : Array (Value τ)} (hrow : s.buffers.get? buffer = some row) (slots : Nat)
    {vs : List (Value τ)} {ended : Except Stop (Ending τ ε (Value τ))}
    (h : (g.parser (bindings.rule depth)).Course row.size x s vs ended t) :
    ∃ t', (fill buffer slots g).parser (bindings.rule depth) x s =
        Ending.result x .fill (fun _ => .unit) ended t' ∧
      t'.buffers.get? buffer = some (Buffers.overwritten row vs) := by
  have hbefore : Filled s.buffers buffer row [] s 0 s :=
    ⟨rfl, ⟨.refl _ _, .refl _ _, fun _ => rfl, rfl⟩, by rw [hrow, Buffers.overwritten_nil]⟩
  obtain ⟨_, t', ⟨-, -, hafter⟩, hrun⟩ :=
    (follows_filled hg s.buffers row).run_course h hbefore .fill
  refine ⟨t', ?_, hafter⟩
  rw [fill_eq hrow]
  exact Parser.map_result (Parser.map_result hrun _) _

theorem count_course {x : Window τ} {s t : RunState τ ε} {n : Nat} {vs : List (Value τ)}
    {ended : Except Stop (Ending τ ε (Value τ))}
    (h : (g.parser (bindings.rule depth)).Course n x s vs ended t) :
    (collect (.count n) .list g).parser (bindings.rule depth) x s =
      Ending.result x .count .list ended t := by
  have hlist (held : List (Value τ)) : (Container.sequence.insertAll #[] held).toList = held :=
    congrArg Array.toList (Container.insertAll_sequence held)
  have hcollect := Parser.map_result (Repetition.collect_course h .count .sequence #[])
    fun held => Value.list held.toList
  simp only [hlist] at hcollect
  exact hcollect

/-- Filling overwrites exactly the slots it got values for. It ends as collecting as many values as the row has
slots does, up to the value and the kind it writes, and however it ends the first slots hold the values that
the child got, in order, while the others hold what they held. It succeeds with all slots written only, and a
row without slots needs no child. -/
theorem fill_overwrites (bindings : Bindings τ) (depth : Nat) (buffer : String) (slots : Nat)
    (g : Grammar τ) (x : Window τ) (s : RunState τ ε) (row : Array (Value τ))
    (hrow : s.buffers.get? buffer = some row) :
    let p : Rule τ ε := g.parser (bindings.rule depth)
    let filled := (fill buffer slots g).parser (bindings.rule depth) x s
    let counted := (collect (.count row.size) .list g).parser (bindings.rule depth) x s
    (p.Spares buffer → ∃ vs ended t t' row', p.Course row.size x s vs ended t ∧
      counted = Ending.result x .count .list ended t ∧
      filled = Ending.result x .fill (fun _ => .unit) ended t' ∧
      t'.buffers.get? buffer = some row' ∧ row'.toList = vs ++ row.toList.drop vs.length ∧
      vs.length ≤ row.size ∧
      ((∃ rest, filled = .ok (.success .unit rest) t') ↔ vs.length = row.size)) ∧
    (row.size = 0 → filled = .ok (.success .unit x) s ∧
      ∀ calls, (Combinator.fill row.size (RunState.write buffer) p).noted.parser x ⟨s, calls⟩ =
        .ok (.success () x) ⟨s, calls⟩) := by
  intro p filled counted
  constructor
  · intro hg
    obtain ⟨vs, ended, t, hcourse⟩ := p.exists_course row.size x s
    obtain ⟨t', hfilled, ht'⟩ := fill_course hg hrow slots hcourse
    refine ⟨vs, ended, t, t', _, hcourse, count_course hcourse, hfilled, ht',
      Buffers.toList_overwritten row vs hcourse.length_le, hcourse.length_le, ?_⟩
    rw [show filled = _ from hfilled]
    exact hcourse.success_iff .fill Value.unit t'
  · intro hnone
    refine ⟨?_, fun calls => by rw [hnone]; rfl⟩
    rw [show filled = _ from fill_eq hrow slots g _, hnone]
    rfl

/-- A row of three slots gets the first bytes of pairs, whose second bytes go elsewhere. The last pair is torn. -/
theorem fill_overwrites_torn :
    let pair : Grammar UInt8 := .andThen .one (.fill "other" 1 .one)
    let s : RunState UInt8 (Trail UInt8) :=
      ⟨⟨[("row", #[.num 7, .num 8, .num 9]), ("other", #[.unit]), ("none", #[])]⟩, 0, #[]⟩
    let x : Window UInt8 := .ofList [1, 2, 3, 4, 5]
    let p : Rule UInt8 (Trail UInt8) := pair.parser (Bindings.rule [] 0)
    p.Spares "row" ∧
    (∃ vs ended t t', p.Course 3 x s vs ended t ∧
      (fill "row" 3 pair).parser (Bindings.rule [] 0) x s =
        .ok (.signal (.error ⟨⟨x.drop 5, .eof⟩, [⟨x.drop 5, .fill⟩, ⟨x.drop 4, .fill⟩]⟩)) t' ∧
      t'.buffers.get? "row" = some #[.list [.elem 1], .list [.elem 3], .num 9] ∧
      [.list [.elem 1], .list [.elem 3], .num 9] = vs ++ [.num 7, .num 8, .num 9].drop vs.length) ∧
    (fill "none" 0 (.ref "unbound")).parser (Bindings.rule [] 0) x s = .ok (.success .unit x) s := by
  intro pair s x p
  have hpair {q : Grammar UInt8} (h : Occurs q pair) :
      q = .andThen .one (.fill "other" 1 .one) ∨ q = .one ∨ q = .fill "other" 1 .one := by
    have hone {q : Grammar UInt8} (h : Occurs q .one) : q = .one := by
      cases h with
      | here => rfl
      | under hq _ => cases hq
    cases h with
    | here => exact .inl rfl
    | under hq h =>
      rcases List.mem_pair.mp hq with rfl | rfl
      · exact .inr (.inl (hone h))
      · cases h with
        | here => exact .inr (.inr rfl)
        | under hq h =>
          obtain rfl := List.mem_singleton.mp hq
          exact .inr (.inl (hone h))
  have hspares : p.Spares "row" := by
    refine Bindings.Confines.spares ⟨?_, fun _ => trivial, ?_⟩ 0
    · rintro b ⟨slots, q, hq⟩
      rcases hpair hq with heq | heq | heq
      · cases heq
      · cases heq
      · obtain ⟨rfl, -⟩ := fill.inj heq
        exact fun heq => absurd heq (by decide)
    · intro n hn
      rcases hpair hn with heq | heq | heq <;> cases heq
  refine ⟨hspares, ?_, ((fill_overwrites [] 0 "none" 0 (.ref "unbound") x s #[] rfl).2 rfl).1⟩
  obtain ⟨vs, ended, t, t', row', hcourse, -, hfilled, hrow', hvalues, -, -⟩ :=
    (fill_overwrites [] 0 "row" 3 pair x s _ rfl).1 hspares
  have hrun : (fill "row" 3 pair).parser (Bindings.rule [] 0) x s =
    .ok (.signal (.error ⟨⟨x.drop 5, .eof⟩, [⟨x.drop 5, .fill⟩, ⟨x.drop 4, .fill⟩]⟩)) _ := rfl
  rcases ended with why | ending
  · cases hfilled.symm.trans hrun
  · obtain ⟨-, rfl⟩ := EStateM.Result.ok.inj (hfilled.symm.trans hrun)
    obtain rfl := Option.some.inj hrow'
    exact ⟨vs, _, t, _, hcourse, hrun, rfl, hvalues⟩

end Grammar

end Reprise
