import Reprise.Proofs.GrammarLink

/-!
# Footprints

What a rule can use of a session: the rules that it reaches, the buffers that these fill, and the count of
started folds where one of them looks at it. Two runs from stores that are alike there are the same run, and
leave all other buffers alone.
-/

namespace Reprise

variable {σ τ ε : Type}

namespace Buffers

variable (b : Buffers τ) (name : String) (slot : Nat) (v : Value τ)

/-- How many slots a row has, if there is one of that name. -/
def slots? : Option Nat := (b.get? name).map Array.size

theorem size_eq : b.size name = (b.slots? name).getD 0 := by
  unfold size slots?
  cases b.get? name <;> rfl

theorem get?_write (other : String) : (b.write name slot v).get? other =
    (b.get? other).map fun row => if other == name then row.setIfInBounds slot v else row := by
  obtain ⟨rows⟩ := b
  simp only [get?, write]
  induction rows with
  | nil => rfl
  | cons row rows ih =>
    obtain ⟨bound, slots⟩ := row
    simp only [List.map_cons, List.lookup_cons, ih]
    cases hrow : other == bound with
    | true =>
      rw [← beq_iff_eq.mp hrow]
      rfl
    | false => rfl

theorem get?_write_of_ne {other : String} (h : other ≠ name) :
    (b.write name slot v).get? other = b.get? other := by
  simp [get?_write, h]

/-- A row keeps its size. -/
theorem slots?_write (other : String) : (b.write name slot v).slots? other = b.slots? other := by
  unfold slots?
  rw [get?_write, Option.map_map]
  congr 1
  funext row
  dsimp only [Function.comp_apply]
  split
  · exact Array.size_setIfInBounds
  · rfl

/-- A row that is there is not made anew. -/
theorem slots?_make {other : String} {n : Nat} (slots : Nat) (h : b.slots? other = some n) :
    (b.make name slots).slots? other = some n := by
  obtain ⟨row, hrow, rfl⟩ := Option.map_eq_some_iff.mp h
  have hrow' : b.rows.lookup other = some row := hrow
  unfold make
  split
  · exact h
  · simp [slots?, get?, List.lookup_append, hrow']

theorem slots?_make_self (slots : Nat) : ((b.make name slots).slots? name).isSome = true := by
  unfold make
  split
  next row hrow => simp [slots?, hrow]
  next hnone =>
    have hlookup : b.rows.lookup name = .none := hnone
    simp [slots?, get?, List.lookup_append, hlookup]

end Buffers

namespace Grammar

variable {p g : Grammar τ}

/-- A grammar fills a buffer somewhere. -/
def Fills (g : Grammar τ) (buffer : String) : Prop := ∃ slots p, Occurs (fill buffer slots p) g

/-- A grammar starts a fold somewhere that looks at how many were started. -/
def LooksAtStarts (g : Grammar τ) : Prop := ∃ times step p, Occurs (fold times .calls step p) g

/-- The meaning of a grammar depends on no more of the effects than it has use for. -/
theorem parserWith_congr [Payload τ ε] [Element τ] {E E' : Effects σ τ ε}
    {rule rule' : String → Parser σ τ ε (Value τ)} (g : Grammar τ) (htrace : E.trace = E'.trace)
    (hsize : ∀ b, g.Fills b → E.size b = E'.size b) (hwrite : ∀ b, g.Fills b → E.write b = E'.write b)
    (hstart : g.LooksAtStarts → E.start = E'.start) (hrule : ∀ n, g.Mentions n → rule n = rule' n) :
    g.parserWith E rule = g.parserWith E' rule' := by
  induction g using tree_induction with
  | h g ih =>
    have hchild : ∀ p ∈ g.children, p.parserWith E rule = p.parserWith E' rule' := by
      intro p hp
      refine ih p hp ?_ ?_ ?_ ?_
      · rintro b ⟨slots, q, hq⟩
        exact hsize b ⟨slots, q, .under hp hq⟩
      · rintro b ⟨slots, q, hq⟩
        exact hwrite b ⟨slots, q, .under hp hq⟩
      · rintro ⟨times, step, q, hq⟩
        exact hstart ⟨times, step, q, .under hp hq⟩
      · exact fun n hn => hrule n (.under hp hn)
    cases g with
    | tag mode pattern => cases pattern <;> rfl
    | fold times start step p =>
      have hrun : start.runWith E = start.runWith E' := by
        cases start with
        | calls => exact hstart ⟨times, step, p, .here _⟩
        | _ => rfl
      simp only [parserWith, hrun, hchild p (.head _)]
    | fill b slots p =>
      simp only [parserWith, hsize b ⟨slots, p, .here _⟩, hwrite b ⟨slots, p, .here _⟩, hchild p (.head _)]
    | trace name p => simp only [parserWith, htrace, hchild p (.head _)]
    | ref name => exact hrule name (.here _)
    | opt p | cut p | boxed p | map _ p | collect _ _ p | many0Count p | many1Count p | lengthData p =>
      simp only [parserWith, hchild p (.head _)]
    | manyTill _ q p | separatedList0 _ q p | separatedList1 _ q p | lengthValue q p | lengthCount _ q p
    | andThen q p | orElse q p =>
      simp only [parserWith, hchild q (.head _), hchild p (.tail _ (.head _))]
    | _ => rfl

end Grammar

/-- A part of the store. -/
structure Footprint where
  buffers : String → Prop
  starts : Prop

namespace Bindings

/-- A rule gets to another one through names. -/
inductive Reaches (bindings : Bindings τ) (name : String) : String → Prop where
  | here : Reaches bindings name name
  | next {n m : String} {g : Grammar τ} : Reaches bindings name n → bindings.lookup n = some g →
    g.Mentions m → Reaches bindings name m

/-- Names that mention no others but themselves are all that one of them reaches. -/
theorem Reaches.of_closed {bindings : Bindings τ} {name n : String} {N : String → Prop} (hname : N name)
    (hclosed : ∀ n g m, N n → bindings.lookup n = some g → g.Mentions m → N m)
    (h : bindings.Reaches name n) : N n := by
  induction h with
  | here => exact hname
  | next _ hg hm ih => exact hclosed _ _ _ ih hg hm

/-- What a rule and those that it reaches use of the store. -/
def footprint (bindings : Bindings τ) (name : String) : Footprint where
  buffers b := ∃ n g, bindings.Reaches name n ∧ bindings.lookup n = some g ∧ g.Fills b
  starts := ∃ n g, bindings.Reaches name n ∧ bindings.lookup n = some g ∧ g.LooksAtStarts

end Bindings

open Classical in
/-- The effects of run states, as far as they concern a part of the store. -/
noncomputable def Effects.confined (F : Footprint) : Effects (RunState τ ε) τ ε where
  size buffer := if F.buffers buffer then Effects.ofRunState.size buffer else return 0
  write buffer := if F.buffers buffer then RunState.write buffer else fun _ _ => return ()
  start := if F.starts then FoldStart.calls.run else return .unit
  trace := Effects.ofRunState.trace

/-- Parts of parts. -/
structure Footprint.Within (F F' : Footprint) : Prop where
  buffers : ∀ b, F.buffers b → F'.buffers b
  starts : F.starts → F'.starts

theorem Footprint.Within.refl (F : Footprint) : F.Within F := ⟨fun _ => id, id⟩

/-- The effects that a grammar has use for may be confined to a part of the store that has all of them. -/
theorem Grammar.parserWith_confined [Payload τ ε] [Element τ] {F : Footprint}
    {rule rule' : String → Rule τ ε} (g : Grammar τ) (hfills : ∀ b, g.Fills b → F.buffers b)
    (hstarts : g.LooksAtStarts → F.starts) (hrule : ∀ n, g.Mentions n → rule n = rule' n) :
    g.parserWith .ofRunState rule = g.parserWith (.confined F) rule' := by
  refine g.parserWith_congr rfl ?_ ?_ ?_ hrule
  · intro b hb
    simp only [Effects.confined, if_pos (hfills b hb)]
  · intro b hb
    simp only [Effects.confined, if_pos (hfills b hb)]
    rfl
  · intro h
    simp only [Effects.confined, if_pos (hstarts h)]
    rfl

namespace Bindings

variable [Payload τ ε] [Element τ]

/-- No rule that is reached has other effects, whatever other names are bound to. -/
theorem rule_eq_confined {bindings bindings' : Bindings τ} {name : String} {F : Footprint}
    (hlookup : ∀ n, bindings.Reaches name n → bindings'.lookup n = bindings.lookup n)
    (hF : (bindings.footprint name).Within F) (depth : Nat) {n : String}
    (hn : bindings.Reaches name n) :
    (bindings'.rule depth n : Rule τ ε) = bindings.ruleWith (.confined F) depth n := by
  rw [← ruleWith_ofRunState]
  induction depth generalizing n with
  | zero => rfl
  | succ depth ih =>
    unfold ruleWith
    rw [hlookup n hn]
    cases hg : bindings.lookup n with
    | none => rfl
    | some g =>
      refine g.parserWith_confined (fun b hb => hF.buffers b ⟨n, g, hn, hg, hb⟩)
        (fun hstarts => hF.starts ⟨n, g, hn, hg, hstarts⟩) fun m hm => ih (hn.next hg hm)

end Bindings

/-- What a run that is confined to a part of the store keeps of the buffers. -/
structure Footprint.Keeps (F : Footprint) (a b : Buffers τ) : Prop where
  slots_eq : ∀ name, b.slots? name = a.slots? name
  get_eq : ∀ name, ¬ F.buffers name → b.get? name = a.get? name

theorem Footprint.Keeps.refl (F : Footprint) (a : Buffers τ) : F.Keeps a a := ⟨fun _ => rfl, fun _ _ => rfl⟩

theorem Footprint.Keeps.write {F : Footprint} {a b : Buffers τ} (h : F.Keeps a b) {name : String}
    (hname : F.buffers name) (slot : Nat) (v : Value τ) : F.Keeps a (b.write name slot v) where
  slots_eq other := (b.slots?_write name slot v other).trans (h.slots_eq other)
  get_eq other hother := by
    have hne : other ≠ name := fun heq => hother (heq ▸ hname)
    rw [b.get?_write_of_ne name slot v hne, h.get_eq other hother]

/-- States of two runs that are confined to a part of the store, and began with buffers `a` and `a'`. -/
structure RunState.Confined (F : Footprint) (a a' : Buffers τ) (s s' : RunState τ ε) : Prop where
  kept : F.Keeps a s.buffers
  kept' : F.Keeps a' s'.buffers
  starts_eq : F.starts → s.starts = s'.starts
  events_eq : s.events = s'.events

namespace Link

variable [Payload τ ε]

/-- Traces of related parsers are related where states stay linked under the same events. -/
theorem related_traced_both {S : σ → σ → Prop} {write : Event τ ε → Run σ Unit} {f : Event τ ε → σ → σ}
    (hwrite : ∀ event s, write event s = .ok () (f event s))
    (hf : ∀ event s s', S s s' → S (f event s) (f event s')) (name : String)
    {p p' : Parser σ τ ε (Value τ)} (hp : (extending S Extending.id).Related Eq p p') :
    (extending S Extending.id).Related Eq (p.traced write name) (p'.traced write name) := by
  rintro x _ s s' rfl hs
  rw [Window.extend_nil, Parser.traced_eq hwrite, Parser.traced_eq hwrite]
  have h := (hp x _ _ _ (Window.extend_nil x).symm (hf (.start name x) s s' hs)).mapped PayloadMap.id
  generalize p x _ = r at h ⊢
  generalize p' x _ = r' at h ⊢
  cases h with
  | stop why ht => exact .stop ht
  | ok o ht =>
    rw [Outcome.mapPayload_id]
    exact agree_same Extending.id (fun _ => rfl) o (hf _ _ _ ht)

theorem effectful_confined [Element τ] {F : Footprint} {a a' : Buffers τ}
    (hsize : ∀ b, F.buffers b → a.size b = a'.size b) :
    Effectful (extending (RunState.Confined F a a') Extending.id : Link _ _ τ τ ε ε) (.identity τ)
      (.confined F) (.confined F) where
  take := by
    rintro x _ n rfl hn
    exact (Window.take_extend [] hn).symm
  size {s s'} buffer hs := by
    by_cases hF : F.buffers buffer
    · have heq : s.buffers.size buffer = s'.buffers.size buffer := by
        rw [Buffers.size_eq, Buffers.size_eq, hs.kept.slots_eq, hs.kept'.slots_eq, ← Buffers.size_eq,
          ← Buffers.size_eq, hsize buffer hF]
      simp only [Effects.confined, if_pos hF]
      exact .ok heq hs
    · simp only [Effects.confined, if_neg hF]
      exact .ok rfl hs
  write buffer slot v hs := by
    rw [Value.translate_identity]
    by_cases hF : F.buffers buffer
    · simp only [Effects.confined, if_pos hF]
      exact .ok trivial ⟨hs.kept.write hF slot v, hs.kept'.write hF slot v, hs.starts_eq, hs.events_eq⟩
    · simp only [Effects.confined, if_neg hF]
      exact .ok trivial hs
  start {s s'} hs := by
    rw [Translation.same_identity]
    by_cases hF : F.starts
    · simp only [Effects.confined, if_pos hF]
      have heq := congrArg (· + 1) (hs.starts_eq hF)
      exact .ok (congrArg Value.num heq) ⟨hs.kept, hs.kept', fun _ => heq, hs.events_eq⟩
    · simp only [Effects.confined, if_neg hF]
      exact .ok rfl hs
  trace name hp := by
    rw [Translation.same_identity] at *
    refine related_traced_both RunState.note_eq (fun event s s' hs => ?_) name hp
    exact ⟨hs.kept, hs.kept', hs.starts_eq, congrArg (·.push event) hs.events_eq⟩

end Link

/-- Two runs of a rule, under bindings and from states that agree on all that it can use. -/
theorem Bindings.mapped_rules [Payload τ ε] [Element τ] {bindings bindings' : Bindings τ} {name : String}
    (hlookup : ∀ n, bindings.Reaches name n → bindings'.lookup n = bindings.lookup n) {a a' : Buffers τ}
    (hsize : ∀ b, (bindings.footprint name).buffers b → a.size b = a'.size b) {s s' : RunState τ ε}
    (hs : RunState.Confined (bindings.footprint name) a a' s s') (depth : Nat) (x : Window τ) :
    Mapped (id : ε → ε) (RunState.Confined (bindings.footprint name) a a')
      (bindings.rule depth name x s) (bindings'.rule depth name x s') := by
  have hrelated := Link.related_ruleWith (ε := ε) (Link.effectful_confined hsize) bindings depth name
  rw [rule_eq_confined (fun _ _ => rfl) (.refl _) depth .here,
    rule_eq_confined hlookup (.refl _) depth .here]
  exact (hrelated _ _ _ _ (Window.extend_nil x).symm hs).mapped PayloadMap.id

end Reprise
