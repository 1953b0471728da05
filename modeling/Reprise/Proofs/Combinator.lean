import Reprise.Proofs.GrammarLink

/-!
# Combinators

A combinator together with its children. Its children may be applied with their calls written down, and
that changes nothing else about a run.
-/

namespace Reprise

variable {σ τ ε α β κ : Type}

/-- How an outcome signals, if it does. -/
def Outcome.signal? : Outcome τ ε α → Option (Signal ε)
  | success _ _ => none
  | signal g => some g

/-- An application of a child: which child it was, to what it was applied, and how it signalled. -/
structure Call (τ ε : Type) where
  child : Nat
  input : Window τ
  answer? : Option (Signal ε)

/-- A state and the calls so far, in order. -/
structure Noted (σ τ ε : Type) where
  state : σ
  calls : List (Call τ ε)

/-- Writes the calls of a child down. -/
def Parser.noted (child : Nat) (p : Parser σ τ ε α) : Parser (Noted σ τ ε) τ ε α := fun x s =>
  match p x s.state with
  | .ok o t => .ok o ⟨t, s.calls ++ [⟨child, x, o.signal?⟩]⟩
  | .error why t => .error why ⟨t, s.calls⟩

theorem Parser.noted_of_ok {p : Parser σ τ ε α} {x : Window τ} {s t : σ} {o : Outcome τ ε α}
    (child : Nat) (h : p x s = .ok o t) (calls : List (Call τ ε)) :
    p.noted child x ⟨s, calls⟩ = .ok o ⟨t, calls ++ [⟨child, x, o.signal?⟩]⟩ := by
  simp only [Parser.noted, h]

theorem Parser.noted_of_error {p : Parser σ τ ε α} {x : Window τ} {s t : σ} {why : Stop}
    (child : Nat) (h : p x s = .error why t) (calls : List (Call τ ε)) :
    p.noted child x ⟨s, calls⟩ = .error why ⟨t, calls⟩ := by
  simp only [Parser.noted, h]

/-- An effect that is no call. -/
def Run.noted (m : Run σ α) : Run (Noted σ τ ε) α := fun s =>
  match m s.state with
  | .ok v t => .ok v ⟨t, s.calls⟩
  | .error why t => .error why ⟨t, s.calls⟩

/-- A combinator together with its children. -/
inductive Combinator (σ τ ε : Type) : Type → Type 1 where
  | opt {α : Type} (p : Parser σ τ ε α) : Combinator σ τ ε (Option α)
  | cut {α : Type} (p : Parser σ τ ε α) : Combinator σ τ ε α
  | boxed {α : Type} (p : Parser σ τ ε α) : Combinator σ τ ε α
  | map {α β : Type} (f : α → β) (p : Parser σ τ ε α) : Combinator σ τ ε β
  | traced {α : Type} (write : Event τ ε → σ → σ) (name : String) (p : Parser σ τ ε α) :
    Combinator σ τ ε α
  | collect {α κ : Type} (times : Collecting) (into : Container α κ) (p : Parser σ τ ε α) :
    Combinator σ τ ε κ
  | many0Count {α : Type} (p : Parser σ τ ε α) : Combinator σ τ ε Nat
  | many1Count {α : Type} (p : Parser σ τ ε α) : Combinator σ τ ε Nat
  | fold {α β : Type} (times : Folding) (init : Run σ β) (step : β → α → β) (p : Parser σ τ ε α) :
    Combinator σ τ ε β
  | fill {α : Type} (slots : Nat) (write : Nat → α → Run σ Unit) (p : Parser σ τ ε α) :
    Combinator σ τ ε Unit
  | manyTill {α β κ : Type} (into : Container α κ) (p : Parser σ τ ε α) (till : Parser σ τ ε β) :
    Combinator σ τ ε (κ × β)
  | separatedList0 {α β κ : Type} (into : Container α κ) (sep : Parser σ τ ε β)
    (p : Parser σ τ ε α) : Combinator σ τ ε κ
  | separatedList1 {α β κ : Type} (into : Container α κ) (sep : Parser σ τ ε β)
    (p : Parser σ τ ε α) : Combinator σ τ ε κ
  | lengthData (len : Parser σ τ ε Nat) : Combinator σ τ ε (Window τ)
  | lengthValue {α : Type} (len : Parser σ τ ε Nat) (body : Parser σ τ ε α) : Combinator σ τ ε α
  | lengthCount {α κ : Type} (len : Parser σ τ ε Nat) (into : Container α κ) (p : Parser σ τ ε α) :
    Combinator σ τ ε κ
  | andThen {α β : Type} (p : Parser σ τ ε α) (q : Parser σ τ ε β) : Combinator σ τ ε (α × β)
  | orElse {α : Type} (p q : Parser σ τ ε α) : Combinator σ τ ε α

namespace Combinator

/-- What a combinator makes of its children. -/
def parser [Payload τ ε] : Combinator σ τ ε α → Parser σ τ ε α
  | opt p => p.opt
  | cut p => p.cut
  | boxed p => p
  | map f p => p.map f
  | traced write name p => p.traced (fun event => modify (write event)) name
  | collect times into p => times.parser into p
  | many0Count p => p.many0Count
  | many1Count p => p.many1Count
  | fold times init step p => times.parser init step p
  | fill slots write p => Parser.fill slots write p
  | manyTill into p till => Parser.manyTill into p till
  | separatedList0 into sep p => Parser.separatedList0 into sep p
  | separatedList1 into sep p => Parser.separatedList1 into sep p
  | lengthData len => Parser.lengthData len
  | lengthValue len body => Parser.lengthValue len body
  | lengthCount len into p => Parser.lengthCount len into p
  | andThen p q => p.andThen q
  | orElse p q => p.orElse q

/-- The same combinator over children whose calls are written down, the second child as number one. -/
def noted : Combinator σ τ ε α → Combinator (Noted σ τ ε) τ ε α
  | opt p => opt (p.noted 0)
  | cut p => cut (p.noted 0)
  | boxed p => boxed (p.noted 0)
  | map f p => map f (p.noted 0)
  | traced write name p =>
    traced (fun event s => { s with state := write event s.state }) name (p.noted 0)
  | collect times into p => collect times into (p.noted 0)
  | many0Count p => many0Count (p.noted 0)
  | many1Count p => many1Count (p.noted 0)
  | fold times init step p => fold times init.noted step (p.noted 0)
  | fill slots write p => fill slots (fun slot v => (write slot v).noted) (p.noted 0)
  | manyTill into p till => manyTill into (p.noted 0) (till.noted 1)
  | separatedList0 into sep p => separatedList0 into (sep.noted 0) (p.noted 1)
  | separatedList1 into sep p => separatedList1 into (sep.noted 0) (p.noted 1)
  | lengthData len => lengthData (len.noted 0)
  | lengthValue len body => lengthValue (len.noted 0) (body.noted 1)
  | lengthCount len into p => lengthCount (len.noted 0) into (p.noted 1)
  | andThen p q => andThen (p.noted 0) (q.noted 1)
  | orElse p q => orElse (p.noted 0) (q.noted 1)

end Combinator

namespace Link

variable [Payload τ ε]

/-- Forgets the calls. -/
abbrev forgetting : Link (Noted σ τ ε) σ τ τ ε ε :=
  extending (fun s s' => s.state = s') (PayloadMap.id (τ := τ) (ε := ε)).extending

theorem agree_forgetting (o : Outcome τ ε α) {t : Noted σ τ ε} {t' : σ} (ht : t.state = t') :
    (forgetting : Link (Noted σ τ ε) σ τ τ ε ε).Agree Eq (.ok o t) (.ok o t') :=
  agree_same Extending.id (fun _ => rfl) o ht

theorem related_noted (child : Nat) (p : Parser σ τ ε α) :
    (forgetting : Link (Noted σ τ ε) σ τ τ ε ε).Related Eq (p.noted child) p := by
  rintro x _ s _ rfl rfl
  rw [Window.extend_nil]
  unfold Parser.noted
  cases p x s.state with
  | error why t => exact .stop rfl
  | ok o t => exact agree_forgetting o rfl

theorem steps_noted (m : Run σ α) {s : Noted σ τ ε} {s' : σ} (hs : s.state = s') :
    (forgetting : Link (Noted σ τ ε) σ τ τ ε ε).Steps Eq (m.noted s) (m s') := by
  subst hs
  unfold Run.noted
  cases m s.state with
  | error why t => exact .stop rfl
  | ok v t => exact .ok rfl rfl

theorem related_traced_noted (write : Event τ ε → σ → σ) (name : String) (p : Parser σ τ ε α) :
    (forgetting : Link (Noted σ τ ε) σ τ τ ε ε).Related Eq
      (Combinator.traced write name p).noted.parser (Combinator.traced write name p).parser := by
  rintro x _ s _ rfl rfl
  have hwrite : ∀ event s, (modify (write event) : Run σ Unit) s = .ok () (write event s) :=
    fun _ _ => rfl
  have hnoted : ∀ event (s : Noted σ τ ε),
      (modify fun s => { s with state := write event s.state } : Run (Noted σ τ ε) Unit) s =
        .ok () { s with state := write event s.state } := fun _ _ => rfl
  simp only [Combinator.noted, Combinator.parser]
  rw [Window.extend_nil, Parser.traced_eq hwrite, Parser.traced_eq hnoted]
  unfold Parser.noted
  cases p x (write (.start name x) s.state) with
  | error why t => exact .stop rfl
  | ok o t => exact agree_forgetting o rfl

/-- Writing the calls down changes nothing else. -/
theorem related_combinator (c : Combinator σ τ ε α) :
    (forgetting : Link (Noted σ τ ε) σ τ τ ε ε).Related Eq c.noted.parser c.parser := by
  have steady {β : Type} (p : Parser (Noted σ τ ε) τ ε β) :
    (forgetting : Link (Noted σ τ ε) σ τ τ ε ε).Steady p := .inl rfl
  cases c with
  | opt p => exact related_opt (related_noted 0 p) rfl fun _ _ hv => congrArg some hv
  | cut p => exact related_cut (related_noted 0 p)
  | boxed p => exact related_noted 0 p
  | map f p => exact related_map (related_noted 0 p) fun _ _ hv => congrArg f hv
  | traced write name p => exact related_traced_noted write name p
  | collect times into p =>
    simp only [Combinator.noted, Combinator.parser]
    rw [Collecting.parser_eq_collect, Collecting.parser_eq_collect]
    exact related_collect (related_noted 0 p) (steady _) times.ends into.linked_self rfl
  | many0Count p =>
    exact related_countOver (r := .many0Count) (related_noted 0 p) (steady _) fun _ => rfl
  | many1Count p =>
    exact related_countOver (r := .many1Count) (related_noted 0 p) (steady _) fun _ => rfl
  | fold times init step p =>
    simp only [Combinator.noted, Combinator.parser]
    rw [Folding.parser_eq_foldOver, Folding.parser_eq_foldOver]
    refine related_foldOver (related_noted 0 p) (steady _) times.ends
      (fun _ _ hs => steps_noted init hs) ?_
    rintro acc _ v _ rfl rfl
    rfl
  | fill slots write p =>
    have hfill : (forgetting : Link (Noted σ τ ε) σ τ τ ε ε).Related (fun _ _ => True)
        (Parser.fill slots (fun slot v => (write slot v).noted) (p.noted 0))
        (Parser.fill slots write p) := by
      refine related_fill (related_noted 0 p) (steady _) ?_
      rintro slot v _ s s' rfl hs
      exact (steps_noted (write slot v) hs).mono fun _ _ _ => trivial
    exact hfill.mono fun _ _ _ => rfl
  | manyTill into p till =>
    exact related_manyTill (related_noted 0 p) (steady _) (related_noted 1 till)
      (fun _ _ _ _ hk hw => congrArg₂ Prod.mk hk hw) into.linked_self
  | separatedList0 into sep p =>
    exact related_separatedList0 (related_noted 1 p) (steady _) (related_noted 0 sep) (steady _)
      into.linked_self
  | separatedList1 into sep p =>
    exact related_separatedList1 (related_noted 1 p) (steady _) (related_noted 0 sep) (steady _)
      into.linked_self
  | lengthData len =>
    refine related_lengthData (related_noted 0 len) ?_
    rintro x _ n rfl hn
    exact (Window.take_extend [] hn).symm
  | lengthValue len body =>
    have hbody : (forgetting : Link (Noted σ τ ε) σ τ τ ε ε).Bodies Eq (body.noted 1) body :=
      bodies_of_same PayloadMap.id.extending (related_noted 1 body)
    exact related_lengthValue (related_noted 0 len) hbody
  | lengthCount len into p =>
    exact related_lengthCount (related_noted 0 len) (related_noted 1 p) (steady _) into.linked_self
  | andThen p q =>
    exact related_andThen (related_noted 0 p) (related_noted 1 q)
      fun _ _ _ _ hv hw => congrArg₂ Prod.mk hv hw
  | orElse p q => exact related_orElse (related_noted 0 p) (related_noted 1 q)

end Link

/-- A result without the calls. -/
def Noted.forget : EStateM.Result Stop (Noted σ τ ε) α → EStateM.Result Stop σ α
  | .ok v t => .ok v t.state
  | .error why t => .error why t.state

theorem Link.forget_of_agree [Payload τ ε] {r : EStateM.Result Stop (Noted σ τ ε) (Outcome τ ε α)}
    {r' : EStateM.Result Stop σ (Outcome τ ε α)}
    (h : (forgetting : Link (Noted σ τ ε) σ τ τ ε ε).Agree Eq r r') : r' = Noted.forget r := by
  cases h.mapped PayloadMap.id with
  | ok o ht =>
    obtain rfl := ht
    rw [Outcome.mapPayload_id]
    rfl
  | stop why ht =>
    obtain rfl := ht
    rfl

end Reprise
