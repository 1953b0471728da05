import Reprise.Proofs.Combinator
import Reprise.Proofs.Journal

/-!
# Calls of children

The first call of a child that ends in a failure or in the wish for more input is the last one, and the
combinator hands its signal on. Only the body of a length-prefixed value, which gets all of its input at
once, may wish for more and cause an error.
-/

namespace Reprise

variable {σ τ ε α : Type}

namespace Call

/-- A call that ends a run: in a failure or in the wish for more input. -/
def Ends (call : Call τ ε) (g : Signal ε) : Prop := call.answer? = some g ∧ g.isError = false

/-- No call ends the run. -/
def Quiet (calls : List (Call τ ε)) : Prop := ∀ call ∈ calls, ∀ g, ¬ call.Ends g

/-- Calls of which only the last may end the run, and then gives the answer. -/
inductive Final : List (Call τ ε) → Answer τ ε → Prop where
  | quiet {calls} (a) : Quiet calls → Final calls a
  | ended {before call g} : Quiet before → call.Ends g → Final (before ++ [call]) (.signal g)

theorem quiet_nil : Quiet ([] : List (Call τ ε)) := nofun

theorem Quiet.append {calls calls' : List (Call τ ε)} (h : Quiet calls) (h' : Quiet calls') :
    Quiet (calls ++ calls') := by
  intro call hcall
  rcases List.mem_append.mp hcall with hcall | hcall
  · exact h call hcall
  · exact h' call hcall

theorem quiet_success (child : Nat) (x : Window τ) : Quiet [(⟨child, x, none⟩ : Call τ ε)] := by
  intro call hcall g hends
  obtain rfl := List.mem_singleton.mp hcall
  cases hends.1

theorem quiet_error (child : Nat) (x : Window τ) (e : ε) :
    Quiet [(⟨child, x, some (.error e)⟩ : Call τ ε)] := by
  intro call hcall g hends
  obtain rfl := List.mem_singleton.mp hcall
  obtain rfl := Option.some.inj hends.1
  cases hends.2

theorem Final.of_success {calls : List (Call τ ε)} {y : Window τ} (h : Final calls (.success y)) :
    Quiet calls := by
  cases h with
  | quiet _ hquiet => exact hquiet

theorem Final.of_error {calls : List (Call τ ε)} {e : ε} (h : Final calls (.signal (.error e))) :
    Quiet calls := by
  cases h with
  | quiet _ hquiet => exact hquiet
  | ended _ hends => cases hends.2

theorem Final.of_stop {calls : List (Call τ ε)} {why : Stop} (h : Final calls (.stop why)) :
    Quiet calls := by
  cases h with
  | quiet _ hquiet => exact hquiet

theorem Quiet.seq {calls calls' : List (Call τ ε)} {a : Answer τ ε} (h : Quiet calls)
    (h' : Final calls' a) : Final (calls ++ calls') a := by
  cases h' with
  | quiet _ h' => exact .quiet a (h.append h')
  | ended hbefore hends =>
    rw [← List.append_assoc]
    exact .ended (h.append hbefore) hends

/-- The call of a child that signals. -/
theorem final_signal (child : Nat) (x : Window τ) (g : Signal ε) :
    Final [(⟨child, x, some g⟩ : Call τ ε)] (.signal g) := by
  cases g with
  | error e => exact .quiet _ (quiet_error child x e)
  | failure e =>
    have hends : Ends ⟨child, x, some (.failure e)⟩ (.failure e) := ⟨rfl, rfl⟩
    exact .ended quiet_nil hends
  | incomplete n =>
    have hends : Ends ⟨child, x, some (.incomplete n)⟩ (.incomplete n : Signal ε) := ⟨rfl, rfl⟩
    exact .ended quiet_nil hends

/-- What calls tell. -/
def journal : Journal (Call τ ε) τ ε where
  Tells := Final
  nothing _ := .quiet _ quiet_nil
  needs _ := .quiet _ quiet_nil
  seq h h' := h.of_success.seq h'
  recover _ h := .quiet _ h.of_error
  refuse _ h := .quiet _ h.of_success
  halt _ h := .quiet _ h.of_success

end Call

namespace Law

variable [Payload τ ε]

/-- The calls of an application are final. -/
abbrev calls : Law (Noted σ τ ε) τ ε := Call.journal.law Noted.calls

/-- Effects that are no calls may happen after any success. -/
theorem admits_noted {m : Run σ α} {V : α → Prop} (hV : ∀ v, V v) :
    (calls : Law (Noted σ τ ε) τ ε).Admits V m.noted := by
  refine Journal.admits_silent hV ?_ ?_
  · intro t v u hr
    unfold Run.noted at hr
    cases hm : m t.state with
    | error why t' =>
      rw [hm] at hr
      cases hr
    | ok w t' =>
      rw [hm] at hr
      cases hr
      rfl
  · intro t why u hr
    unfold Run.noted at hr
    cases hm : m t.state with
    | error why t' =>
      rw [hm] at hr
      cases hr
      rfl
    | ok w t' =>
      rw [hm] at hr
      cases hr

theorem obeys_noted (child : Nat) (p : Parser σ τ ε α) :
    calls.Obeys (fun _ => []) (p.noted child) := by
  intro x s
  unfold Parser.noted
  cases p x s.state with
  | error why t => exact ⟨[], (List.append_nil _).symm, .quiet _ Call.quiet_nil⟩
  | ok o t =>
    cases o with
    | success v rest => exact ⟨⟨_, rfl, .quiet _ (Call.quiet_success child x)⟩, Journal.shown⟩
    | signal g => exact ⟨_, rfl, Call.final_signal child x g⟩

/-- What a trace writes is no call. -/
theorem obeys_traced_noted (write : Event τ ε → σ → σ) (name : String) (p : Parser σ τ ε α) :
    calls.Obeys (fun _ => []) (Combinator.traced write name p).noted.parser := by
  have hwrite : ∀ event (s : Noted σ τ ε),
      (modify fun s => { s with state := write event s.state } : Run (Noted σ τ ε) Unit) s =
        .ok () { s with state := write event s.state } := fun _ _ => rfl
  exact obeys_traced hwrite name (obeys_noted 0 p) id fun _ => id

end Law

/-- Only a length-prefixed value cuts a part out of its input for a child. -/
def Combinator.carves : Combinator σ τ ε α → Bool
  | lengthValue _ _ => true
  | _ => false

variable [Payload τ ε]

/-- What a combinator answers when a call ends its run. -/
def Combinator.answer (c : Combinator σ τ ε α) (call : Call τ ε) (g : Signal ε) : Outcome τ ε α :=
  if c.carves && call.child == 1 && g.isIncomplete then .errorAt call.input .complete else .signal g

namespace Law

theorem obeys_combinator (c : Combinator σ τ ε α) (hc : c.carves = false) :
    calls.Obeys (fun _ => []) c.noted.parser := by
  have hshows {γ δ : Type} (into : Container γ δ) :
      into.Shows (fun _ => ([] : List (Window τ))) fun _ => [] :=
    ⟨rfl, fun _ => rfl, fun _ _ => List.nil_subset _⟩
  have hquiet (r : Repetition) (_ : r.range.inverted = true) (x : Window τ) (s : Noted σ τ ε) :
      calls.Holds x s (.signal (.failure (Payload.ofKind x r.kind))) s :=
    Journal.holds_self (.quiet _ Call.quiet_nil)
  cases c with
  | opt p => exact obeys_opt (obeys_noted 0 p) rfl fun _ => List.nil_subset _
  | cut p =>
    refine obeys_cut (obeys_noted 0 p) ?_
    rintro x s e t ⟨calls, ht, hcalls⟩
    exact ⟨calls, ht, .quiet _ hcalls.of_error⟩
  | boxed p => exact obeys_noted 0 p
  | map f p => exact obeys_map (obeys_noted 0 p) fun _ => List.nil_subset _
  | traced write name p => exact obeys_traced_noted write name p
  | collect times into p =>
    simp only [Combinator.noted, Combinator.parser]
    rw [Collecting.parser_eq_collect]
    exact obeys_collect (obeys_noted 0 p) (hshows into) rfl (hquiet _)
  | many0Count p => exact obeys_countOver (obeys_noted 0 p) (hquiet .many0Count)
  | many1Count p => exact obeys_countOver (obeys_noted 0 p) (hquiet .many1Count)
  | fold times init step p =>
    simp only [Combinator.noted, Combinator.parser]
    rw [Folding.parser_eq_foldOver]
    exact obeys_foldOver (obeys_noted 0 p) (admits_noted fun _ => rfl) (fun _ _ => List.nil_subset _)
      (hquiet _)
  | fill slots write p =>
    exact obeys_fill (obeys_noted 0 p) rfl fun _ _ => admits_noted fun _ => trivial
  | manyTill into p till =>
    exact obeys_manyTill (obeys_noted 0 p) (obeys_noted 1 till) (fun _ _ => List.nil_subset _)
      (hshows into)
  | separatedList0 into sep p =>
    exact obeys_separatedList0 (obeys_noted 1 p) (obeys_noted 0 sep) (hshows into)
  | separatedList1 into sep p =>
    exact obeys_separatedList1 (obeys_noted 1 p) (obeys_noted 0 sep) (hshows into)
  | lengthData len => exact obeys_lengthData (obeys_noted 0 len) fun _ => List.nil_subset _
  | lengthValue len body => cases hc
  | lengthCount len into p =>
    exact obeys_lengthCount (obeys_noted 0 len) (obeys_noted 1 p) (hshows into)
  | andThen p q =>
    exact obeys_andThen (obeys_noted 0 p) (obeys_noted 1 q) fun _ _ => List.nil_subset _
  | orElse p q => exact obeys_orElse (obeys_noted 0 p) (obeys_noted 1 q)

end Law

namespace Combinator

/-- Calls of which only the last may end a run, and then gives the outcome. -/
def Settles (c : Combinator σ τ ε α) (calls : List (Call τ ε)) (o : Outcome τ ε α) : Prop :=
  Call.Quiet calls ∨ ∃ before call g, calls = before ++ [call] ∧ Call.Quiet before ∧ call.Ends g ∧
    o = c.answer call g

/-- The result of a run over children whose calls are written down. -/
def Settled (c : Combinator σ τ ε α) :
    EStateM.Result Stop (Noted σ τ ε) (Outcome τ ε α) → Prop
  | .ok o t => c.Settles t.calls o
  | .error _ t => Call.Quiet t.calls

theorem answer_of_not_carves {c : Combinator σ τ ε α} (hc : c.carves = false) (call : Call τ ε)
    (g : Signal ε) : c.answer call g = .signal g := by
  simp [answer, hc]

theorem settles_of_final {c : Combinator σ τ ε α} (hc : c.carves = false) {calls : List (Call τ ε)}
    {o : Outcome τ ε α} (h : Call.Final calls o.answer) : c.Settles calls o := by
  cases o with
  | success v rest => exact .inl h.of_success
  | signal g =>
    cases h with
    | quiet _ hquiet => exact .inl hquiet
    | ended hbefore hends =>
      exact .inr ⟨_, _, g, rfl, hbefore, hends, (answer_of_not_carves hc _ g).symm⟩

theorem settled_of_obeys {c : Combinator σ τ ε α} (hc : c.carves = false)
    {r : EStateM.Result Stop (Noted σ τ ε) (Outcome τ ε α)} {V : α → Prop} {x : Window τ} {s : σ}
    (h : Law.calls.Post V x ⟨s, []⟩ r) : c.Settled r := by
  cases r with
  | error why t =>
    have hcalls : Call.Final t.calls (.stop why) := Journal.tells_of_holds rfl h
    exact hcalls.of_stop
  | ok o t =>
    have hcalls : Call.Final t.calls o.answer := Journal.tells_of_holds rfl h.holds
    exact settles_of_final hc hcalls

/-- The parser of the length is called first, and its signals are handed on. -/
theorem settles_length (len : Parser σ τ ε Nat) (body : Parser σ τ ε α) (x : Window τ)
    (g : Signal ε) : (lengthValue len body).Settles [⟨0, x, some g⟩] (.signal g) := by
  cases g with
  | error e => exact .inl (Call.quiet_error 0 x e)
  | failure e =>
    exact .inr ⟨[], ⟨0, x, some (.failure e)⟩, .failure e, rfl, Call.quiet_nil, ⟨rfl, rfl⟩, rfl⟩
  | incomplete n =>
    exact .inr ⟨[], ⟨0, x, some (.incomplete n)⟩, .incomplete n, rfl, Call.quiet_nil, ⟨rfl, rfl⟩, rfl⟩

/-- The body is called last, and what it answers is the outcome unless it asks for more input. -/
theorem settles_body (len : Parser σ τ ε Nat) (body : Parser σ τ ε α) {calls : List (Call τ ε)}
    (h : Call.Quiet calls) (data rest : Window τ) (o : Outcome τ ε α) :
    (lengthValue len body).Settles (calls ++ [⟨1, data, o.signal?⟩])
      (Parser.afterBody data rest o) := by
  rcases o with ⟨v, left⟩ | (e | e | n)
  · exact .inl (h.append (Call.quiet_success 1 data))
  · exact .inl (h.append (Call.quiet_error 1 data e))
  · exact .inr ⟨calls, ⟨1, data, some (.failure e)⟩, .failure e, rfl, h, ⟨rfl, rfl⟩, rfl⟩
  · exact .inr ⟨calls, ⟨1, data, some (.incomplete n)⟩, .incomplete n, rfl, h, ⟨rfl, rfl⟩, rfl⟩

theorem settled_lengthValue (len : Parser σ τ ε Nat) (body : Parser σ τ ε α) (x : Window τ) (s : σ) :
    (lengthValue len body).Settled
      (Parser.lengthValue (len.noted 0) (body.noted 1) x ⟨s, []⟩) := by
  rw [Parser.lengthValue_eq]
  cases hlen : len x s with
  | error why t =>
    rw [Run.bind_of_error (Parser.noted_of_error 0 hlen [])]
    exact Call.quiet_nil
  | ok o t =>
    rw [Run.bind_of_ok (Parser.noted_of_ok 0 hlen [])]
    cases o with
    | signal g => exact settles_length len body x g
    | success n rest =>
      have hquiet : Call.Quiet [(⟨0, x, none⟩ : Call τ ε)] := Call.quiet_success 0 x
      by_cases hn : rest.length < n
      · simp only [if_pos hn]
        exact .inl hquiet
      · simp only [if_neg hn]
        cases hbody : body (rest.take n) t with
        | error why u =>
          rw [Run.bind_of_error (Parser.noted_of_error 1 hbody _)]
          exact hquiet
        | ok o u =>
          rw [Run.bind_of_ok (Parser.noted_of_ok 1 hbody _)]
          exact settles_body len body hquiet (rest.take n) (rest.drop n) o

theorem settled (c : Combinator σ τ ε α) (x : Window τ) (s : σ) :
    c.Settled (c.noted.parser x ⟨s, []⟩) := by
  by_cases hc : c.carves = true
  · cases c with
    | lengthValue len body => exact settled_lengthValue len body x s
    | _ => cases hc
  · have hc := Bool.eq_false_iff.mpr hc
    exact settled_of_obeys hc (Law.obeys_combinator c hc x ⟨s, []⟩)

/-- Nothing comes after a call that ends a run. -/
theorem Settles.last {c : Combinator σ τ ε α} {calls before after : List (Call τ ε)}
    {o : Outcome τ ε α} {call : Call τ ε} {g : Signal ε} (h : c.Settles calls o)
    (hcalls : calls = before ++ call :: after) (hends : call.Ends g) :
    after = [] ∧ o = c.answer call g := by
  have hmem : call ∈ before ++ call :: after := List.mem_append_right _ (.head _)
  rcases h with hquiet | ⟨before', last, g', hlast, hbefore, hends', ho⟩
  · exact absurd hends (hquiet call (hcalls ▸ hmem) g)
  · rw [hlast] at hcalls
    rcases List.eq_nil_or_concat after with rfl | ⟨after', last', rfl⟩
    · obtain ⟨_, hcall⟩ := List.append_inj' hcalls rfl
      obtain rfl := (List.cons.inj hcall).1
      obtain rfl := Option.some.inj (hends.1.symm.trans hends'.1)
      exact ⟨rfl, ho⟩
    · -- the call would be among the quiet ones before the last
      rw [List.concat_eq_append, ← List.cons_append, ← List.append_assoc] at hcalls
      obtain ⟨rfl, _⟩ := List.append_inj' hcalls rfl
      exact absurd hends (hbefore call (List.mem_append_right _ (.head _)) g)

/-- Writing the calls down changes nothing, and the first call that ends in a failure or in the wish for
more input is the last one: its signal is the outcome. -/
def EndsAtFirst (c : Combinator σ τ ε α) (x : Window τ) (s : σ) : Prop :=
  match c.noted.parser x ⟨s, []⟩ with
  | .ok o t => c.parser x s = .ok o t.state ∧
    ∀ before call after g, t.calls = before ++ call :: after → call.Ends g →
      after = [] ∧ o = c.answer call g
  | .error why t => c.parser x s = .error why t.state ∧ Call.Quiet t.calls

theorem endsAtFirst (c : Combinator σ τ ε α) (x : Window τ) (s : σ) : c.EndsAtFirst x s := by
  have hsettled := c.settled x s
  have hforget := Link.forget_of_agree (Link.related_combinator c x x ⟨s, []⟩ s
    (Window.extend_nil x).symm rfl)
  unfold EndsAtFirst
  cases hr : c.noted.parser x ⟨s, []⟩ with
  | error why t =>
    rw [hr] at hsettled hforget
    exact ⟨hforget, hsettled⟩
  | ok o t =>
    rw [hr] at hsettled hforget
    exact ⟨hforget, fun before call after g hcalls hends => Settles.last hsettled hcalls hends⟩

end Combinator
end Reprise
