import Reprise.Proofs.Faultless
import Reprise.Proofs.GrammarLink
import Reprise.Proofs.Journal

/-!
# Well-nested logs

An application of a traced parser writes a block: its start, the blocks of the applications within it, and
its end. The applications themselves are followed without a look at the log, and the log of a run that comes
to its end has a block for each of them, in order.
-/

namespace Reprise

variable {τ ε α : Type}

/-- How an application of a traced parser to so many elements ends: with what it leaves of them, or with all
of them. -/
inductive Event.Closes (name : String) (length : Nat) : Event τ ε → Prop where
  | success {rest : Window τ} : rest.length ≤ length → Closes name length (.success name rest)
  | failure {x : Window τ} {g : Signal ε} : x.length = length → Closes name length (.failure name x g)

/-- Blocks one after the other, for applications to so many elements at most. -/
inductive Blocks : Nat → List (String × Window τ) → List (Event τ ε) → Prop where
  | none {most : Nat} : Blocks most [] []
  | block {most : Nat} {name : String} {x : Window τ} {inner more : List (String × Window τ)}
    {within behind : List (Event τ ε)} {last : Event τ ε} : x.length ≤ most →
    Blocks x.length inner within → last.Closes name x.length → Blocks most more behind →
    Blocks most ((name, x) :: (inner ++ more)) (.start name x :: (within ++ last :: behind))

/-- The application that an event is the start of. -/
def Event.application? : Event τ ε → Option (String × Window τ)
  | start name x => some (name, x)
  | _ => none

namespace Blocks

variable {most most' : Nat} {as bs : List (String × Window τ)} {l l' : List (Event τ ε)}

theorem mono (h : Blocks most as l) (hle : most ≤ most') : Blocks most' as l := by
  induction h with
  | none => exact .none
  | block hx hinner hlast _ _ ih => exact .block (hx.trans hle) hinner hlast (ih hle)

theorem append (h : Blocks most as l) (h' : Blocks most bs l') : Blocks most (as ++ bs) (l ++ l') := by
  induction h with
  | none => exact h'
  | block hx hinner hlast _ _ ih => simpa using Blocks.block hx hinner hlast (ih h')

/-- There is a block for each start of an application. -/
theorem applications_eq (h : Blocks most as l) : as = l.filterMap Event.application? := by
  induction h with
  | none => rfl
  | block _ _ hlast _ ihinner ih =>
    cases hlast <;> simp [List.filterMap_cons, Event.application?, ← ihinner, ← ih]

end Blocks

/-- What the events of an application tell about its answer: they are blocks, unless the run stops. -/
def Answer.Nests (x : Window τ) (l : List (Event τ ε)) : Answer τ ε → Prop
  | .success y => y.length ≤ x.length ∧ ∃ as, Blocks x.length as l
  | .signal _ => ∃ as, Blocks x.length as l
  | .stop _ => True

namespace Answer.Nests

variable {a : Answer τ ε} {x y : Window τ} {l l' : List (Event τ ε)}

theorem of_le (h : a.Nests x l) (hle : x.length ≤ y.length) : a.Nests y l := by
  cases a with
  | success rest =>
    obtain ⟨hrest, as, hl⟩ := h
    exact ⟨hrest.trans hle, as, hl.mono hle⟩
  | signal g =>
    obtain ⟨as, hl⟩ := h
    exact ⟨as, hl.mono hle⟩
  | stop why => trivial

theorem of_take {n : Nat} (h : a.Nests (x.take n) l) : a.Nests x l := h.of_le (Nat.min_le_right n x.length)

/-- Events after those of a success. -/
theorem seq (h : (Answer.success y : Answer τ ε).Nests x l) (h' : a.Nests y l') :
    a.Nests x (l ++ l') := by
  obtain ⟨hy, as, hl⟩ := h
  have hmore := h'.of_le hy
  cases a with
  | success rest =>
    obtain ⟨hrest, bs, hl'⟩ := hmore
    exact ⟨hrest, as ++ bs, hl.append hl'⟩
  | signal g =>
    obtain ⟨bs, hl'⟩ := hmore
    exact ⟨as ++ bs, hl.append hl'⟩
  | stop why => trivial

end Answer.Nests

namespace Law

variable [Payload τ ε]

/-- Every application writes blocks, and leaves no more than it got. -/
def nesting : Law (RunState τ ε) τ ε where
  Holds x s a t := ∃ l, t.log = s.log ++ l ∧ a.Nests x l
  Shows _ _ := True
  drop _ := ⟨[], by simp, by simp, [], .none⟩
  needs _ := ⟨[], by simp, [], .none⟩
  seq := by
    rintro x y s t u a ⟨l, ht, hl⟩ ⟨l', hu, hl'⟩
    exact ⟨l ++ l', by rw [hu, ht, List.append_assoc], hl.seq hl'⟩
  absorb := fun ⟨l, ht, hl⟩ => ⟨l, ht, le_rfl, hl⟩
  annotate _ h := h
  refuse _ := fun ⟨l, ht, _, hl⟩ => ⟨l, ht, hl⟩
  part_success := by
    rintro x y s t n hn ⟨l, ht, hl⟩
    exact ⟨l, ht, Nat.sub_le x.length n, hl.of_take.2⟩
  part_error := by
    rintro x s t n e hn ⟨l, ht, hl⟩
    exact ⟨l, ht, hl.of_take⟩
  part_failure := by
    rintro x s t n e hn ⟨l, ht, hl⟩
    exact ⟨l, ht, hl.of_take⟩
  part_stop := by
    rintro x s t n why hn ⟨l, ht, _⟩
    exact ⟨l, ht, trivial⟩
  shows_take _ _ := trivial
  shows_seq _ _ := trivial
  shows_part _ := trivial

/-- A traced application writes one block. -/
theorem nesting_closing (name : String) {x : Window τ} {s t : RunState τ ε} (o : Outcome τ ε α)
    (h : nesting.Holds x { s with events := s.events.push (.start name x) } o.answer t) :
    nesting.Holds x s o.answer { t with events := t.events.push (.closing name x o) } := by
  obtain ⟨l, ht, hl⟩ := h
  refine ⟨.start name x :: (l ++ [.closing name x o]), by simp [RunState.log_noted, ht], ?_⟩
  cases o with
  | success v rest =>
    obtain ⟨hrest, as, hblocks⟩ := hl
    exact ⟨hrest, _, .block le_rfl hblocks (.success hrest) .none⟩
  | signal g =>
    obtain ⟨as, hblocks⟩ := hl
    exact ⟨_, .block le_rfl hblocks (.failure rfl) .none⟩

theorem obeys_nesting_traced {p : Rule τ ε} (name : String) (hp : nesting.Obeys Value.windows p) :
    nesting.Obeys Value.windows (p.traced RunState.note name) := by
  refine obeys_traced RunState.note_eq name hp ?_ (nesting_closing name)
  rintro x s t why ⟨l, ht, -⟩
  rw [RunState.log_noted, List.append_assoc] at ht
  exact ⟨_, ht, trivial⟩

/-- Effects that write no events may happen after any success. -/
theorem nesting_admits {m : Run (RunState τ ε) α} {V : α → Prop} {f : RunState τ ε → RunState τ ε}
    {v : RunState τ ε → α} (hm : ∀ s, m s = .ok (v s) (f s)) (hf : ∀ s, (f s).log = s.log)
    (hV : ∀ s, V (v s)) : nesting.Admits V m where
  ok {x s y t w u} reach hr := by
    obtain ⟨l, ht, hl⟩ := reach
    rw [hm] at hr
    cases hr
    exact ⟨⟨l, (hf t).trans ht, hl⟩, hV t⟩
  stop {x s y t why u} reach hr := by
    rw [hm] at hr
    cases hr

theorem nesting_universal [Element τ] : (nesting : Law (RunState τ ε) τ ε).Universal where
  complete := by
    rintro x s t n k hn ⟨l, ht, hl⟩
    exact ⟨l, ht, hl.of_take⟩
  write buffer slot v := nesting_admits (fun _ => rfl) (fun _ => rfl) fun _ => trivial
  calls := nesting_admits (fun _ => rfl) (fun _ => rfl) fun _ => rfl
  trace name hp := obeys_nesting_traced name hp
  commit h := h
  fail _ _ _ := ⟨[], by simp, [], .none⟩
  stop _ _ _ := ⟨[], by simp, trivial⟩

end Law

/-- What a grammar writes, unless its run stops. -/
theorem Bindings.blocks_of_ok [Payload τ ε] [Element τ] (bindings : Bindings τ) (g : Grammar τ)
    {x : Window τ} {s t : RunState τ ε} {o : Outcome τ ε (Value τ)} (hs : s.log = [])
    (hr : bindings.parser g x s = .ok o t) :
    Blocks x.length (t.log.filterMap Event.application?) t.log := by
  have hpost := Law.obeys_grammar Law.nesting_universal
    (Law.obeys_rule Law.nesting_universal bindings recursionLimit) g x s
  rw [← Bindings.parser, hr] at hpost
  obtain ⟨l, hlog, hl⟩ := hpost.holds
  obtain ⟨as, hblocks⟩ : ∃ as, Blocks x.length as l := by
    cases o with
    | success v rest => exact hl.2
    | signal g => exact hl
  rw [hs, List.nil_append] at hlog
  rw [hlog, ← hblocks.applications_eq]
  exact hblocks

/-! Applications of traced parsers, followed without the log. -/

/-- An application of a traced parser begins or ends. -/
inductive Moment (τ ε : Type) where
  | begins (name : String) (x : Window τ)
  | ends (name : String) (x : Window τ) (o : Outcome τ ε (Value τ))

namespace Moment

/-- What is written at that moment. -/
def event : Moment τ ε → Event τ ε
  | begins name x => .start name x
  | ends name x o => .closing name x o

/-- The application that begins at that moment. -/
def application? : Moment τ ε → Option (String × Window τ)
  | begins name x => some (name, x)
  | ends _ _ _ => none

theorem application_event (m : Moment τ ε) : m.event.application? = m.application? := by
  cases m with
  | begins name x => rfl
  | ends name x o => cases o <;> rfl

end Moment

/-- A run state and the moments so far, in order. -/
structure Followed (τ ε : Type) where
  state : RunState τ ε
  moments : List (Moment τ ε)

namespace Followed

/-- An effect on the run state only. -/
def lift (m : Run (RunState τ ε) α) : Run (Followed τ ε) α := fun w =>
  match m w.state with
  | .ok v t => .ok v { w with state := t }
  | .error why t => .error why { w with state := t }

def remember (m : Moment τ ε) : Run (Followed τ ε) Unit :=
  modify fun w => { w with moments := w.moments ++ [m] }

/-- The applications of traced parsers so far, in the order in which they began. -/
def applications (w : Followed τ ε) : List (String × Window τ) :=
  w.moments.filterMap Moment.application?

end Followed

/-- The effects of run states, with the moments of traced parsers remembered. -/
def Effects.following : Effects (Followed τ ε) τ ε where
  size buffer := Followed.lift (Effects.ofRunState.size buffer)
  write buffer slot v := Followed.lift (Effects.ofRunState.write buffer slot v)
  start := Followed.lift Effects.ofRunState.start
  trace name p := fun x => do
    Followed.remember (.begins name x)
    let o ← p.traced (fun event => Followed.lift (RunState.note event)) name x
    Followed.remember (.ends name x o)
    return o

/-- A followed run is a run whose log tells the moments. -/
structure RunState.Tells (s : RunState τ ε) (w : Followed τ ε) : Prop where
  state_eq : w.state = s
  log_eq : s.log = w.moments.map Moment.event

theorem RunState.Tells.applications_eq {s : RunState τ ε} {w : Followed τ ε} (h : s.Tells w) :
    s.log.filterMap Event.application? = w.applications := by
  simp [h.log_eq, Followed.applications, List.filterMap_map, Moment.application_event]

namespace Link

variable [Payload τ ε]

/-- The link between runs and followed runs. -/
abbrev telling : Link (RunState τ ε) (Followed τ ε) τ τ ε ε := extending RunState.Tells Extending.id

theorem steps_lift {m : Run (RunState τ ε) α} {f : RunState τ ε → RunState τ ε}
    {v : RunState τ ε → α} (hm : ∀ s, m s = .ok (v s) (f s)) (hf : ∀ s, (f s).log = s.log)
    {s : RunState τ ε} {w : Followed τ ε} (h : s.Tells w) :
    telling.Steps Eq (m s) (Followed.lift m w) := by
  obtain ⟨rfl, hlog⟩ := h
  unfold Followed.lift
  rw [hm]
  exact .ok rfl ⟨rfl, (hf _).trans hlog⟩

omit [Payload τ ε] in
theorem following_trace_eq (name : String) (p : Parser (Followed τ ε) τ ε (Value τ)) (x : Window τ)
    (w : Followed τ ε) : Effects.following.trace name p x w =
      match p x ⟨{ w.state with events := w.state.events.push (.start name x) },
        w.moments ++ [.begins name x]⟩ with
      | .ok o u => .ok o ⟨{ u.state with events := u.state.events.push (.closing name x o) },
        u.moments ++ [.ends name x o]⟩
      | .error why u => .error why u := by
  have hwrite : ∀ event (w : Followed τ ε), Followed.lift (RunState.note event) w =
      .ok () { w with state := { w.state with events := w.state.events.push event } } := fun _ _ => rfl
  change ((p.traced (fun event => Followed.lift (RunState.note event)) name x >>= fun o => do
    Followed.remember (.ends name x o)
    return o) { w with moments := w.moments ++ [.begins name x] }) = _
  cases hp : p x ⟨{ w.state with events := w.state.events.push (.start name x) },
    w.moments ++ [.begins name x]⟩ with
  | error why u => exact Run.bind_of_error (by rw [Parser.traced_eq hwrite, hp])
  | ok o u =>
    have htraced := Parser.traced_eq hwrite name p x { w with moments := w.moments ++ [.begins name x] }
    rw [hp] at htraced
    exact Run.bind_of_ok htraced

theorem related_following {p : Rule τ ε} {p' : Parser (Followed τ ε) τ ε (Value τ)} (name : String)
    (hp : telling.Related Eq p p') :
    telling.Related Eq (p.traced RunState.note name) (Effects.following.trace name p') := by
  rintro x _ _ w rfl ⟨rfl, hlog⟩
  rw [Window.extend_nil, Parser.traced_eq RunState.note_eq, following_trace_eq]
  have hbegins : RunState.Tells { w.state with events := w.state.events.push (.start name x) }
      ⟨{ w.state with events := w.state.events.push (.start name x) },
        w.moments ++ [.begins name x]⟩ := by
    refine ⟨rfl, ?_⟩
    rw [RunState.log_noted, hlog]
    simp [Moment.event]
  have h := (hp x _ _ _ (Window.extend_nil x).symm hbegins).mapped PayloadMap.id
  generalize p x _ = r at h ⊢
  generalize p' x _ = r' at h ⊢
  cases h with
  | stop why ht => exact .stop ht
  | ok o ht =>
    obtain ⟨rfl, hlog⟩ := ht
    rw [Outcome.mapPayload_id]
    refine agree_same Extending.id (fun _ => rfl) o ⟨rfl, ?_⟩
    rw [RunState.log_noted, hlog]
    simp [Moment.event]

theorem effectful_following [Element τ] :
    Effectful (telling : Link _ _ τ τ ε ε) (.identity τ) .ofRunState .following where
  take := by
    rintro x _ n rfl hn
    exact (Window.take_extend [] hn).symm
  size buffer hs :=
    steps_lift (m := Effects.ofRunState.size buffer) (fun _ => rfl) (fun _ => rfl) hs
  write buffer slot v hs := by
    rw [Value.translate_identity]
    exact (steps_lift (m := RunState.write buffer slot v) (fun _ => rfl) (fun _ => rfl) hs).mono
      fun _ _ _ => trivial
  start hs := by
    rw [Translation.same_identity]
    exact steps_lift (m := FoldStart.calls.run) (v := fun s => .num (s.starts + 1)) (fun _ => rfl)
      (fun _ => rfl) hs
  trace name hp := by
    rw [Translation.same_identity] at *
    exact related_following name hp

end Link

namespace Session

variable [Payload τ ε] [Element τ]

/-- Applies a grammar and follows the applications of its traced parsers. -/
def follow (s : Session τ) (g : Grammar τ) (source : List τ) :
    EStateM.Result Stop (Followed τ ε) (Outcome τ ε (Value τ)) :=
  g.parserWith .following (s.bindings.ruleWith .following recursionLimit) (.ofList source) ⟨s.initial, []⟩

omit [Payload τ ε] [Element τ] in
theorem initial_tells (s : Session τ) : (s.initial : RunState τ ε).Tells ⟨s.initial, []⟩ := ⟨rfl, rfl⟩

/-- To follow the applications changes nothing about a run, and the log tells their moments. -/
theorem follow_of_ok {s : Session τ} {g : Grammar τ} {source : List τ} {o : Outcome τ ε (Value τ)}
    {t : RunState τ ε} (h : s.bindings.parser g (.ofList source) s.initial = .ok o t) :
    ∃ w, s.follow g source = .ok o w ∧ t.Tells w := by
  have hrelated := Link.related_with (ε := ε) Link.effectful_following
    (Link.related_ruleWith Link.effectful_following s.bindings recursionLimit) g
  rw [Grammar.parserWith_ofRunState, Bindings.ruleWith_ofRunState] at hrelated
  have hmapped := (hrelated _ _ _ _ (Window.extend_nil (.ofList source)).symm s.initial_tells).mapped
    PayloadMap.id
  rw [← Bindings.parser, h] at hmapped
  obtain ⟨w, hfollow, htells⟩ := hmapped.of_ok
  rw [Outcome.mapPayload_id] at hfollow
  exact ⟨w, hfollow, htells⟩

/-- There is nothing else that stops a run. -/
theorem finishes {s : Session τ} {g : Grammar τ} {source : List τ}
    (hdepth : (s.run g source : Report τ ε × Session τ).1.outcome ≠ .error .tooDeep)
    (hbound : ∀ name, (s.run g source : Report τ ε × Session τ).1.outcome ≠ .error (.unbound name)) :
    ∃ o t, s.bindings.parser g (.ofList source) (s.initial : RunState τ ε) = .ok o t := by
  rw [run_eq] at hdepth hbound
  cases hr : s.bindings.parser g (.ofList source) (s.initial : RunState τ ε) with
  | ok o t => exact ⟨o, t, rfl⟩
  | error why t =>
    have hwhy := s.bindings.atRule_of_stop recursionLimit g hr
    rw [hr] at hdepth hbound
    cases why with
    | tooDeep => exact absurd rfl hdepth
    | unbound name => exact absurd rfl (hbound name)
    | fault f => cases hwhy

/-- The log of a run that neither goes beyond the limit of rules within rules nor meets a name that nothing
is bound to: blocks one after the other, one for each application of a traced parser in the order in which
they begin. Each event tells what happens at its moment, and nothing else is written. -/
theorem logs_well_nested (s : Session τ) (g : Grammar τ) (source : List τ)
    (hdepth : (s.run g source : Report τ ε × Session τ).1.outcome ≠ .error .tooDeep)
    (hbound : ∀ name, (s.run g source : Report τ ε × Session τ).1.outcome ≠ .error (.unbound name)) :
    ∃ (o : Outcome τ ε (Value τ)) (w : Followed τ ε), s.follow g source = .ok o w ∧
      s.run g source = s.conclude (.ok o w.state) ∧
      (s.run g source : Report τ ε × Session τ).1.events.toList = w.moments.map Moment.event ∧
      Blocks source.length w.applications (s.run g source : Report τ ε × Session τ).1.events.toList := by
  obtain ⟨o, t, hr⟩ := finishes hdepth hbound
  have hblocks := s.bindings.blocks_of_ok g (x := .ofList source) rfl hr
  obtain ⟨w, hfollow, htells⟩ := follow_of_ok hr
  rw [htells.applications_eq] at hblocks
  obtain ⟨rfl, hlog⟩ := htells
  rw [run_eq, hr]
  exact ⟨o, w, hfollow, rfl, hlog, hblocks⟩

/-- Traced parsers in a loop, in a body of an announced length, and in a rule that contains itself. The
second item ends the loop: its length is missing. -/
theorem logs_well_nested_items :
    let g : Grammar UInt8 := .trace "items" (.collect .many0 .list (.ref "item"))
    let item : Grammar UInt8 := .trace "item" (.lengthValue (.uint .complete .w8 .big)
      (.orElse (.ref "item") (.trace "end" .eof)))
    let s : Session UInt8 := ⟨[("item", item)], .none, 0⟩
    ∃ w : Followed UInt8 (Located UInt8),
      w.applications = [("items", ⟨0, [1, 0], 2, rfl⟩), ("item", ⟨0, [1, 0], 2, rfl⟩),
        ("item", ⟨1, [0], 1, rfl⟩), ("item", ⟨2, [], 0, rfl⟩), ("end", ⟨2, [], 0, rfl⟩),
        ("item", ⟨2, [], 0, rfl⟩)] ∧
      Blocks 2 w.applications (s.run g [1, 0] : Report UInt8 (Located UInt8) × _).1.events.toList := by
  intro g item s
  have hrun : (s.run g [1, 0] : Report UInt8 (Located UInt8) × _).1.outcome =
      .ok (.success (.list [.unit]) ⟨2, [], 0, rfl⟩) := rfl
  obtain ⟨o, w, hfollow, -, -, hblocks⟩ := logs_well_nested (ε := Located UInt8) s g [1, 0]
    (by rw [hrun]; nofun) (by rw [hrun]; nofun)
  refine ⟨w, ?_, hblocks⟩
  cases hfollow
  rfl

end Session

end Reprise
