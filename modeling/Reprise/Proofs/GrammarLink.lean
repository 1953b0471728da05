import Reprise.Grammar.Session
import Reprise.Proofs.Effects
import Reprise.Proofs.Extension
import Reprise.Proofs.Translation
import Reprise.Proofs.Tree

/-!
# Links of grammars

What two runs of a grammar share is the store: the buffers and the count of started folds. A node of a
grammar is related to the same node over other children as soon as the children are related.
-/

namespace Reprise

variable {σ σ' τ τ' ε ε' : Type}

/-- States with the same store. What was traced may differ. -/
structure RunState.SameStore (s : RunState τ ε) (s' : RunState τ ε') : Prop where
  buffers : s.buffers = s'.buffers
  starts : s.starts = s'.starts

namespace RunState.SameStore

variable {s : RunState τ ε} {s' : RunState τ ε'}

theorem noted_left (h : s.SameStore s') (e : Event τ ε) :
    ({ s with events := s.events.push e } : RunState τ ε).SameStore s' := ⟨h.buffers, h.starts⟩

theorem noted_right (h : s.SameStore s') (e : Event τ ε') :
    s.SameStore ({ s' with events := s'.events.push e } : RunState τ ε') := ⟨h.buffers, h.starts⟩

theorem written (h : s.SameStore s') (buffer : String) (slot : Nat) (v : Value τ) :
    RunState.SameStore { s with buffers := s.buffers.write buffer slot v }
      { s' with buffers := s'.buffers.write buffer slot v } :=
  ⟨by rw [h.buffers], h.starts⟩

theorem started (h : s.SameStore s') :
    RunState.SameStore { s with starts := s.starts + 1 } { s' with starts := s'.starts + 1 } :=
  ⟨h.buffers, by rw [h.starts]⟩

end RunState.SameStore

theorem Collecting.ends (times : Collecting) : times.repetition.Ends := by
  intro h
  cases times with
  | count n => cases h
  | _ => rfl

/-- What a collection starts with. -/
theorem Collecting.held_linked {α α' κ κ' : Type} {V : α → α' → Prop} {K : κ → κ' → Prop}
    {into : Container α κ} {into' : Container α' κ'} (h : into.Linked V K into') (times : Collecting) :
    K (times.held into) (times.held into') := by
  rcases times.held_eq with hheld | ⟨n, hheld⟩
  · rw [hheld, hheld]
    exact h.empty
  · rw [hheld, hheld]
    exact h.room n

theorem Folding.ends (times : Folding) : times.repetition.Ends := by
  intro h
  cases times <;> rfl

/-- The children that a node applies to its own input. The body of a length-prefixed value is applied
to a part that was cut out of it. -/
def Grammar.direct : Grammar τ → List (Grammar τ)
  | lengthValue len _ => [len]
  | g => g.children

namespace Grammar

theorem mem_children_of_direct {g p : Grammar τ} (h : p ∈ g.direct) : p ∈ g.children := by
  cases g with
  | lengthValue len body =>
    obtain rfl := List.mem_singleton.mp h
    exact .head _
  | _ => exact h

/-- Grammars whose leaves wait at the end of the input instead of taking it for the end of all input,
where `names` are the rules of that form. Bodies of length-prefixed values may be anything. -/
def Streaming (names : String → Prop) : Grammar τ → Prop
  | one | eof | takeWhile _ _ _ | digits _ | letters => False
  | tag mode _ | uint mode _ _ => mode = .streaming
  | epsilon | raise _ | commit _ | await _ | take _ | done => True
  | opt p | cut p | boxed p | map _ p | collect _ _ p | many0Count p | many1Count p | fold _ _ _ p
  | lengthData p | lengthValue p _ | fill _ _ p | trace _ p => p.Streaming names
  | manyTill _ q p | separatedList0 _ q p | separatedList1 _ q p | lengthCount _ q p | andThen q p
  | orElse q p => q.Streaming names ∧ p.Streaming names
  | ref name => names name

theorem Streaming.direct {names : String → Prop} {g p : Grammar τ} (h : g.Streaming names)
    (hp : p ∈ g.direct) : p.Streaming names := by
  cases g with
  | opt _ | cut _ | boxed _ | map _ _ | collect _ _ _ | many0Count _ | many1Count _ | fold _ _ _ _
  | lengthData _ | lengthValue _ _ | fill _ _ _ | trace _ _ =>
    obtain rfl := List.mem_singleton.mp hp
    exact h
  | manyTill _ _ _ | separatedList0 _ _ _ | separatedList1 _ _ _ | lengthCount _ _ _ | andThen _ _
  | orElse _ _ =>
    rcases List.mem_pair.mp hp with rfl | rfl
    · exact h.1
    · exact h.2
  | _ => cases hp

end Grammar

/-- What is found under renamed names, where all that is bound was changed. -/
theorem lookup_map_of_injective {α β : Type} {rename : String → String}
    (h : Function.Injective rename) (f : α → β) (l : List (String × α)) (name : String) :
    List.lookup (rename name) (l.map fun b => (rename b.1, f b.2)) = (l.lookup name).map f := by
  induction l with
  | nil => rfl
  | cons b l ih =>
    have hkey : (rename name == rename b.1) = (name == b.1) := by
      rw [Bool.eq_iff_iff, beq_iff_eq, beq_iff_eq, h.eq_iff]
    rw [List.map_cons, List.lookup_cons, List.lookup_cons, hkey, ih]
    cases name == b.1 <;> rfl

theorem Bindings.lookup_mem {bindings : Bindings τ} {name : String} {r : Grammar τ}
    (h : bindings.lookup name = some r) : (name, r) ∈ bindings := by
  obtain ⟨before, behind, rfl, -⟩ := List.lookup_eq_some_iff.mp h
  exact List.mem_append_right before (.head behind)

namespace Link

section Nodes

variable [Payload τ ε] [Payload τ' ε'] [Element τ] [Element τ']

/-- Effects that keep states linked, and parsers related where they are traced, over inputs whose parts are
translated. -/
structure Effectful (L : Link σ σ' τ τ' ε ε') (T : Translation τ τ') (E : Effects σ τ ε)
    (E' : Effects σ' τ' ε') : Prop where
  take : ∀ {x x' n}, L.Input x x' → n ≤ x.length → T.window (x.take n) = x'.take n
  size : ∀ {s s'} (buffer), L.State s s' → L.Steps Eq (E.size buffer s) (E'.size buffer s')
  write : ∀ {s s'} (buffer slot) (v : Value τ), L.State s s' →
    L.Steps (fun _ _ => True) (E.write buffer slot v s) (E'.write buffer slot (v.translate T) s')
  start : ∀ {s s'}, L.State s s' → L.Steps T.Same (E.start s) (E'.start s')
  trace : ∀ {p p'} (name), L.Related T.Same p p' → L.Related T.Same (E.trace name p) (E'.trace name p')

section

variable {L : Link σ σ' τ τ' ε ε'} {T : Translation τ τ'} {E : Effects σ τ ε} {E' : Effects σ' τ' ε'}
  {rule : String → Parser σ τ ε (Value τ)} {rule' : String → Parser σ' τ' ε' (Value τ')}

theorem Effectful.steps_start (hE : Effectful L T E E') (start : FoldStart) {s : σ} {s' : σ'}
    (hs : L.State s s') : L.Steps T.Same (start.runWith E s) (start.runWith E' s') := by
  cases start with
  | calls => exact hE.start hs
  | zero | list | unit => exact .ok rfl hs

theorem related_number {p : Parser σ τ ε (Value τ)} {p' : Parser σ' τ' ε' (Value τ')}
    (hp : L.Related T.Same p p') : L.Related Eq (p.map Value.number) (p'.map Value.number) := by
  refine related_map hp ?_
  rintro v _ rfl
  exact (v.number_translate T).symm

/-- A node over related children. What is asked of leaves and of the bodies of length-prefixed values
depends on what becomes of the input. -/
theorem Effectful.related_graft (hE : Effectful L T E E') (leaf f : Grammar τ → Grammar τ')
    (g : Grammar τ)
    (hleaf : g.children = [] → L.Related T.Same (g.parserWith E rule) ((leaf g).parserWith E' rule'))
    (body : ∀ len p, g = .lengthValue len p →
      L.Bodies T.Same (p.parserWith E rule) ((f p).parserWith E' rule'))
    (steady : ∀ p ∈ g.direct, L.Steady (p.parserWith E rule))
    (h : ∀ p ∈ g.direct, L.Related T.Same (p.parserWith E rule) ((f p).parserWith E' rule')) :
    L.Related T.Same (g.parserWith E rule) ((g.graft leaf f).parserWith E' rule') := by
  cases g with
  | opt p =>
    have hp := related_opt (W := fun o o' => o.map (Value.translate T) = o') (h p (.head _)) rfl
      fun _ _ hv => congrArg some hv
    refine related_map hp ?_
    rintro (_ | v) _ rfl <;> rfl
  | cut p => exact related_cut (h p (.head _))
  | boxed p => exact h p (.head _)
  | map F p =>
    refine related_map (h p (.head _)) ?_
    rintro v _ rfl
    exact (F.apply_translate T v).symm
  | collect times shape p =>
    refine shape.use_translated T (P := L.Related T.Same) fun κ κ' into into' _ _ _ hinto hfinish => ?_
    rw [Collecting.parser_eq_collect, Collecting.parser_eq_collect]
    have hcollect := related_collect (r := times.repetition) (h p (.head _)) (steady p (.head _))
      times.ends hinto (times.held_linked hinto)
    refine related_map hcollect ?_
    rintro held _ rfl
    exact hfinish held
  | many0Count p =>
    have hcount : L.Related Eq (Parser.many0Count (p.parserWith E rule))
        (Parser.many0Count ((f p).parserWith E' rule')) :=
      related_countOver (h p (.head _)) (steady p (.head _)) fun _ => rfl
    exact related_map hcount fun _ _ hv => congrArg Value.num hv
  | many1Count p =>
    have hcount : L.Related Eq (Parser.many1Count (p.parserWith E rule))
        (Parser.many1Count ((f p).parserWith E' rule')) :=
      related_countOver (h p (.head _)) (steady p (.head _)) fun _ => rfl
    exact related_map hcount fun _ _ hv => congrArg Value.num hv
  | fold times start step p =>
    unfold Grammar.graft Grammar.parserWith
    rw [Folding.parser_eq_foldOver, Folding.parser_eq_foldOver]
    refine related_foldOver (h p (.head _)) (steady p (.head _)) times.ends
      (fun _ _ hs => hE.steps_start start hs) ?_
    rintro acc _ v _ rfl rfl
    exact (step.apply_translate T acc v).symm
  | manyTill shape till p =>
    refine shape.use_translated T (P := L.Related T.Same) fun κ κ' into into' _ _ f hinto hfinish => ?_
    have hmany := related_manyTill (U := fun u u' => f u.1 = u'.1 ∧ T.Same u.2 u'.2)
      (h p (.tail _ (.head _))) (steady p (.tail _ (.head _))) (h till (.head _))
      (fun _ _ _ _ hk hw => ⟨hk, hw⟩) hinto
    refine related_map hmany ?_
    rintro ⟨held, u⟩ ⟨_, _⟩ ⟨rfl, rfl⟩
    exact congrArg (Value.pair · _) (hfinish held)
  | separatedList0 shape sep p =>
    refine shape.use_translated T (P := L.Related T.Same) fun κ κ' into into' _ _ _ hinto hfinish => ?_
    have hlist := related_separatedList0 (h p (.tail _ (.head _))) (steady p (.tail _ (.head _)))
      (h sep (.head _)) (steady sep (.head _)) hinto
    refine related_map hlist ?_
    rintro held _ rfl
    exact hfinish held
  | separatedList1 shape sep p =>
    refine shape.use_translated T (P := L.Related T.Same) fun κ κ' into into' _ _ _ hinto hfinish => ?_
    have hlist := related_separatedList1 (h p (.tail _ (.head _))) (steady p (.tail _ (.head _)))
      (h sep (.head _)) (steady sep (.head _)) hinto
    refine related_map hlist ?_
    rintro held _ rfl
    exact hfinish held
  | lengthData len =>
    have hdata := related_lengthData (V := fun w w' => T.window w = w')
      (related_number (h len (.head _))) fun _ _ _ hx hn => hE.take hx hn
    exact related_map hdata fun _ _ hw => congrArg Value.slice hw
  | lengthValue len p =>
    exact related_lengthValue (related_number (h len (.head _))) (body len p rfl)
  | lengthCount shape len p =>
    refine shape.use_translated T (P := L.Related T.Same) fun κ κ' into into' _ _ _ hinto hfinish => ?_
    have hcount := related_lengthCount (related_number (h len (.head _))) (h p (.tail _ (.head _)))
      (steady p (.tail _ (.head _))) hinto
    refine related_map hcount ?_
    rintro held _ rfl
    exact hfinish held
  | fill buffer slots p =>
    intro x x' s s' hx hs
    refine (hE.size buffer hs).bind ?_
    rintro slots _ t t' rfl ht
    refine related_map (W := T.Same) (related_fill (h p (.head _)) (steady p (.head _)) ?_)
      (fun _ _ _ => rfl) x x' t t' hx ht
    rintro slot v _ s s' rfl hs
    exact hE.write buffer slot v hs
  | trace name p => exact hE.trace name (h p (.head _))
  | andThen p rest =>
    have hpair := related_andThen (U := fun u u' => T.Same u.1 u'.1 ∧ T.Same u.2 u'.2)
      (h p (.head _)) (h rest (.tail _ (.head _))) fun _ _ _ _ hv hw => ⟨hv, hw⟩
    refine related_map hpair ?_
    rintro ⟨v, vs⟩ ⟨_, _⟩ ⟨rfl, rfl⟩
    change (Value.list (v :: FoldStep.items vs)).translate T =
      .list (v.translate T :: FoldStep.items (vs.translate T))
    rw [Value.translate_list, List.map_cons, FoldStep.items_translate]
  | orElse p q => exact related_orElse (h p (.head _)) (h q (.tail _ (.head _)))
  | _ => exact hleaf rfl

end

/-- Links of runs of grammars whose values are translated. States have buffers of the same sizes and the
same number of started folds, whatever was traced. -/
structure Grammatical (L : Link (RunState τ ε) (RunState τ' ε') τ τ' ε ε') (T : Translation τ τ') :
    Prop where
  take : ∀ {x x' n}, L.Input x x' → n ≤ x.length → T.window (x.take n) = x'.take n
  noted_left : ∀ {s s'} (e : Event τ ε), L.State s s' →
    L.State { s with events := s.events.push e } s'
  noted_right : ∀ {s s'} (e : Event τ' ε'), L.State s s' →
    L.State s { s' with events := s'.events.push e }
  size : ∀ {s s'} (buffer), L.State s s' → s.buffers.size buffer = s'.buffers.size buffer
  written : ∀ {s s'} (buffer slot) (v : Value τ), L.State s s' →
    L.State { s with buffers := s.buffers.write buffer slot v }
      { s' with buffers := s'.buffers.write buffer slot (v.translate T) }
  starts : ∀ {s s'}, L.State s s' → s.starts = s'.starts
  started : ∀ {s s'}, L.State s s' →
    L.State { s with starts := s.starts + 1 } { s' with starts := s'.starts + 1 }

section

variable {L : Link (RunState τ ε) (RunState τ' ε') τ τ' ε ε'} {T : Translation τ τ'}
  {rule : String → Rule τ ε} {rule' : String → Rule τ' ε'}

/-- Such links go well with the effects of run states. -/
theorem Grammatical.effectful (hL : L.Grammatical T) : Effectful L T .ofRunState .ofRunState where
  take := hL.take
  size buffer hs := .ok (hL.size buffer hs) hs
  write buffer slot v hs := .ok trivial (hL.written buffer slot v hs)
  start hs := .ok (congrArg (fun n => Value.num (n + 1)) (hL.starts hs)) (hL.started hs)
  trace name hp :=
    related_traced_right RunState.note_eq (fun event _ _ => hL.noted_right event) name
      (related_traced_left RunState.note_eq (fun event _ _ => hL.noted_left event) name hp)

theorem Grammatical.related_graft (hL : L.Grammatical T) (leaf f : Grammar τ → Grammar τ')
    (g : Grammar τ)
    (hleaf : g.children = [] → L.Related T.Same (g.parser rule) ((leaf g).parser rule'))
    (body : ∀ len p, g = .lengthValue len p →
      L.Bodies T.Same (p.parser rule) ((f p).parser rule'))
    (steady : ∀ p ∈ g.direct, L.Steady (p.parser rule))
    (h : ∀ p ∈ g.direct, L.Related T.Same (p.parser rule) ((f p).parser rule')) :
    L.Related T.Same (g.parser rule) ((g.graft leaf f).parser rule') := by
  simp only [← Grammar.parserWith_ofRunState] at *
  exact hL.effectful.related_graft leaf f g hleaf body steady h

theorem Grammatical.demanding (hL : L.Grammatical T) (hint : Needed → Option Needed)
    (hint_size : ∀ {n n'}, hint n = some n' → 0 < n.size → n.size = n'.size + L.extra ∧ 0 < n'.size) :
    (L.demanding hint hint_size).Grammatical T where
  take := hL.take
  noted_left := hL.noted_left
  noted_right := hL.noted_right
  size := hL.size
  written := hL.written
  starts := hL.starts
  started := hL.started

/-- Rules are related if what they are bound to is, wherever the rules it refers to are related. `N` says
which names belong together. -/
theorem related_rules {V : Value τ → Value τ' → Prop} {bindings : Bindings τ} {bindings' : Bindings τ'}
    {N : String → String → Prop}
    (unbound : ∀ {name name'}, N name name' → bindings.lookup name = none →
      bindings'.lookup name' = none ∧ name = name')
    (bound : ∀ {name name' g} (depth), N name name' → bindings.lookup name = some g →
      (∀ {n n'}, N n n' → L.Related V (bindings.rule depth n) (bindings'.rule depth n')) →
      ∃ g', bindings'.lookup name' = some g' ∧
        L.Related V (g.parser (bindings.rule depth)) (g'.parser (bindings'.rule depth)))
    (depth : Nat) {name name' : String} (h : N name name') :
    L.Related V (bindings.rule depth name) (bindings'.rule depth name') := by
  induction depth generalizing name name' with
  | zero => exact fun _ _ _ _ _ hs => .stop hs
  | succ depth ih =>
    unfold Bindings.rule
    cases hlookup : bindings.lookup name with
    | none =>
      obtain ⟨hnone, rfl⟩ := unbound h hlookup
      rw [hnone]
      exact fun _ _ _ _ _ hs => .stop hs
    | some g =>
      obtain ⟨g', hsome, hg⟩ := bound depth h hlookup ih
      rw [hsome]
      exact hg

end

end Nodes

section Universal

variable [Payload τ ε] [Payload τ ε'] [Element τ] {L : Link (RunState τ ε) (RunState τ ε') τ τ ε ε'}
  {T : Translation τ τ} {rule : String → Rule τ ε} {rule' : String → Rule τ ε'}

/-- Rules of the same names, of which those in use are bound to the same grammars. -/
theorem related_named_rules {L : Link (RunState τ ε) (RunState τ ε') τ τ ε ε'}
    {V : Value τ → Value τ → Prop} {bindings bindings' : Bindings τ} {N : String → Prop}
    (hlookup : ∀ name, N name → bindings'.lookup name = bindings.lookup name)
    (bound : ∀ depth name g, N name → bindings.lookup name = some g →
      (∀ n, N n → L.Related V (bindings.rule depth n) (bindings'.rule depth n)) →
      L.Related V (g.parser (bindings.rule depth)) (g.parser (bindings'.rule depth)))
    (depth : Nat) (name : String) (hname : N name) :
    L.Related V (bindings.rule depth name) (bindings'.rule depth name) := by
  refine related_rules (N := fun n n' => n = n' ∧ N n) ?_ ?_ depth ⟨rfl, hname⟩
  · rintro name _ ⟨rfl, hname⟩ hnone
    exact ⟨(hlookup name hname).trans hnone, rfl⟩
  · rintro name _ g depth ⟨rfl, hname⟩ hsome ih
    exact ⟨g, (hlookup name hname).trans hsome, bound depth name g hname hsome fun n hn => ih ⟨rfl, hn⟩⟩

/-- Links over which every grammar is related to itself. Linked inputs have the same length, and what is
asked of the one must be asked of the other. -/
structure Universal (L : Link (RunState τ ε) (RunState τ ε') τ τ ε ε') (T : Translation τ τ) : Prop
    extends L.Grammatical T where
  leaf : ∀ {rule : String → Rule τ ε} {rule' : String → Rule τ ε'} (g : Grammar τ), g.children = [] →
    (∀ name, g = .ref name → L.Related T.Same (rule name) (rule' name)) →
    L.Related T.Same (g.parser rule) (g.parser rule')
  part : ∀ x x' n, L.Input x x' → n ≤ x.length → L.Input (x.take n) (x'.take n)
  asks : ∀ n, ∃ n', L.hint n = some n'
  extra : L.extra = 0

/-- A node needs nothing but related children. -/
theorem Universal.related_mapChildren (hL : L.Universal T) (f : Grammar τ → Grammar τ) (g : Grammar τ)
    (hrule : ∀ name, g = .ref name → L.Related T.Same (rule name) (rule' name))
    (h : ∀ p ∈ g.children, L.Related T.Same (p.parser rule) ((f p).parser rule')) :
    L.Related T.Same (g.parser rule) ((g.mapChildren f).parser rule') := by
  refine hL.related_graft id f g ?_ ?_ (fun _ _ => .inl hL.extra)
    fun p hp => h p (Grammar.mem_children_of_direct hp)
  · exact fun hleaf => hL.leaf g hleaf hrule
  · rintro len p rfl
    exact bodies_of_parts L Iff.rfl id hL.asks hL.part (h p (.tail _ (.head _)))

theorem Universal.related_grammar (hL : L.Universal T) (g : Grammar τ)
    (hrule : ∀ name, g.Mentions name → L.Related T.Same (rule name) (rule' name)) :
    L.Related T.Same (g.parser rule) (g.parser rule') := by
  induction g using Grammar.tree_induction with
  | h g ih =>
    have hnode : L.Related T.Same (g.parser rule) ((g.mapChildren id).parser rule') := by
      refine hL.related_mapChildren id g ?_ ?_
      · rintro name rfl
        exact hrule name (.here _)
      · exact fun p hp => ih p hp fun name hname => hrule name (.under hp hname)
    rwa [Grammar.mapChildren_id] at hnode

theorem Universal.related_rule (hL : L.Universal T) (bindings : Bindings τ) (depth : Nat)
    (name : String) : L.Related T.Same (bindings.rule depth name : Rule τ ε)
      (bindings.rule depth name : Rule τ ε') :=
  related_named_rules (N := fun _ => True) (fun _ _ => rfl)
    (fun _ _ g _ _ ih => hL.related_grammar g fun n _ => ih n trivial) depth name trivial

end Universal

variable [Payload τ ε] [Payload τ ε'] [Element τ] {y : List τ} {R : ε → ε' → Prop}

/-- The link between runs of grammars, over an input and a longer one. -/
abbrev ofGrammars (hR : Extending y R) : Link (RunState τ ε) (RunState τ ε') τ τ ε ε' :=
  extending RunState.SameStore hR

/-- The link between runs over the same input, where nothing but what was traced may differ. -/
abbrev same : Link (RunState τ ε) (RunState τ ε) τ τ ε ε := ofGrammars Extending.id

variable {hR : Extending y R} {rule : String → Rule τ ε} {rule' : String → Rule τ ε'}

theorem grammatical_ofGrammars : (ofGrammars hR).Grammatical (.identity τ) where
  take := by
    rintro x _ n rfl hn
    exact (Window.take_extend y hn).symm
  noted_left e hs := hs.noted_left e
  noted_right e hs := hs.noted_right e
  size buffer hs := congrArg (Buffers.size · buffer) hs.buffers
  written buffer slot v hs := by
    rw [Value.translate_identity]
    exact hs.written buffer slot v
  starts hs := hs.starts
  started hs := hs.started

/-- A node over related children. What is asked of leaves and of the bodies of length-prefixed values
depends on what becomes of the input. -/
theorem related_node (f : Grammar τ → Grammar τ) (g : Grammar τ)
    (leaf : g.children = [] → (ofGrammars hR).Related Eq (g.parser rule) (g.parser rule'))
    (body : ∀ len p, g = .lengthValue len p →
      (ofGrammars hR).Bodies Eq (p.parser rule) ((f p).parser rule'))
    (steady : ∀ p ∈ g.direct, (ofGrammars hR).Steady (p.parser rule))
    (h : ∀ p ∈ g.direct, (ofGrammars hR).Related Eq (p.parser rule) ((f p).parser rule')) :
    (ofGrammars hR).Related Eq (g.parser rule) ((g.mapChildren f).parser rule') := by
  rw [← Translation.same_identity] at *
  exact grammatical_ofGrammars.related_graft id f g leaf body steady h

/-- Leaves that look at the end of their input are related over the same input only. What states are and
which effects there are does not matter. -/
theorem related_leafWith {S : σ → σ' → Prop} {E : Effects σ τ ε} {E' : Effects σ' τ ε'}
    {rule : String → Parser σ τ ε (Value τ)} {rule' : String → Parser σ' τ ε' (Value τ)}
    (names : String → Prop) (g : Grammar τ) (hleaf : g.children = []) (h : y = [] ∨ g.Streaming names)
    (hrule : ∀ name, g = .ref name → (extending S hR).Related Eq (rule name) (rule' name)) :
    (extending S hR).Related Eq (g.parserWith E rule) (g.parserWith E' rule') := by
  cases g with
  | one =>
    obtain rfl : y = [] := by simpa [Grammar.Streaming] using h
    exact related_map related_one fun _ _ hv => congrArg Value.elem hv
  | eof =>
    obtain rfl : y = [] := by simpa [Grammar.Streaming] using h
    exact related_map related_eof fun _ _ _ => rfl
  | takeWhile set least kind =>
    obtain rfl : y = [] := by simpa [Grammar.Streaming] using h
    exact related_map (related_takeWhile _ _ _) fun _ _ hv => congrArg Value.slice hv
  | digits least =>
    obtain rfl : y = [] := by simpa [Grammar.Streaming] using h
    exact related_map (related_takeWhile _ _ _) fun _ _ hv => congrArg Value.slice hv
  | letters =>
    obtain rfl : y = [] := by simpa [Grammar.Streaming] using h
    exact related_map (related_takeWhile _ _ _) fun _ _ hv => congrArg Value.slice hv
  | epsilon => exact related_map related_epsilon fun _ _ _ => rfl
  | tag mode pattern =>
    cases pattern with
    | own es => exact related_map (related_tag _ h es) fun _ _ hv => congrArg Value.slice hv
    | foreign vs => exact related_map (related_tag _ h vs) fun _ _ hv => congrArg Value.slice hv
  | uint mode width order =>
    exact related_map (related_uint h width order) fun _ _ hv => congrArg Value.num hv
  | raise kind =>
    rintro x _ s s' rfl hs
    exact agree_errorAt x kind hs
  | commit kind =>
    rintro x _ s s' rfl hs
    exact agree_failureAt x kind hs
  | await needed =>
    rintro x _ s s' rfl hs
    exact agree_wait hs fun _ => rfl
  | take n =>
    rintro x _ s s' rfl hs
    unfold Grammar.parserWith
    by_cases hn : x.length < n
    · simp only [if_pos hn]
      refine agree_wait hs fun hy => ?_
      subst hy
      simp only [Window.extend_nil, if_pos hn]
      rfl
    · have hle := Nat.le_of_not_lt hn
      have hn' : ¬ (x.extend y).length < n := by
        rw [Window.length_extend]
        omega
      have hle' := Nat.le_of_not_lt hn'
      simp only [if_neg hn, if_neg hn', Parser.map, Parser.take_eq hle, Parser.take_eq hle',
        Window.take_extend y hle]
      exact agree_drop hle rfl hs
  | done => exact fun x x' s s' hx hs => .success rfl hx hs
  | ref name => exact hrule name rfl
  | _ => cases hleaf

theorem related_leaf (names : String → Prop) (g : Grammar τ) (hleaf : g.children = [])
    (h : y = [] ∨ g.Streaming names)
    (hrule : ∀ name, g = .ref name → (ofGrammars hR).Related Eq (rule name) (rule' name)) :
    (ofGrammars hR).Related Eq (g.parser rule) (g.parser rule') := by
  rw [← Grammar.parserWith_ofRunState, ← Grammar.parserWith_ofRunState]
  exact related_leafWith names g hleaf h hrule

section Same

variable {hN : Extending ([] : List τ) R}

/-- Over the same input and under other effects. -/
theorem related_with {S : σ → σ' → Prop} {E : Effects σ τ ε} {E' : Effects σ' τ ε'}
    {rule : String → Parser σ τ ε (Value τ)} {rule' : String → Parser σ' τ ε' (Value τ)}
    (hE : Effectful (extending S hN) (.identity τ) E E')
    (hrule : ∀ name, (extending S hN).Related Eq (rule name) (rule' name)) (g : Grammar τ) :
    (extending S hN).Related Eq (g.parserWith E rule) (g.parserWith E' rule') := by
  induction g using Grammar.tree_induction with
  | h g ih =>
    have hnode : (extending S hN).Related Eq (g.parserWith E rule)
        ((g.mapChildren id).parserWith E' rule') := by
      rw [← Translation.same_identity] at *
      refine hE.related_graft id id g ?_ ?_ (fun _ _ => .inl rfl)
        fun p hp => ih p (Grammar.mem_children_of_direct hp)
      · intro hleaf
        rw [Translation.same_identity] at *
        exact related_leafWith (fun _ => True) g hleaf (.inl rfl) fun name _ => hrule name
      · rintro len p rfl
        exact bodies_of_same hN (ih p (.tail _ (.head _)))
    rwa [Grammar.mapChildren_id] at hnode

theorem related_ruleWith {S : σ → σ' → Prop} {E : Effects σ τ ε} {E' : Effects σ' τ ε'}
    (hE : Effectful (extending S hN) (.identity τ) E E') (bindings : Bindings τ) (depth : Nat)
    (name : String) : (extending S hN).Related Eq (bindings.ruleWith E depth name)
      (bindings.ruleWith E' depth name) := by
  induction depth generalizing name with
  | zero => exact fun _ _ _ _ _ hs => .stop hs
  | succ depth ih =>
    unfold Bindings.ruleWith
    cases bindings.lookup name with
    | none => exact fun _ _ _ _ _ hs => .stop hs
    | some g => exact related_with hE ih g

theorem universal_ofGrammars : (ofGrammars hN).Universal (.identity τ) where
  toGrammatical := grammatical_ofGrammars
  leaf g hleaf hrule := by
    rw [Translation.same_identity] at *
    exact related_leaf (fun _ => True) g hleaf (.inl rfl) hrule
  part := by
    rintro x _ n rfl hn
    exact (Window.take_extend [] hn).trans (Window.extend_nil _).symm
  asks n := ⟨n, rfl⟩
  extra := rfl

/-- Over the same input a node needs nothing but related children. -/
theorem related_node_same (f : Grammar τ → Grammar τ) (g : Grammar τ)
    (hrule : ∀ name, (ofGrammars hN).Related Eq (rule name) (rule' name))
    (h : ∀ p ∈ g.children, (ofGrammars hN).Related Eq (p.parser rule) ((f p).parser rule')) :
    (ofGrammars hN).Related Eq (g.parser rule) ((g.mapChildren f).parser rule') := by
  rw [← Translation.same_identity] at *
  exact universal_ofGrammars.related_mapChildren f g (fun name _ => hrule name) h

theorem related_grammar_same (g : Grammar τ)
    (hrule : ∀ name, g.Mentions name → (ofGrammars hN).Related Eq (rule name) (rule' name)) :
    (ofGrammars hN).Related Eq (g.parser rule) (g.parser rule') := by
  rw [← Translation.same_identity] at *
  exact universal_ofGrammars.related_grammar g hrule

theorem related_rule_same (hN : Extending ([] : List τ) R) (bindings : Bindings τ) (depth : Nat)
    (name : String) : (ofGrammars hN).Related Eq (bindings.rule depth name : Rule τ ε)
      (bindings.rule depth name : Rule τ ε') := by
  rw [← Translation.same_identity]
  exact universal_ofGrammars.related_rule bindings depth name

end Same

end Link

namespace Session

/-- The state in which a session applies a grammar. -/
def initial (s : Session τ) : RunState τ ε := ⟨s.buffers, s.starts, #[]⟩

/-- What a session makes of the result of an application. -/
def conclude (s : Session τ) :
    EStateM.Result Stop (RunState τ ε) (Outcome τ ε (Value τ)) → Report τ ε × Session τ
  | .ok o t => (⟨.ok o, t.events⟩, { s with buffers := t.buffers, starts := t.starts })
  | .error e t => (⟨.error e, t.events⟩, { s with buffers := t.buffers, starts := t.starts })

theorem run_eq [Payload τ ε] [Element τ] (s : Session τ) (g : Grammar τ) (source : List τ) :
    (s.run g source : Report τ ε × Session τ) =
      s.conclude (s.bindings.parser g (.ofList source) s.initial) := by
  unfold Session.run initial
  cases (s.bindings.parser g (.ofList source) ⟨s.buffers, s.starts, #[]⟩ :
    EStateM.Result Stop (RunState τ ε) (Outcome τ ε (Value τ))) <;> rfl

theorem outcome_of_ok [Payload τ ε] [Element τ] (s : Session τ) {g : Grammar τ} {source : List τ}
    {o : Outcome τ ε (Value τ)} {t : RunState τ ε}
    (h : s.bindings.parser g (.ofList source) s.initial = .ok o t) :
    (s.run g source : Report τ ε × Session τ).1.outcome = .ok o := by
  rw [run_eq, h]
  rfl

theorem initial_sameStore (s : Session τ) :
    (s.initial : RunState τ ε).SameStore (s.initial : RunState τ ε') := ⟨rfl, rfl⟩

/-- Sessions keep their bindings, so they are equal as soon as the stores are. -/
theorem store_eq (s : Session τ) {t : RunState τ ε} {t' : RunState τ ε'} (h : t.SameStore t') :
    { s with buffers := t.buffers, starts := t.starts } =
      { s with buffers := t'.buffers, starts := t'.starts } := by
  rw [h.buffers, h.starts]

/-- What a session concludes from results that differ in their payloads. -/
theorem conclude_mapped (s s' : Session τ) {f : ε → ε'}
    {r : EStateM.Result Stop (RunState τ ε) (Outcome τ ε (Value τ))}
    {r' : EStateM.Result Stop (RunState τ ε') (Outcome τ ε' (Value τ))}
    (h : Mapped f RunState.SameStore r r') :
    (s'.conclude r').1.outcome = (s.conclude r).1.outcome.map (Outcome.mapPayload f) ∧
      (s'.conclude r').2 =
        { s' with buffers := (s.conclude r).2.buffers, starts := (s.conclude r).2.starts } := by
  cases h with
  | ok o ht => exact ⟨rfl, (s'.store_eq ht).symm⟩
  | stop why ht => exact ⟨rfl, (s'.store_eq ht).symm⟩

theorem conclude_bindings (s : Session τ)
    (r : EStateM.Result Stop (RunState τ ε) (Outcome τ ε (Value τ))) :
    (s.conclude r).2.bindings = s.bindings := by cases r <;> rfl

/-- What sessions with different bindings conclude from results that differ in their logs only. -/
theorem conclude_same (s : Session τ) (bindings : Bindings τ)
    {r r' : EStateM.Result Stop (RunState τ ε) (Outcome τ ε (Value τ))}
    (h : Mapped id RunState.SameStore r r') :
    (conclude { s with bindings := bindings } r').1.outcome = (s.conclude r).1.outcome ∧
      (conclude { s with bindings := bindings } r').2 =
        { (s.conclude r).2 with bindings := bindings } := by
  obtain ⟨houtcome, hsession⟩ := s.conclude_mapped { s with bindings := bindings } h
  refine ⟨houtcome.trans ?_, hsession⟩
  rw [funext Outcome.mapPayload_id]
  exact congrFun Except.map_id _

variable [Payload τ ε] [Element τ]

theorem run_bindings (s : Session τ) (g : Grammar τ) (source : List τ) :
    (s.run g source : Report τ ε × Session τ).2.bindings = s.bindings := by
  rw [run_eq, conclude_bindings]

/-- Grammars that differ in their logs only, also under different bindings, answer the same, and leave the
same buffers and starts. -/
theorem run_same (s : Session τ) {bindings : Bindings τ} {g g' : Grammar τ}
    (h : Link.same.Related Eq (s.bindings.parser g : Rule τ ε) (bindings.parser g')) (source : List τ) :
    (run { s with bindings := bindings } g' source : Report τ ε × Session τ).1.outcome =
        (s.run g source : Report τ ε × Session τ).1.outcome ∧
      (run { s with bindings := bindings } g' source : Report τ ε × Session τ).2 =
        { (s.run g source : Report τ ε × Session τ).2 with bindings := bindings } := by
  have hmapped : Mapped (id : ε → ε) RunState.SameStore (s.bindings.parser g (.ofList source) s.initial)
      (bindings.parser g' (.ofList source) s.initial) :=
    (h _ _ _ _ (Window.extend_nil _).symm s.initial_sameStore).mapped PayloadMap.id
  rw [run_eq, run_eq]
  exact s.conclude_same bindings hmapped

end Session

end Reprise
