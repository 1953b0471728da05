import Reprise.Grammar.Meaning
import Reprise.Proofs.Law
import Reprise.Proofs.Sorting
import Reprise.Proofs.Tree

/-!
# Laws of grammars

The values of a grammar show windows of its input. Every grammar obeys a law whose own conditions on
failures, effects and traces are met.
-/

namespace Reprise

variable {σ τ ε α κ : Type}

namespace Value

mutual

/-- All windows inside a value, in order. -/
def windows : Value τ → List (Window τ)
  | slice w => [w]
  | list vs => windowsOfAll vs
  | pair v w => windows v ++ windows w
  | given v => windows v
  | _ => []

/-- The same for lists of values. -/
def windowsOfAll : List (Value τ) → List (Window τ)
  | [] => []
  | v :: vs => windows v ++ windowsOfAll vs

end

theorem windowsOfAll_append (vs ws : List (Value τ)) :
    windowsOfAll (vs ++ ws) = windowsOfAll vs ++ windowsOfAll ws := by
  induction vs with
  | nil => rfl
  | cons v vs ih => simp [windowsOfAll, ih]

theorem mem_windowsOfAll {w : Window τ} {vs : List (Value τ)} :
    w ∈ windowsOfAll vs ↔ ∃ v ∈ vs, w ∈ v.windows := by
  induction vs with
  | nil => simp [windowsOfAll]
  | cons v vs ih => simp [windowsOfAll, ih]

theorem windowsOfAll_subset {us vs : List (Value τ)} {v : Value τ}
    (h : ∀ u ∈ us, u = v ∨ u ∈ vs) : windowsOfAll us ⊆ windowsOfAll vs ++ v.windows := by
  intro w hw
  obtain ⟨u, hu, hw⟩ := mem_windowsOfAll.mp hw
  rcases h u hu with rfl | hu
  · exact List.mem_append_right _ hw
  · exact List.mem_append_left _ (mem_windowsOfAll.mpr ⟨u, hu, hw⟩)

theorem windows_apply [Element τ] (F : Projection) (v : Value τ) : (F.apply v).windows ⊆ v.windows := by
  cases F <;> cases v <;> simp [Projection.apply, windows, windowsOfAll]

theorem windowsOfAll_items (v : Value τ) : windowsOfAll (FoldStep.items v) ⊆ v.windows := by
  cases v <;> simp [FoldStep.items, windows, windowsOfAll]

theorem windows_step [Element τ] (step : FoldStep) (acc v : Value τ) :
    (step.apply acc v).windows ⊆ acc.windows ++ v.windows := by
  have h := windowsOfAll_items acc
  intro w hw
  cases step <;>
    simp only [FoldStep.apply, windows, windowsOfAll, windowsOfAll_append, List.append_nil,
      List.mem_append, List.not_mem_nil] at hw ⊢
  · exact hw.imp (fun hw => h hw) id
  · exact (hw.imp id fun hw => h hw).symm
  · exact hw
  · exact .inr hw

end Value

namespace Container

theorem shows_sequence : (sequence : Container (Value τ) _).Shows Value.windows
    fun vs => Value.windowsOfAll vs.toList where
  empty := rfl
  room _ := rfl
  insert held v := by simp [sequence, Value.windowsOfAll_append, Value.windowsOfAll]

theorem shows_sorted (cmp : Value τ → Value τ → Ordering) :
    (sorted cmp).Shows Value.windows Value.windowsOfAll where
  empty := rfl
  room _ := rfl
  insert _ _ := Value.windowsOfAll_subset fun _ hu => mem_insertAfterEqual hu

theorem shows_sortedUnique (cmp : Value τ → Value τ → Ordering) :
    (sortedUnique cmp).Shows Value.windows Value.windowsOfAll where
  empty := rfl
  room _ := rfl
  insert _ _ := Value.windowsOfAll_subset fun _ hu => mem_insertUnlessEqual hu

end Container

/-- Whatever is made of the container of a shape holds if it holds of all containers. -/
theorem Shape.use_of_shows [Element τ] {ω : Type} {P : ω → Prop} (shape : Shape)
    {F : {κ : Type} → Container (Value τ) κ → (κ → Value τ) → ω}
    (h : ∀ (κ : Type) (into : Container (Value τ) κ) (finish : κ → Value τ)
      (g : κ → List (Window τ)), into.Shows Value.windows g →
      (∀ held, (finish held).windows ⊆ g held) → P (F into finish)) : P (shape.use F) := by
  cases shape with
  | list => exact h _ _ _ _ Container.shows_sequence fun _ => List.Subset.refl _
  | set => exact h _ _ _ _ (Container.shows_sortedUnique _) fun _ => List.Subset.refl _
  | multiset => exact h _ _ _ _ (Container.shows_sorted _) fun _ => List.Subset.refl _
  | dropped => exact h _ _ _ _ Container.shows_counter fun _ => List.Subset.refl _
  | text =>
    have hletters : (Shape.letters : Container (Value τ) _).Shows Value.windows fun _ => [] :=
      ⟨rfl, fun _ => rfl, fun _ _ => List.nil_subset _⟩
    exact h _ _ _ _ hletters fun _ => List.Subset.refl _

/-- The kind of a failure that a node raises on its own, whatever its children do. -/
def Grammar.ownFailure? : Grammar τ → Option ErrorKind
  | .commit kind => some kind
  | .collect times _ _ =>
    if times.repetition.range.inverted then some times.repetition.kind else none
  | .fold times _ _ _ =>
    if times.repetition.range.inverted then some times.repetition.kind else none
  | _ => none

namespace Law

variable [Payload τ ε] [Element τ]

/-- A law that every grammar obeys, as far as its failures do not arise in its own nodes. -/
structure Grammatical (L : Law (RunState τ ε) τ ε) : Prop where
  complete : ∀ {x s t n k}, n ≤ x.length → L.Holds (x.take n) s (.signal (.incomplete k)) t →
    L.Holds x s (.signal (.error (Payload.ofKind (x.take n) .complete))) t
  write : ∀ buffer slot v, L.Admits (fun _ => True) (RunState.write buffer slot v)
  calls : L.Admits (fun v => v.windows = []) FoldStart.calls.run
  trace : ∀ {p : Rule τ ε} (name), L.Obeys Value.windows p →
    L.Obeys Value.windows (p.traced RunState.note name)

variable {L : Law (RunState τ ε) τ ε} {rule : String → Rule τ ε}

theorem obeys_lengthOf {p : Rule τ ε} (hp : L.Obeys Value.windows p) :
    L.Obeys (fun _ => []) (Grammar.lengthOf p) := obeys_map hp fun _ => List.nil_subset _

omit [Element τ] in
theorem admits_start (hL : L.Grammatical) (start : FoldStart) :
    L.Admits (fun v => v.windows = []) (start.run : Run (RunState τ ε) (Value τ)) := by
  cases start with
  | calls => exact hL.calls
  | zero => exact admits_pure rfl
  | list => exact admits_pure rfl
  | unit => exact admits_pure rfl

omit [Element τ] in
theorem held_eq_nil {κ : Type} {into : Container (Value τ) κ} {g : κ → List (Window τ)}
    (hinto : into.Shows Value.windows g) (times : Collecting) : g (times.held into) = [] := by
  rcases times.held_eq with hheld | ⟨n, hheld⟩
  · rw [hheld]
    exact hinto.empty
  · rw [hheld]
    exact hinto.room n

omit [Element τ] in
theorem inverted_exempt {r : Repetition}
    (fail : ∀ kind, (if r.range.inverted then some r.kind else none) = some kind →
      ∀ x s, L.Holds x s (.signal (.failure (Payload.ofKind x kind))) s)
    (h : r.range.inverted = true) (x : Window τ) (s : RunState τ ε) :
    L.Holds x s (.signal (.failure (Payload.ofKind x r.kind))) s :=
  fail r.kind (by rw [if_pos h]) x s

/-- A node obeys a law if its children do, and if it may raise the failures of its own. -/
theorem obeys_node (hL : L.Grammatical) (hrule : ∀ name, L.Obeys Value.windows (rule name))
    (g : Grammar τ)
    (commit : ∀ p, g = .cut p → ∀ {x s e t}, L.Holds x s (.signal (.error e)) t →
      L.Holds x s (.signal (.failure e)) t)
    (fail : ∀ kind, g.ownFailure? = some kind →
      ∀ x s, L.Holds x s (.signal (.failure (Payload.ofKind x kind))) s)
    (h : ∀ p ∈ g.children, L.Obeys Value.windows (p.parser rule)) :
    L.Obeys Value.windows (g.parser rule) := by
  cases g with
  | one => exact obeys_map (obeys_one fun _ => rfl) fun _ => List.Subset.refl _
  | eof => exact obeys_map (obeys_eof rfl) fun _ => List.Subset.refl _
  | epsilon => exact obeys_map (obeys_epsilon rfl) fun _ => List.Subset.refl _
  | tag mode pattern =>
    cases pattern with
    | own es => exact obeys_map (obeys_tag fun _ => rfl) fun _ => List.Subset.refl _
    | foreign vs => exact obeys_map (obeys_tag fun _ => rfl) fun _ => List.Subset.refl _
  | takeWhile set least kind =>
    exact obeys_map (obeys_takeWhile fun _ => rfl) fun _ => List.Subset.refl _
  | digits least => exact obeys_map (obeys_takeWhile fun _ => rfl) fun _ => List.Subset.refl _
  | letters => exact obeys_map (obeys_takeWhile fun _ => rfl) fun _ => List.Subset.refl _
  | uint mode width order => exact obeys_map (obeys_uint fun _ => rfl) fun _ => List.Subset.refl _
  | opt p =>
    refine obeys_map (obeys_opt (g := fun o => o.elim [] Value.windows) (h p (.head _)) rfl
      fun _ => List.Subset.refl _) ?_
    rintro (_ | v) <;> exact List.Subset.refl _
  | cut p => exact obeys_cut (h p (.head _)) (commit p rfl)
  | boxed p => exact h p (.head _)
  | map F p => exact obeys_map (h p (.head _)) (Value.windows_apply F)
  | collect times shape p =>
    refine shape.use_of_shows (P := L.Obeys Value.windows) fun κ into finish g hinto hfinish => ?_
    rw [Collecting.parser_eq_collect]
    exact obeys_map (obeys_collect (h p (.head _)) hinto (held_eq_nil hinto times)
      (inverted_exempt fail)) hfinish
  | many0Count p =>
    have hcount : L.Obeys (fun _ => []) (Parser.many0Count (p.parser rule)) :=
      obeys_countOver (h p (.head _)) nofun
    exact obeys_map hcount fun _ => List.nil_subset _
  | many1Count p =>
    have hcount : L.Obeys (fun _ => []) (Parser.many1Count (p.parser rule)) :=
      obeys_countOver (h p (.head _)) nofun
    exact obeys_map hcount fun _ => List.nil_subset _
  | fold times start step p =>
    unfold Grammar.parser
    rw [Folding.parser_eq_foldOver]
    exact obeys_foldOver (h p (.head _)) (admits_start hL start) (Value.windows_step step)
      (inverted_exempt fail)
  | manyTill shape till p =>
    refine shape.use_of_shows (P := L.Obeys Value.windows) fun κ into finish g hinto hfinish => ?_
    refine obeys_map (obeys_manyTill (j := fun v => g v.1 ++ v.2.windows) (h p (.tail _ (.head _)))
      (h till (.head _)) (fun _ _ => List.Subset.refl _) hinto) ?_
    rintro ⟨held, u⟩ w hw
    simp only [Value.windows, List.mem_append] at hw ⊢
    exact hw.imp (fun hw => hfinish held hw) id
  | separatedList0 shape sep p =>
    refine shape.use_of_shows (P := L.Obeys Value.windows) fun κ into finish g hinto hfinish => ?_
    exact obeys_map (obeys_separatedList0 (h p (.tail _ (.head _))) (h sep (.head _)) hinto) hfinish
  | separatedList1 shape sep p =>
    refine shape.use_of_shows (P := L.Obeys Value.windows) fun κ into finish g hinto hfinish => ?_
    exact obeys_map (obeys_separatedList1 (h p (.tail _ (.head _))) (h sep (.head _)) hinto) hfinish
  | lengthData len =>
    have hdata := obeys_lengthData (obeys_lengthOf (h len (.head _))) fun w => List.Subset.refl [w]
    exact obeys_map hdata fun _ => List.Subset.refl _
  | lengthValue len p =>
    exact obeys_lengthValue (obeys_lengthOf (h len (.head _))) (h p (.tail _ (.head _))) hL.complete
  | lengthCount shape len p =>
    refine shape.use_of_shows (P := L.Obeys Value.windows) fun κ into finish g hinto hfinish => ?_
    exact obeys_map (obeys_lengthCount (obeys_lengthOf (h len (.head _))) (h p (.tail _ (.head _)))
      hinto) hfinish
  | fill buffer slots p =>
    intro x s
    exact obeys_map (obeys_fill (g := fun _ => []) (h p (.head _)) rfl (hL.write buffer))
      (fun _ => List.nil_subset _) x s
  | trace name p => exact hL.trace name (h p (.head _))
  | raise kind => exact fun x s => post_errorAt
  | commit kind => exact fun x s => fail kind rfl x s
  | await n => exact fun x s => post_needs
  | take n =>
    intro x s
    unfold Grammar.parser
    by_cases hn : x.length < n
    · simp only [if_pos hn]
      exact L.needs _
    · simp only [if_neg hn]
      rw [Parser.map, Parser.take_eq (Nat.le_of_not_lt hn)]
      exact ⟨L.drop (Nat.le_of_not_lt hn), shown_take (fun _ => rfl) n⟩
  | done => exact fun x s => ⟨L.refl x s, shown_of_eq_nil rfl⟩
  | andThen p rest =>
    refine obeys_map (obeys_andThen (h := fun v => v.1.windows ++ v.2.windows) (h p (.head _))
      (h rest (.tail _ (.head _))) fun _ _ => List.Subset.refl _) ?_
    rintro ⟨v, vs⟩ w hw
    simp only [Value.windows, Value.windowsOfAll, List.mem_append] at hw ⊢
    exact hw.imp id fun hw => Value.windowsOfAll_items vs hw
  | orElse p q => exact obeys_orElse (h p (.head _)) (h q (.tail _ (.head _)))
  | ref name => exact hrule name

/-- A law that every grammar obeys, wherever its failures arise and its runs stop. -/
structure Universal (L : Law (RunState τ ε) τ ε) : Prop extends L.Grammatical where
  commit : ∀ {x s e t}, L.Holds x s (.signal (.error e)) t → L.Holds x s (.signal (.failure e)) t
  fail : ∀ x s kind, L.Holds x s (.signal (.failure (Payload.ofKind x kind))) s
  stop : ∀ x s why, L.Holds x s (.stop why) s

theorem obeys_grammar (hL : L.Universal) (hrule : ∀ name, L.Obeys Value.windows (rule name))
    (g : Grammar τ) : L.Obeys Value.windows (g.parser rule) := by
  induction g using Grammar.tree_induction with
  | h g ih =>
    exact obeys_node hL.toGrammatical hrule g (fun _ _ => hL.commit)
      (fun kind _ x s => hL.fail x s kind) ih

/-- The rules obey a law at any depth. -/
theorem obeys_rule (hL : L.Universal) (bindings : Bindings τ) (depth : Nat) (name : String) :
    L.Obeys Value.windows (bindings.rule depth name) := by
  induction depth generalizing name with
  | zero => exact fun x s => hL.stop x s .tooDeep
  | succ depth ih =>
    unfold Bindings.rule
    cases bindings.lookup name with
    | none => exact fun x s => hL.stop x s (.unbound name)
    | some g => exact obeys_grammar hL ih g

/-- A law about windows and answers only. -/
def Blind (L : Law σ τ ε) : Prop := ∀ {x s t a} (s' t' : σ), L.Holds x s a t → L.Holds x s' a t'

omit [Element τ] in
theorem Blind.traced {L : Law σ τ ε} (hL : L.Blind) {write : Event τ ε → Run σ Unit}
    {f : Event τ ε → σ → σ} (hwrite : ∀ event s, write event s = .ok () (f event s))
    {windows : α → List (Window τ)} {p : Parser σ τ ε α} (name : String) (hp : L.Obeys windows p) :
    L.Obeys windows (p.traced write name) :=
  obeys_traced hwrite name hp (hL _ _) fun _ => hL _ _

omit [Element τ] in
/-- What a run writes does not matter to a law that is blind for it. -/
theorem Blind.grammatical (hL : L.Blind)
    (complete : ∀ {x s t n k}, n ≤ x.length → L.Holds (x.take n) s (.signal (.incomplete k)) t →
      L.Holds x s (.signal (.error (Payload.ofKind (x.take n) .complete))) t) : L.Grammatical where
  complete := complete
  write buffer slot v := by
    constructor
    · intro x s y t _ u reach hr
      exact ⟨hL _ _ reach, trivial⟩
    · intro x s y t why u _ hr
      cases hr
  calls := by
    constructor
    · intro x s y t v u reach hr
      cases hr
      exact ⟨hL _ _ reach, rfl⟩
    · intro x s y t why u _ hr
      cases hr
  trace name hp := hL.traced RunState.note_eq name hp

end Law

end Reprise
