import Reprise.Proofs.Lines
import Reprise.Proofs.Separated

/-!
# Lists that are read back

Elements that are written with separators between them are found again by a separated list, if each of them
is read where it stands. What is read is said of texts: a parser takes a text off every input that shows it,
wherever that input begins.
-/

namespace Reprise

variable {σ τ ε α β γ κ : Type}

theorem Container.insertAll_sequence (vs : List α) :
    sequence.insertAll sequence.empty vs = vs.toArray := by
  simp [insertAll, sequence]

namespace Parser

/-- Takes a text off every input that goes on with `behind`. The value may depend on where the input begins,
and is seen as `v`. -/
def Reads (p : Parser σ τ ε α) (view : α → γ) (text behind : List τ) (v : γ) : Prop :=
  ∀ (x : Window τ) (s : σ), x.elements = text ++ behind →
    ∃ a t, p x s = .ok (.success a (x.drop text.length)) t ∧ view a = v

/-- Takes a text off the input, whatever the value is. -/
def Skips (p : Parser σ τ ε α) (text behind : List τ) : Prop := p.Reads (fun _ => ()) text behind ()

/-- Errs on an input. -/
def ErrsOn (p : Parser σ τ ε α) (input : List τ) : Prop :=
  ∀ (x : Window τ) (s : σ), x.elements = input → ∃ e t, p x s = .ok (.signal (.error e)) t

variable {p : Parser σ τ ε α} {text behind : List τ}

theorem Reads.map {view : α → γ} {v : γ} (h : p.Reads view text behind v) {f : α → β} {δ : Type}
    {view' : β → δ} {v' : δ} (hv : ∀ a, view a = v → view' (f a) = v') :
    (p.map f).Reads view' text behind v' := by
  intro x s hx
  obtain ⟨a, t, hp, ha⟩ := h x s hx
  exact ⟨f a, t, Run.bind_of_ok hp, hv a ha⟩

theorem ErrsOn.map (h : p.ErrsOn text) (f : α → β) : (p.map f).ErrsOn text := by
  intro x s hx
  obtain ⟨e, t, hp⟩ := h x s hx
  exact ⟨e, t, Run.bind_of_ok hp⟩

section

variable [Payload τ ε] {test : τ → Bool} {least : Nat}

theorem reads_takeWhile (kind : ErrorKind) (htext : ∀ c ∈ text, test c = true)
    (hleast : least ≤ text.length) (hbehind : ∀ c ∈ behind.head?, test c = false) :
    (takeWhile test least kind : Parser σ τ ε (Window τ)).Reads Window.elements text behind text := by
  intro x s hx
  have hrun : x.elements.takeWhile test = text := by rw [hx, takeWhile_append_of_head htext hbehind]
  refine ⟨x.take text.length, s, ?_, ?_⟩
  · rw [takeWhile_eq, hrun, if_neg (Nat.not_lt.mpr hleast)]
    rfl
  · rw [Window.elements_take, hx, List.take_left]

theorem errsOn_takeWhile (kind : ErrorKind) (hbehind : ∀ c ∈ behind.head?, test c = false)
    (hleast : 0 < least) : (takeWhile test least kind : Parser σ τ ε (Window τ)).ErrsOn behind := by
  intro x s hx
  have hrun : x.elements.takeWhile test = [] := by
    have h := takeWhile_append_of_head (List.forall_mem_nil _) hbehind
    rwa [List.nil_append, ← hx] at h
  refine ⟨Payload.ofKind x kind, s, ?_⟩
  rw [takeWhile_eq, hrun, List.length_nil, if_pos hleast]
  rfl

variable [BEq τ] [LawfulBEq τ]

theorem agree_self_append (pattern behind : List τ) :
    agree (fun a b => a == b) (pattern ++ behind) pattern = true := by
  induction pattern with
  | nil => cases behind <;> rfl
  | cons c cs ih => simp [agree, ih]

theorem literal_of_isPrefix (mode : Mode) {pattern : List τ} {x : Window τ}
    (h : pattern <+: x.elements) (s : σ) :
    (literal mode pattern x s : EStateM.Result Stop σ (Outcome τ ε (Window τ))) =
      .ok (.success (x.take pattern.length) (x.drop pattern.length)) s := by
  obtain ⟨behind, hx⟩ := h
  have hle : ¬ x.length < pattern.length := by
    rw [x.length_eq, ← hx, List.length_append]
    omega
  unfold literal
  rw [tag_eq, ← hx, agree_self_append, if_pos rfl, if_neg hle]
  rfl

theorem skips_literal (mode : Mode) (pattern behind : List τ) :
    (literal mode pattern : Parser σ τ ε (Window τ)).Skips pattern behind :=
  fun _ s hx => ⟨_, s, literal_of_isPrefix mode ⟨behind, hx.symm⟩ s, rfl⟩

omit [LawfulBEq τ] in
theorem errsOn_literal {pattern : List τ} (h : pattern ≠ []) :
    (literal .complete pattern : Parser σ τ ε (Window τ)).ErrsOn [] := by
  intro x s hx
  have hlt : x.length < pattern.length := by
    rw [x.length_eq, hx]
    exact List.length_pos_iff.mpr h
  refine ⟨Payload.ofKind x .tag, s, ?_⟩
  unfold literal
  rw [tag_eq, hx, if_pos (by cases pattern <;> rfl), if_pos hlt]
  rfl

end

end Parser

namespace Separated

/-- A text with values up to what is left of it. Each value stands behind a separator that takes something,
and is read where it stands. -/
inductive Legible (sep : Parser σ τ ε β) (p : Parser σ τ ε α) (view : α → γ) (left : List τ) :
    List γ → List τ → Prop where
  | none : Legible sep p view left [] left
  | more {gap text behind : List τ} {v : γ} {vs : List γ} : gap ≠ [] → sep.Skips gap (text ++ behind) →
    p.Reads view text behind v → Legible sep p view left vs behind →
    Legible sep p view left (v :: vs) (gap ++ (text ++ behind))

/-- No further value is read: no separator stands there, or no element behind it. -/
def Ends (sep : Parser σ τ ε β) (p : Parser σ τ ε α) (left : List τ) : Prop :=
  sep.ErrsOn left ∨
    ∃ gap behind, left = gap ++ behind ∧ gap ≠ [] ∧ sep.Skips gap behind ∧ p.ErrsOn behind

variable {sep : Parser σ τ ε β} {p : Parser σ τ ε α} {view : α → γ} {left text behind : List τ} {v : γ}
  {vs : List γ}

theorem Legible.length_le (h : Legible sep p view left vs text) : left.length ≤ text.length := by
  induction h with
  | none => exact Nat.le_refl _
  | more _ _ _ _ ih =>
    rw [List.length_append, List.length_append]
    omega

variable [Payload τ ε] {x : Window τ}

omit [Payload τ ε] in
/-- A separator that takes something is progress. -/
theorem length_drop_ne {gap : List τ} (hx : x.elements = gap ++ behind) (hgap : gap ≠ []) :
    (x.drop gap.length).length ≠ x.length := by
  have hpos := List.length_pos_iff.mpr hgap
  rw [Window.length_drop, x.length_eq, hx, List.length_append]
  omega

/-- What no further value is read of closes a list. -/
theorem Ends.closes (h : Ends sep p left) (into : Container α κ) (held : κ) (hx : x.elements = left)
    (s : σ) : ∃ last t, Closes into sep p ⟨held, x, s⟩ last (.ok (.success held x) t) := by
  rcases h with herrs | ⟨gap, behind, rfl, hgap, hskips, herrs⟩
  · obtain ⟨e, t, hsep⟩ := herrs x s hx
    exact ⟨_, t, .ended hsep⟩
  · obtain ⟨w, t, hsep, -⟩ := hskips x s hx
    obtain ⟨e, u, hp⟩ := herrs (x.drop gap.length) t (by rw [Window.elements_drop, hx, List.drop_left])
    exact ⟨_, u, .trailing hsep (length_drop_ne hx hgap) hp⟩

/-- The loop reads a text value by value, and leaves what no further value is read of. -/
theorem loop_legible (h : Legible sep p view left vs text) (hends : Ends sep p left)
    (into : Container α κ) (held : κ) (hx : x.elements = text) (s : σ) {turns : Nat}
    (hturns : x.length < turns) : ∃ as t, Parser.separatedLoop into sep p turns held x s =
      .ok (.success (into.insertAll held as) (x.drop (text.length - left.length))) t ∧
        as.map view = vs := by
  induction h generalizing x held s turns with
  | none =>
    obtain ⟨turns, rfl⟩ := Nat.exists_eq_add_one_of_ne_zero (Nat.ne_of_gt (Nat.zero_lt_of_lt hturns))
    obtain ⟨last, t, hcloses⟩ := hends.closes into held hx s
    refine ⟨[], t, ?_, rfl⟩
    rw [loop_closes hcloses, Nat.sub_self, Window.drop_zero]
    rfl
  | @more gap text behind v vs hgap hskips hreads hlegible ih =>
    obtain ⟨turns, rfl⟩ := Nat.exists_eq_add_one_of_ne_zero (Nat.ne_of_gt (Nat.zero_lt_of_lt hturns))
    obtain ⟨w, t, hsep, -⟩ := hskips x s hx
    have hnext : (x.drop gap.length).elements = text ++ behind := by
      rw [Window.elements_drop, hx, List.drop_left]
    obtain ⟨a, u, hp, ha⟩ := hreads (x.drop gap.length) t hnext
    have hrest : ((x.drop gap.length).drop text.length).elements = behind := by
      rw [Window.elements_drop, hnext, List.drop_left]
    have hprogress := length_drop_ne hx hgap
    have hlt : ((x.drop gap.length).drop text.length).length < turns := by
      rw [Window.length_drop] at hprogress
      rw [Window.length_drop, Window.length_drop]
      omega
    obtain ⟨as, t, hloop, has⟩ := ih (into.insert held a) hrest u hlt
    have hturn : Turn into sep p ⟨held, x, s⟩ _ ⟨into.insert held a, _, u⟩ :=
      .taken hsep hprogress hp
    have hle := hlegible.length_le
    have hdrop : (gap ++ (text ++ behind)).length - left.length =
        gap.length + text.length + (behind.length - left.length) := by
      rw [List.length_append, List.length_append]
      omega
    refine ⟨a :: as, t, ?_, by rw [List.map_cons, ha, has]⟩
    rw [loop_turn hturn, hloop, Window.drop_drop, Window.drop_drop, hdrop, Nat.add_assoc]
    rfl

/-- Both kinds of lists find the values and take so much of an input, from any state. -/
def Finds (sep : Parser σ τ ε β) (p : Parser σ τ ε α) (into : Container α κ) (view : α → γ)
    (x : Window τ) (vs : List γ) (taken : Nat) : Prop :=
  ∀ s : σ, ∃ as t, as.map view = vs ∧
    Parser.separatedList1 into sep p x s =
      .ok (.success (into.insertAll into.empty as) (x.drop taken)) t ∧
    Parser.separatedList0 into sep p x s =
      .ok (.success (into.insertAll into.empty as) (x.drop taken)) t

/-- An element is read, and what is legible behind it. -/
theorem finds_legible (hreads : p.Reads view text behind v) (h : Legible sep p view left vs behind)
    (hends : Ends sep p left) (into : Container α κ) (hx : x.elements = text ++ behind) :
    Finds sep p into view x (v :: vs) (text.length + (behind.length - left.length)) := by
  intro s
  obtain ⟨a, t, hp, ha⟩ := hreads x s hx
  have hrest : (x.drop text.length).elements = behind := by
    rw [Window.elements_drop, hx, List.drop_left]
  obtain ⟨as, u, hloop, has⟩ := loop_legible h hends into (into.insert into.empty a) hrest t
    (Nat.lt_succ_self _)
  rw [Window.drop_drop] at hloop
  exact ⟨a :: as, u, by rw [List.map_cons, ha, has], (Run.bind_of_ok hp).trans hloop,
    (Run.bind_of_ok hp).trans hloop⟩

/-- A text, and the value that it is written for. -/
structure Piece (τ γ : Type) where
  text : List τ
  value : γ

/-- Pieces with a separator before each of them. -/
def led (sp : List τ) (pieces : List (Piece τ γ)) : List τ := pieces.flatMap fun e => sp ++ e.text

/-- Pieces with a separator between two of them. -/
def written (sp : List τ) (pieces : List (Piece τ γ)) : List τ := sp.intercalate (pieces.map Piece.text)

theorem written_cons (sp : List τ) (e : Piece τ γ) (pieces : List (Piece τ γ)) :
    written sp (e :: pieces) = e.text ++ led sp pieces := by
  rw [written, List.map_cons, intercalate_cons, List.flatMap_map, led]

/-- What is written behind a separator begins with it. -/
theorem exists_led (sp : List τ) (front : List (Piece τ γ)) (last : Piece τ γ) (left : List τ) :
    ∃ behind, led sp (front ++ [last]) ++ left = sp ++ behind := by
  cases front <;> simp [led]

variable {sp : List τ} {front : List (Piece τ γ)} {last : Piece τ γ}

omit [Payload τ ε] in
theorem legible_led (hsp : sp ≠ []) (hsep : ∀ behind, sep.Skips sp behind)
    (hfront : ∀ e ∈ front, ∀ behind, p.Reads view e.text (sp ++ behind) e.value)
    (hlast : p.Reads view last.text left last.value) :
    Legible sep p view left ((front ++ [last]).map Piece.value) (led sp (front ++ [last]) ++ left) := by
  induction front with
  | nil =>
    have h := Legible.none.more hsp (hsep (last.text ++ left)) hlast
    simpa [led] using h
  | cons e front ih =>
    obtain ⟨behind, hbehind⟩ := exists_led sp front last left
    have hreads := hfront e (.head _) behind
    rw [← hbehind] at hreads
    have h := (ih fun e' he' => hfront e' (.tail _ he')).more hsp (hsep _) hreads
    simpa [led] using h

/-- Pieces that are read wherever a separator follows them are found, if nothing more is read behind the
last one. -/
theorem finds_written (hsp : sp ≠ []) (hsep : ∀ behind, sep.Skips sp behind)
    (hfront : ∀ e ∈ front, ∀ behind, p.Reads view e.text (sp ++ behind) e.value)
    (hlast : p.Reads view last.text left last.value) (hends : Ends sep p left) (into : Container α κ)
    (hx : x.elements = written sp (front ++ [last]) ++ left) :
    Finds sep p into view x ((front ++ [last]).map Piece.value) (written sp (front ++ [last])).length := by
  cases front with
  | nil =>
    have hwritten : written sp ([] ++ [last]) = last.text := by simp [written]
    rw [hwritten] at hx ⊢
    have h := finds_legible hlast .none hends into hx
    rwa [Nat.sub_self, Nat.add_zero] at h
  | cons e front =>
    rw [List.cons_append, written_cons] at hx ⊢
    rw [List.append_assoc] at hx
    obtain ⟨behind, hbehind⟩ := exists_led sp front last left
    have hreads := hfront e (.head _) behind
    rw [← hbehind] at hreads
    have hlegible := legible_led hsp hsep (fun e' he' => hfront e' (.tail _ he')) hlast
    have h := finds_legible hreads hlegible hends into hx
    rw [List.length_append, Nat.add_sub_cancel, ← List.length_append] at h
    exact h

/-- Digits are read up to a comma, which separates them. -/
theorem finds_digits {ε : Type} [Payload Narrow ε] {words : List (List Narrow)} (hne : words ≠ [])
    (hwords : ∀ w ∈ words, w ≠ [] ∧ ∀ c ∈ w, Parser.isDigit c = true) {left : List Narrow}
    (hleft : ∀ c ∈ left.head?, Parser.isDigit c = false)
    (hends : Ends (.literal .complete [.ofChar ','] : Parser σ Narrow ε (Window Narrow)) (.digits 1) left)
    (into : Container (Window Narrow) κ) {x : Window Narrow}
    (hx : x.elements = [.ofChar ','].intercalate words ++ left) :
    Finds (.literal .complete [.ofChar ','] : Parser σ Narrow ε (Window Narrow)) (.digits 1) into
      Window.elements x words ([.ofChar ','].intercalate words).length := by
  obtain ⟨front, last, rfl⟩ := (List.eq_nil_or_concat' words).resolve_left hne
  have hreads {w behind : List Narrow} (hw : w ∈ front ++ [last])
      (hbehind : ∀ c ∈ behind.head?, Parser.isDigit c = false) :
      (Parser.digits 1 : Parser σ Narrow ε (Window Narrow)).Reads Window.elements w behind w :=
    Parser.reads_takeWhile .digit (hwords w hw).2 (List.length_pos_iff.mpr (hwords w hw).1) hbehind
  have hwritten : written [.ofChar ','] (front.map (fun w => Piece.mk w w) ++ [Piece.mk last last]) =
      [.ofChar ','].intercalate (front ++ [last]) := by simp [written, Function.comp_def]
  have hvalues : (front.map (fun w => Piece.mk w w) ++ [Piece.mk last last]).map Piece.value =
      front ++ [last] := by simp [Function.comp_def]
  rw [← hwritten] at hx ⊢
  rw [← hvalues]
  refine finds_written (List.cons_ne_nil _ _) (Parser.skips_literal _ _) ?_ (hreads (by simp) hleft) hends
    into hx
  intro e he behind
  obtain ⟨w, hw, rfl⟩ := List.mem_map.mp he
  exact hreads (by simp [hw]) (by simp; decide)

/-- Pieces that are each read where they are written: the separator text is not empty and is taken off
wherever it stands, an element is read in front of it, and the last one at the end of an input, where no
separator is found. -/
structure Readable (sep : Parser σ τ ε β) (p : Parser σ τ ε α) (view : α → γ) (sp : List τ)
    (front : List (Piece τ γ)) (last : Piece τ γ) : Prop where
  gap_ne_nil : sp ≠ []
  gap_skipped : ∀ behind, sep.Skips sp behind
  gap_missing : sep.ErrsOn []
  read_front : ∀ e ∈ front, ∀ behind, p.Reads view e.text (sp ++ behind) e.value
  read_last : p.Reads view last.text [] last.value

/-- What is written with a separator is read back by both kinds of lists, whatever they are collected into,
and nothing is left of it. A separator behind the last piece is left, if the last piece is read before a
separator as well and no element at the end of the input. Words of digits with commas between them are such
pieces. -/
theorem lists_read_back (into : Container α κ) (sep : Parser σ τ ε β) (p : Parser σ τ ε α) (view : α → γ)
    (sp : List τ) (front : List (Piece τ γ)) (last : Piece τ γ) :
    (Readable sep p view sp front last →
      (∀ x : Window τ, x.elements = written sp (front ++ [last]) →
        Finds sep p into view x ((front ++ [last]).map Piece.value) x.length) ∧
      ((∀ behind, p.Reads view last.text (sp ++ behind) last.value) → p.ErrsOn [] →
        ∀ x : Window τ, x.elements = written sp (front ++ [last]) ++ sp →
          Finds sep p into view x ((front ++ [last]).map Piece.value)
            (written sp (front ++ [last])).length)) ∧
    ∀ {ε' κ' : Type} [Payload Narrow ε'] (into : Container (Window Narrow) κ') (words : List (List Narrow)),
      words ≠ [] → (∀ w ∈ words, w ≠ [] ∧ ∀ c ∈ w, Parser.isDigit c = true) →
      let comma : Parser σ Narrow ε' (Window Narrow) := .literal .complete [.ofChar ',']
      (∀ x : Window Narrow, x.elements = [.ofChar ','].intercalate words →
        Finds comma (.digits 1) into Window.elements x words x.length) ∧
      ∀ x : Window Narrow, x.elements = [.ofChar ','].intercalate words ++ [.ofChar ','] →
        Finds comma (.digits 1) into Window.elements x words
          ([.ofChar ','].intercalate words).length := by
  refine ⟨fun h => ⟨?_, ?_⟩, ?_⟩
  · intro x hx
    rw [← List.append_nil (written sp _)] at hx
    have hfinds := finds_written h.gap_ne_nil h.gap_skipped h.read_front h.read_last
      (.inl h.gap_missing) into hx
    rwa [x.length_eq, hx, List.append_nil]
  · intro hlast herrs x hx
    have hread := hlast []
    rw [List.append_nil] at hread
    have hends : Ends sep p sp :=
      .inr ⟨sp, [], (List.append_nil sp).symm, h.gap_ne_nil, h.gap_skipped [], herrs⟩
    exact finds_written h.gap_ne_nil h.gap_skipped h.read_front hread hends into hx
  intro ε' κ' _ into words hne hwords comma
  constructor
  · intro x hx
    rw [← List.append_nil (List.intercalate _ _)] at hx
    have herrs : comma.ErrsOn [] := Parser.errsOn_literal (List.cons_ne_nil _ _)
    have hfinds := finds_digits hne hwords (by simp) (.inl herrs) into hx
    rwa [x.length_eq, hx, List.append_nil]
  · intro x hx
    have herrs : (Parser.digits 1 : Parser σ Narrow ε' (Window Narrow)).ErrsOn [] :=
      Parser.errsOn_takeWhile .digit nofun Nat.one_pos
    exact finds_digits hne hwords (by decide)
      (.inr ⟨[.ofChar ','], [], rfl, List.cons_ne_nil _ _, Parser.skips_literal _ _ _, herrs⟩) into hx

/-- Three words of letters with a comma and a blank between them, also with one more of both at the end, and
three numbers with commas. -/
theorem lists_read_back_words :
    let pause : Parser Unit UInt8 (Trail UInt8) (Window UInt8) := .literal .complete [44, 32]
    let word (letters : List UInt8) : Piece UInt8 (List UInt8) := ⟨letters, letters⟩
    let found (text : List UInt8) := Finds pause .letters .sequence Window.elements (.ofList text)
      [[97, 98], [99], [100, 101]] 9
    let comma : Parser Unit Narrow (Trail Narrow) (Window Narrow) := .literal .complete [.ofChar ',']
    let numbers : List (List Narrow) := [[.ofChar '1', .ofChar '2'], [.ofChar '3'], [.ofChar '0', .ofChar '5']]
    let text : Window Narrow := .ofList ([.ofChar ','].intercalate numbers)
    Readable pause .letters Window.elements [44, 32] [word [97, 98], word [99]] (word [100, 101]) ∧
      found [97, 98, 44, 32, 99, 44, 32, 100, 101] ∧
      found [97, 98, 44, 32, 99, 44, 32, 100, 101, 44, 32] ∧
      (numbers ≠ [] ∧ ∀ w ∈ numbers, w ≠ [] ∧ ∀ c ∈ w, Parser.isDigit c = true) ∧
      Finds comma (.digits 1) .sequence Window.elements text numbers text.length := by
  intro pause word found comma numbers text
  have hreads {w behind : List UInt8} (hne : w ≠ []) (hw : w.all Parser.isLetter = true)
      (hbehind : ∀ c ∈ behind.head?, Parser.isLetter c = false) :
      (Parser.letters : Parser Unit UInt8 (Trail UInt8) (Window UInt8)).Reads Window.elements w behind w :=
    Parser.reads_takeWhile .alpha (List.all_eq_true.mp hw) (List.length_pos_iff.mpr hne) hbehind
  have hgap (behind : List UInt8) : ∀ c ∈ ([44, 32] ++ behind).head?, Parser.isLetter c = false := by
    intro c hc
    obtain rfl : 44 = c := by simpa using hc
    rfl
  have hreadable : Readable pause .letters Window.elements [44, 32] [word [97, 98], word [99]]
      (word [100, 101]) :=
    { gap_ne_nil := by decide
      gap_skipped := Parser.skips_literal _ _
      gap_missing := Parser.errsOn_literal (by decide)
      read_front := by
        intro e he behind
        rcases List.mem_pair.mp he with rfl | rfl
        · exact hreads (by decide) (by decide) (hgap behind)
        · exact hreads (by decide) (by decide) (hgap behind)
      read_last := hreads (by decide) (by decide) (by simp) }
  have hnumbers : numbers ≠ [] ∧ ∀ w ∈ numbers, w ≠ [] ∧ ∀ c ∈ w, Parser.isDigit c = true := by decide
  have h := lists_read_back .sequence pause .letters Window.elements [44, 32] [word [97, 98], word [99]]
    (word [100, 101])
  refine ⟨hreadable, (h.1 hreadable).1 _ rfl, (h.1 hreadable).2 (fun behind => ?_) ?_ _ rfl, hnumbers,
    (h.2 .sequence numbers hnumbers.1 hnumbers.2).1 text rfl⟩
  · exact hreads (by decide) (by decide) (hgap behind)
  · exact Parser.errsOn_takeWhile .alpha (by simp) Nat.one_pos

end Separated

end Reprise
