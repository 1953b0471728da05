import Mathlib.Data.Set.Finite.Lattice
import Reprise.Proofs.GrammarLink

/-!
# Complete versions

A grammar whose leaves wait for more input has a complete version, in which the same leaves take the end
of the input for the end of all input. The two differ only where the first waits.
-/

namespace Reprise

variable {τ ε : Type}

namespace Grammar

/-- The complete version of a leaf. Rules may be called something else in it. -/
def completeLeaf (rename : String → String) : Grammar τ → Grammar τ
  | tag _ pattern => tag .complete pattern
  | uint _ width order => uint .complete width order
  | ref name => ref (rename name)
  | g => g

/-- The complete version of a grammar. Bodies of length-prefixed values stay as they are. -/
def completed (rename : String → String) : Grammar τ → Grammar τ :=
  rebuild fun
    | lengthValue _ p, lengthValue len _ => lengthValue len p
    | _, g => g.completeLeaf rename

theorem completed_lengthValue (rename : String → String) (len p : Grammar τ) :
    (lengthValue len p).completed rename = lengthValue (len.completed rename) p := rfl

theorem completed_eq (rename : String → String) {g : Grammar τ} (h : ∀ len p, g ≠ lengthValue len p) :
    g.completed rename = g.graft (completeLeaf rename) (completed rename) := by
  cases g with
  | lengthValue len p => exact absurd rfl (h len p)
  | _ => rfl

theorem mentions_finite (g : Grammar τ) : {name | g.Mentions name}.Finite := by
  induction g using tree_induction with
  | h g ih =>
    have hself : {name | ref name = g}.Subsingleton := fun _ ha _ hb => ref.inj (ha.trans hb.symm)
    refine (hself.finite.union (g.children.finite_toSet.biUnion ih)).subset ?_
    intro name hname
    cases hname with
    | here => exact .inl rfl
    | under hp h => exact .inr (Set.mem_biUnion hp h)

end Grammar

namespace Bindings

variable (bindings : Bindings τ)

/-- The names that are bound, or that a grammar or a bound grammar refers to. -/
def Uses (g : Grammar τ) (name : String) : Prop :=
  g.Mentions name ∨ ∃ b ∈ bindings, name = b.1 ∨ b.2.Mentions name

/-- A mark that sets names apart from all that are used. -/
def Unused (g : Grammar τ) (mark : String) : Prop := ∀ name, ¬ bindings.Uses g (mark ++ name)

/-- What the complete version of a rule is called. -/
def marked (mark name : String) : String :=
  if (bindings.lookup name).isSome then mark ++ name else name

/-- Bindings, and the complete versions of all rules. The rules themselves are still there for the bodies
of length-prefixed values. -/
def completed (mark : String) : Bindings τ :=
  bindings.map (fun b => (mark ++ b.1, b.2.completed (bindings.marked mark))) ++ bindings

variable {bindings} {g : Grammar τ} {mark : String}

theorem exists_unused (bindings : Bindings τ) (g : Grammar τ) : ∃ mark, bindings.Unused g mark := by
  have hbound (b : String × Grammar τ) : {name | name = b.1 ∨ b.2.Mentions name}.Finite :=
    (Set.finite_singleton b.1).union b.2.mentions_finite
  have hused : {name | bindings.Uses g name}.Finite := by
    refine (g.mentions_finite.union (bindings.finite_toSet.biUnion fun b _ => hbound b)).subset ?_
    rintro name (h | ⟨b, hb, h⟩)
    · exact .inl h
    · exact .inr (Set.mem_biUnion hb h)
  -- a mark longer than all used names
  obtain ⟨longest, hlongest⟩ := (hused.image String.length).bddAbove
  refine ⟨.ofList (List.replicate (longest + 1) '*'), fun name hname => ?_⟩
  have hle := hlongest (Set.mem_image_of_mem String.length hname)
  rw [String.length_append, String.length_ofList, List.length_replicate] at hle
  omega

theorem lookup_completed_of_uses (h : bindings.Unused g mark) {name : String}
    (hname : bindings.Uses g name) : (bindings.completed mark).lookup name = bindings.lookup name := by
  unfold completed
  rw [List.lookup_append, List.lookup_eq_none_iff.mpr, Option.none_or]
  intro b hb
  obtain ⟨b, -, rfl⟩ := List.mem_map.mp hb
  refine bne_iff_ne.mpr ?_
  rintro rfl
  exact h b.1 hname

theorem lookup_completed_marked {name : String} {r : Grammar τ} (hr : bindings.lookup name = some r) :
    (bindings.completed mark).lookup (mark ++ name) = some (r.completed (bindings.marked mark)) := by
  have hmark : Function.Injective (mark ++ ·) := fun _ _ => (String.append_right_inj mark).mp
  unfold completed
  rw [List.lookup_append, lookup_map_of_injective hmark, hr]
  rfl

theorem Uses.of_bound {name n : String} {r : Grammar τ} (hr : bindings.lookup name = some r)
    (h : r.Mentions n) : bindings.Uses g n := .inr ⟨_, lookup_mem hr, .inr h⟩

end Bindings

/-- A session with complete versions of its rules. -/
def Session.completed (mark : String) (s : Session τ) : Session τ :=
  { s with bindings := s.bindings.completed mark }

variable [Payload τ ε]

/-- What a parser answers that may wait, and what its complete version answers. Where the first waits, the
second has an error at its input. -/
inductive Undecided {σ α : Type} (kind : ErrorKind) (x : Window τ) (s : σ) :
    EStateM.Result Stop σ (Outcome τ ε α) → EStateM.Result Stop σ (Outcome τ ε α) → Prop where
  | waits (n) : Undecided kind x s (.ok (.signal (.incomplete n)) s) (.ok (.errorAt x kind) s)
  | decides {o} : (∀ n, o ≠ .signal (.incomplete n)) → Undecided kind x s (.ok o s) (.ok o s)

namespace Undecided

variable {σ α β ρ : Type} {kind : ErrorKind} {x : Window τ} {s : σ}

theorem error_of_incomplete {r' : EStateM.Result Stop σ (Outcome τ ε α)} {n : Needed} {t : σ}
    (h : Undecided kind x s (.ok (.signal (.incomplete n)) t) r') : r' = .ok (.errorAt x kind) t := by
  cases h with
  | waits => rfl
  | decides ho => exact absurd rfl (ho n)

theorem map {p p' : Parser σ τ ε α} (f : α → β) (h : Undecided kind x s (p x s) (p' x s)) :
    Undecided kind x s (p.map f x s) (p'.map f x s) := by
  unfold Parser.map
  generalize hr : p x s = r at h
  generalize hr' : p' x s = r' at h
  cases h with
  | waits n =>
    rw [Run.bind_of_ok hr, Run.bind_of_ok hr']
    exact .waits n
  | @decides o ho =>
    rw [Run.bind_of_ok hr, Run.bind_of_ok hr']
    refine .decides fun n hn => ?_
    cases o with
    | success v rest => cases hn
    | signal g =>
      obtain rfl := Outcome.signal.inj hn
      exact ho n rfl

theorem tag (same : τ → ρ → Bool) (pattern : List ρ) :
    Undecided .tag x s (Parser.tag same .streaming pattern x s)
      (Parser.tag same .complete pattern x s : EStateM.Result Stop σ (Outcome τ ε (Window τ))) := by
  rw [Parser.tag_eq, Parser.tag_eq]
  split
  · split
    · exact .waits _
    · exact .decides nofun
  · exact .decides nofun

theorem uint [Element τ] (width : Width) (order : ByteOrder) :
    Undecided .eof x s (Parser.uint .streaming width order x s)
      (Parser.uint .complete width order x s : EStateM.Result Stop σ (Outcome τ ε Nat)) := by
  rw [Parser.uint_eq, Parser.uint_eq]
  split
  · exact .waits _
  · exact .decides nofun

variable [Element τ] (rule : String → Rule τ ε) (x : Window τ) (s : RunState τ ε)

theorem tag_grammar (pattern : Pattern τ) :
    Undecided .tag x s ((Grammar.tag .streaming pattern).parser rule x s)
      ((Grammar.tag .complete pattern).parser rule x s) := by
  cases pattern with
  | own es => exact map Value.slice (tag _ es)
  | foreign vs => exact map Value.slice (tag _ vs)

theorem uint_grammar (width : Width) (order : ByteOrder) :
    Undecided .eof x s ((Grammar.uint .streaming width order).parser rule x s)
      ((Grammar.uint .complete width order).parser rule x s) :=
  map Value.num (uint width order)

end Undecided

namespace Link

/-- The link between runs over the same input, where nothing is asked for once the first one waits. -/
abbrev deciding : Link (RunState τ ε) (RunState τ ε) τ τ ε ε :=
  same.demanding (fun _ => none) nofun

theorem Related.deciding {p p' : Rule τ ε} (h : same.Related Eq p p') : deciding.Related Eq p p' :=
  h.demanding (fun _ => none) (fun hn => nomatch hn) fun hn => nomatch hn

/-- A parser and its complete version, if the latter is related to itself. -/
theorem related_undecided {kind : ErrorKind} {p p' p'' : Rule τ ε}
    (h : ∀ x s, Undecided kind x s (p x s) (p' x s)) (hp : same.Related Eq p' p'') :
    deciding.Related Eq p p'' := by
  intro x x' s s' hx hs
  have hundecided := h x s
  have hagree := hp.deciding x x' s s' hx hs
  generalize p x s = r at hundecided ⊢
  generalize p' x s = r' at hundecided hagree
  cases hundecided with
  | waits n => exact .incomplete fun _ hn => nomatch hn
  | decides ho => exact hagree

variable [Element τ] {rule rule' : String → Rule τ ε} {rename : String → String}

theorem related_completeLeaf (g : Grammar τ) (hleaf : g.children = [])
    (hrule : ∀ name, g = .ref name → deciding.Related Eq (rule name) (rule' (rename name))) :
    deciding.Related Eq (g.parser rule) ((g.completeLeaf rename).parser rule') := by
  have hsame (g : Grammar τ) (hleaf : g.children = []) (hg : ∀ name, g = .ref name → False) :
      same.Related Eq (g.parser rule) (g.parser rule') :=
    related_leaf (fun _ => True) g hleaf (.inl rfl) fun name h => (hg name h).elim
  cases g with
  | tag mode pattern =>
    have hcomplete := hsame (.tag .complete pattern) rfl fun _ h => nomatch h
    cases mode with
    | streaming => exact related_undecided (fun x s => .tag_grammar rule x s pattern) hcomplete
    | complete => exact hcomplete.deciding
  | uint mode width order =>
    have hcomplete := hsame (.uint .complete width order) rfl fun _ h => nomatch h
    cases mode with
    | streaming => exact related_undecided (fun x s => .uint_grammar rule x s width order) hcomplete
    | complete => exact hcomplete.deciding
  | ref name => exact hrule name rfl
  | _ => exact (hsame _ hleaf fun _ h => nomatch h).deciding

theorem related_completed (g : Grammar τ)
    (hrule : ∀ name, g.Mentions name → deciding.Related Eq (rule name) (rule' (rename name)))
    (hbody : ∀ name, g.Mentions name → same.Related Eq (rule name) (rule' name)) :
    deciding.Related Eq (g.parser rule) ((g.completed rename).parser rule') := by
  induction g using Grammar.tree_induction with
  | h g ih =>
    have hL : (deciding (τ := τ) (ε := ε)).Grammatical (.identity τ) :=
      grammatical_ofGrammars.demanding (fun _ => none) fun hn => nomatch hn
    have hchild : ∀ p ∈ g.children,
        deciding.Related Eq (p.parser rule) ((p.completed rename).parser rule') := fun p hp =>
      ih p hp (fun name h => hrule name (.under hp h)) fun name h => hbody name (.under hp h)
    by_cases hg : ∃ len p, g = .lengthValue len p
    · obtain ⟨len, p, rfl⟩ := hg
      have hlen := hchild len (.head _)
      rw [← Translation.same_identity] at hlen
      have hp : same.Related Eq (p.parser rule) (p.parser rule') :=
        related_grammar_same p fun name h => hbody name (.under (.tail _ (.head _)) h)
      rw [Grammar.completed_lengthValue]
      exact related_lengthValue (related_number hlen) (bodies_demanding Extending.id Extending.id
        (fun _ => none) (fun hn => nomatch hn) hp)
    · rw [Grammar.completed_eq rename fun len p h => hg ⟨len, p, h⟩]
      -- nodes are related for translated values, of which equal ones are a case
      rw [← Translation.same_identity] at *
      refine hL.related_graft (Grammar.completeLeaf rename) (Grammar.completed rename) g ?_ ?_ ?_ ?_
      · intro hleaf
        rw [Translation.same_identity] at *
        exact related_completeLeaf g hleaf fun name h => hrule name (h ▸ .here _)
      · exact fun len p h => absurd ⟨len, p, h⟩ hg
      · exact fun _ _ => .inl rfl
      · exact fun p hp => hchild p (Grammar.mem_children_of_direct hp)

variable {bindings : Bindings τ} {g : Grammar τ} {mark : String}

theorem related_used_rule (h : bindings.Unused g mark) (depth : Nat) (name : String)
    (hname : bindings.Uses g name) :
    same.Related Eq (bindings.rule depth name : Rule τ ε) ((bindings.completed mark).rule depth name) :=
  related_named_rules (fun _ hname => Bindings.lookup_completed_of_uses h hname)
    (fun _ _ r _ hsome ih => related_grammar_same r fun n hn => ih n (.of_bound hsome hn)) depth name hname

theorem related_completed_rule (h : bindings.Unused g mark) (depth : Nat) (name : String)
    (hname : bindings.Uses g name) :
    deciding.Related Eq (bindings.rule depth name : Rule τ ε)
      ((bindings.completed mark).rule depth (bindings.marked mark name)) := by
  refine related_rules (N := fun n n' => n' = bindings.marked mark n ∧ bindings.Uses g n) ?_ ?_ depth
    ⟨rfl, hname⟩
  · rintro name _ ⟨rfl, hname⟩ hnone
    have hmarked : bindings.marked mark name = name := by rw [Bindings.marked, hnone]; rfl
    rw [hmarked]
    exact ⟨(Bindings.lookup_completed_of_uses h hname).trans hnone, rfl⟩
  · rintro name _ r depth ⟨rfl, hname⟩ hsome ih
    have hmarked : bindings.marked mark name = mark ++ name := by rw [Bindings.marked, hsome]; rfl
    rw [hmarked]
    exact ⟨_, Bindings.lookup_completed_marked hsome,
      related_completed r (fun _ hn => ih ⟨rfl, .of_bound hsome hn⟩)
        fun n hn => related_used_rule h depth n (.of_bound hsome hn)⟩

end Link

namespace Session

variable [Element τ]

/-- Applies the complete version of a grammar in a session with complete versions of its rules. -/
def runCompleted (s : Session τ) (mark : String) (g : Grammar τ) (x : List τ) :
    Report τ ε × Session τ :=
  (s.completed mark).run (g.completed (s.bindings.marked mark)) x

theorem runCompleted_agrees (s : Session τ) {g : Grammar τ} {mark : String}
    (h : s.bindings.Unused g mark) (x : List τ) :
    (∃ n, (s.run g x : Report τ ε × Session τ).1.outcome = .ok (.signal (.incomplete n))) ∨
      (s.runCompleted mark g x : Report τ ε × Session τ).1.outcome =
          (s.run g x : Report τ ε × Session τ).1.outcome ∧
        (s.runCompleted mark g x : Report τ ε × Session τ).2 =
          (s.run g x : Report τ ε × Session τ).2.completed mark := by
  have hrelated := Link.related_completed (ε := ε) g
    (fun name hname => Link.related_completed_rule h recursionLimit name (.inl hname))
    fun name hname => Link.related_used_rule h recursionLimit name (.inl hname)
  have hagree : Link.deciding.Agree Eq (s.bindings.parser g (.ofList x) s.initial)
      ((s.completed mark).bindings.parser (g.completed (s.bindings.marked mark)) (.ofList x)
        (s.completed mark).initial) :=
    hrelated _ _ _ _ (Window.extend_nil _).symm ⟨rfl, rfl⟩
  unfold runCompleted
  rw [run_eq, run_eq]
  rcases hagree.mapped_or_waits (fun hx => hx.trans (Window.extend_nil _)) id with
    hmapped | ⟨n, t, hwaits⟩
  · obtain ⟨houtcome, hsession⟩ := s.conclude_same (s.bindings.completed mark) hmapped
    refine .inr ⟨houtcome, hsession.trans ?_⟩
    unfold completed
    rw [s.conclude_bindings]
  · rw [hwaits]
    exact .inl ⟨n, rfl⟩

/-- A grammar and its complete version agree wherever the first does not wait, and leave the same buffers
and the same number of started folds behind. There is always a mark that sets the complete versions of
the rules apart. A single leaf that waits has a complete version with an error at its input. -/
theorem completed_agrees (s : Session τ) (g : Grammar τ) :
    (∃ mark, s.bindings.Unused g mark) ∧
    (∀ mark, s.bindings.Unused g mark → ∀ x : List τ,
      (∃ n, (s.run g x : Report τ ε × Session τ).1.outcome = .ok (.signal (.incomplete n))) ∨
        (s.runCompleted mark g x : Report τ ε × Session τ).1.outcome =
            (s.run g x : Report τ ε × Session τ).1.outcome ∧
          (s.runCompleted mark g x : Report τ ε × Session τ).2 =
            (s.run g x : Report τ ε × Session τ).2.completed mark) ∧
    ∀ (rule : String → Rule τ ε) (x : Window τ) (st t : RunState τ ε) (n : Needed),
      (∀ pattern, (Grammar.tag .streaming pattern).parser rule x st = .ok (.signal (.incomplete n)) t →
        (Grammar.tag .complete pattern).parser rule x st = .ok (.errorAt x .tag) t) ∧
      ∀ width order,
        (Grammar.uint .streaming width order).parser rule x st = .ok (.signal (.incomplete n)) t →
        (Grammar.uint .complete width order).parser rule x st = .ok (.errorAt x .eof) t := by
  refine ⟨Bindings.exists_unused s.bindings g, fun mark h x => s.runCompleted_agrees h x,
    fun rule x st t n => ⟨?_, ?_⟩⟩
  · intro pattern hn
    have h := Undecided.tag_grammar rule x st pattern
    rw [hn] at h
    exact h.error_of_incomplete
  · intro width order hn
    have h := Undecided.uint_grammar rule x st width order
    rw [hn] at h
    exact h.error_of_incomplete

/-- A record whose body waits for an end mark in vain, or is skipped. Both versions take the second way. -/
theorem completed_agrees_record :
    let g : Grammar UInt8 := .orElse (.lengthValue (.uint .streaming .w8 .big) (.ref "end")) (.ref "skip")
    let s : Session UInt8 := ⟨[("end", .tag .streaming (.own [0, 255])),
      ("skip", .lengthData (.uint .streaming .w8 .big))], .none, 0⟩
    ∃ mark, s.bindings.Unused g mark ∧
      (s.runCompleted mark g [1, 0, 7] : Report UInt8 (Trail UInt8) × Session UInt8).1.outcome =
        .ok (.success (.slice ⟨1, [0], 1, rfl⟩) ⟨2, [7], 1, rfl⟩) := by
  intro g s
  have h := completed_agrees (ε := Trail UInt8) s g
  obtain ⟨mark, hmark⟩ := h.1
  refine ⟨mark, hmark, ?_⟩
  rcases h.2.1 mark hmark [1, 0, 7] with ⟨n, hn⟩ | hsame
  · cases hn
  · exact hsame.1

end Session

end Reprise
