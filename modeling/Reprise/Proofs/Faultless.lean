import Reprise.Proofs.CheckedGrammar
import Reprise.Proofs.Fields
import Reprise.Proofs.GrammarLaw

/-!
# Runs without faults

A run of a grammar stops at the limit of recursive rules or at a rule nothing is bound to, and the line
programs never stop. So none of their accesses breaks its precondition.
-/

namespace Reprise

variable {σ τ ε α : Type}

/-- A run that stops does so for an allowed reason. -/
def Answer.StopsFor (allowed : Stop → Prop) : Answer τ ε → Prop
  | .stop why => allowed why
  | _ => True

namespace Law

variable [Payload τ ε]

/-- Applications stop for some reasons only. -/
def stopsFor (allowed : Stop → Prop) : Law σ τ ε where
  Holds _ _ a _ := a.StopsFor allowed
  Shows _ _ := True
  drop _ := trivial
  needs _ := trivial
  seq _ h := h
  absorb _ := trivial
  annotate _ _ := trivial
  refuse _ _ := trivial
  part_success _ _ := trivial
  part_error _ _ := trivial
  part_failure _ _ := trivial
  part_stop _ h := h
  shows_take _ _ := trivial
  shows_seq _ _ := trivial
  shows_part _ := trivial

variable {allowed : Stop → Prop}

theorem obeys_stopsFor_iff {windows : α → List (Window τ)} {p : Parser σ τ ε α} :
    (stopsFor allowed).Obeys windows p ↔ ∀ x s why t, p x s = .error why t → allowed why := by
  constructor
  · intro h x s why t hp
    have hstop := h x s
    rw [hp] at hstop
    exact hstop
  · intro h x s
    cases hp : p x s with
    | error why t => exact h x s why t hp
    | ok o t =>
      cases o with
      | success v rest => exact ⟨trivial, fun _ _ => trivial⟩
      | signal g => trivial

theorem blind_stopsFor : (stopsFor allowed : Law σ τ ε).Blind := fun _ _ h => h

end Law

/-! Grammars. -/

/-- Reasons that lie in the rules: too many of them are active, or one is missing. -/
def Stop.AtRule : Stop → Prop
  | .fault _ => False
  | _ => True

section

variable [Payload τ ε] [Element τ]

/-- Grammars stop where the rules they refer to do. -/
theorem Grammar.obeys_stopsFor {allowed : Stop → Prop} {rule : String → Rule τ ε}
    (hrule : ∀ name, (Law.stopsFor allowed).Obeys Value.windows (rule name)) (g : Grammar τ) :
    (Law.stopsFor allowed).Obeys Value.windows (g.parser rule) := by
  induction g using Grammar.tree_induction with
  | h g ih =>
    refine Law.obeys_node (Law.blind_stopsFor.grammatical fun _ _ => trivial) hrule g ?_ ?_ ih
    · intro p _ x s e t _
      trivial
    · intro kind _ x s
      trivial

theorem Bindings.obeys_stopsFor (bindings : Bindings τ) (depth : Nat) (name : String) :
    (Law.stopsFor Stop.AtRule).Obeys Value.windows (bindings.rule depth name : Rule τ ε) := by
  induction depth generalizing name with
  | zero => exact fun x s => trivial
  | succ depth ih =>
    unfold Bindings.rule
    cases bindings.lookup name with
    | none => exact fun x s => trivial
    | some g => exact g.obeys_stopsFor ih

theorem Bindings.atRule_of_stop (bindings : Bindings τ) (depth : Nat) (g : Grammar τ) {x : Window τ}
    {s t : RunState τ ε} {why : Stop} (h : g.parser (bindings.rule depth) x s = .error why t) :
    why.AtRule :=
  Law.obeys_stopsFor_iff.mp (g.obeys_stopsFor (bindings.obeys_stopsFor depth)) x s why t h

end

/-! Programs. -/

/-- Every application ends with an outcome. -/
def Parser.Total (p : Parser σ τ ε α) : Prop := ∀ x s, ∃ o t, p x s = .ok o t

section

variable [Payload τ ε]

/-- The law of parsers that never stop. -/
abbrev Law.total : Law σ τ ε := stopsFor fun _ => False

theorem Law.obeys_total {windows : α → List (Window τ)} {p : Parser σ τ ε α} :
    Law.total.Obeys windows p ↔ p.Total := by
  rw [Law.obeys_stopsFor_iff]
  constructor
  · intro h x s
    cases hp : p x s with
    | error why t => exact (h x s why t hp).elim
    | ok o t => exact ⟨o, t, rfl⟩
  · intro h x s why t hp
    obtain ⟨o, u, ho⟩ := h x s
    rw [ho] at hp
    cases hp

end

/-- Values that show no windows. -/
theorem Container.shows_nothing {κ : Type} (into : Container α κ) :
    into.Shows (fun _ => ([] : List (Window τ))) fun _ => [] where
  empty := rfl
  room _ := rfl
  insert _ _ := List.nil_subset _

theorem CommaSeparated.exists_answer (line : List Narrow) : ∃ text, answer line () = .ok text () :=
  ⟨_, congrFun (answer_eq line) ()⟩

namespace RecordDump

section

variable [Payload Narrow ε]

theorem total_hexLine : (hexLine : Parser σ Narrow ε _).Total := by
  have hblanks : Law.total.Obeys (fun _ => []) (blanks : Parser σ Narrow ε _) :=
    Law.obeys_countOver (r := .many1Count) (Law.obeys_tag (g := fun w => [w]) fun _ => rfl)
      fun _ _ _ => trivial
  have hbyte : Law.total.Obeys (fun _ => []) (hexByte : Parser σ Narrow ε _) :=
    Law.obeys_map (Law.obeys_takeWhile (g := fun w => [w]) fun _ => rfl) fun _ => List.nil_subset _
  exact Law.obeys_total.mp
    (Law.obeys_separatedList0 hbyte hblanks (Container.shows_nothing _))

end

theorem total_records [Payload UInt8 ε] : (records : Parser σ UInt8 ε _).Total := by
  have hlength : Law.total.Obeys (fun _ => [])
      (Parser.uint .complete .w8 .big : Parser σ UInt8 ε Nat) := Law.obeys_uint fun _ => rfl
  have hrecord : Law.total.Obeys (fun _ => []) (Parser.lengthData
      (.uint .complete .w8 .big) : Parser σ UInt8 ε _) :=
    Law.obeys_lengthData hlength fun _ => List.nil_subset _
  exact Law.obeys_total.mp (Law.obeys_collect (r := .many0) hrecord (Container.shows_nothing _) rfl
    fun _ _ _ => trivial)

theorem exists_answerBytes (bytes : List UInt8) : ∃ text, answerBytes bytes () = .ok text () := by
  obtain ⟨o, t, ho⟩ := total_records (ε := Located UInt8) (Window.ofList bytes) ()
  change ∃ text, (records (Window.ofList bytes) >>= _) () = .ok text ()
  rw [Run.bind_of_ok ho]
  cases o with
  | signal g => exact ⟨_, rfl⟩
  | success found rest => exact ⟨_, rfl⟩

theorem exists_answer (line : List Narrow) : ∃ text, answer line () = .ok text () := by
  obtain ⟨o, t, ho⟩ := total_hexLine (ε := Located Narrow) (Window.ofList line) ()
  change ∃ text, (hexLine (Window.ofList line) >>= _) () = .ok text ()
  rw [Run.bind_of_ok ho]
  cases o with
  | signal g => exact ⟨_, rfl⟩
  | success bytes rest =>
    by_cases hrest : rest.isEmpty = true
    · obtain ⟨text, htext⟩ := exists_answerBytes bytes.toList
      exact ⟨text, (congrFun (if_pos hrest) ()).trans htext⟩
    · exact ⟨_, congrFun (if_neg hrest) ()⟩

end RecordDump

/-- Every access keeps its precondition: in the runs of all grammars, however many rules may be active
at once, in what is written of their answers and logs, and in both programs. -/
theorem checked_accesses_hold :
    (∀ (τ ε : Type) [Payload τ ε] [Element τ] (bindings : Bindings τ) (depth : Nat) (g : Grammar τ)
      (x : Window τ) (s : RunState τ ε),
        g.checked (bindings.checkedRule depth) x s = g.parser (bindings.rule depth) x s ∧
        ∀ f t, g.checked (bindings.checkedRule depth) x s ≠ .error (.fault f) t) ∧
    (∀ (τ ε : Type) [Payload τ ε] [Element τ] [Described τ ε] (x : Window τ) (g : Signal ε)
      (event : Event τ ε), Checked.describe x g = .ok (g.describe x) ∧
        Checked.render event = .ok event.render) ∧
    (∀ line, Checked.answerFields line = CommaSeparated.answer line ∧
      ∃ text, Checked.answerFields line () = .ok text ()) ∧
    (∀ line, Checked.answerRecords line = RecordDump.answer line ∧
      ∃ text, Checked.answerRecords line () = .ok text ()) := by
  refine ⟨?_, ?_, ?_, ?_⟩
  · intro τ ε _ _ bindings depth g x s
    rw [Bindings.checkedRule_eq, Grammar.checked_eq]
    exact ⟨rfl, fun f t h => bindings.atRule_of_stop depth g h⟩
  · intro τ ε _ _ _ x g event
    exact ⟨Checked.describe_eq x g, Checked.render_eq event⟩
  · intro line
    rw [Checked.answerFields_eq]
    exact ⟨rfl, CommaSeparated.exists_answer line⟩
  · intro line
    rw [Checked.answerRecords_eq]
    exact ⟨rfl, RecordDump.exists_answer line⟩

end Reprise
