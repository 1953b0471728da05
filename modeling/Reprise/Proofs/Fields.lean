import Reprise.Proofs.Entries
import Reprise.Proofs.Lines
import Reprise.Proofs.Separated

/-!
# Fields of a line

The program finds the entries of a line, and answers with their contents. So it reads back the fields that
were written, and of any line it leaves only what its entries are not.
-/

namespace Reprise.CommaSeparated

variable {σ ε : Type} [Payload Narrow ε]

theorem char_eq (c : Narrow) (x : Window Narrow) :
    (char c x : Run σ (Outcome Narrow ε (Window Narrow))) = pure (
      if x.elements.head? = some c then .success (x.take 1) (x.drop 1) else .errorAt x .tag) :=
  Parser.literal_eq c x

theorem char_of_head {c : Narrow} {x : Window Narrow} {cs : List Narrow} (h : x.elements = c :: cs) :
    (char c x : Run σ (Outcome Narrow ε (Window Narrow))) = pure (.success (x.take 1) (x.drop 1)) := by
  rw [char_eq, if_pos (by rw [h, List.head?_cons])]

theorem char_of_ne {c : Narrow} {x : Window Narrow} (h : x.elements.head? ≠ some c) :
    (char c x : Run σ (Outcome Narrow ε (Window Narrow))) = pure (.errorAt x .tag) := by
  rw [char_eq, if_neg h]

/-- The search for a closing quote, where there is one. -/
theorem loop_closing {body rest : List Narrow} (hbody : quote ∉ body) (turns : Nat)
    (held : Array Narrow) (x : Window Narrow) (hx : x.elements = body ++ quote :: rest)
    (hturns : body.length < turns) :
    (Parser.manyTillLoop .sequence .one (char quote) turns held x :
        Run σ (Outcome Narrow ε (Array Narrow × Window Narrow))) =
      pure (.success (held ++ body.toArray, (x.drop body.length).take 1)
        (x.drop (body.length + 1))) := by
  induction body generalizing turns held x with
  | nil =>
    obtain ⟨turns, rfl⟩ := Nat.exists_eq_add_one_of_ne_zero (Nat.ne_of_gt (Nat.zero_lt_of_lt hturns))
    rw [Parser.manyTillLoop, char_of_head hx, pure_bind]
    simp
  | cons c cs ih =>
    obtain ⟨turns, rfl⟩ := Nat.exists_eq_add_one_of_ne_zero (Nat.ne_of_gt (Nat.zero_lt_of_lt hturns))
    rw [List.mem_cons, not_or] at hbody
    rw [List.cons_append] at hx
    have hhead : x.elements.head? ≠ some quote := by simpa [hx] using Ne.symm hbody.1
    obtain ⟨hlt, helements⟩ := Window.drop_one_of_cons hx
    have hprogress : ((x.drop 1).length == x.length) = false := beq_eq_false_iff_ne.mpr hlt.ne
    have hrest := ih hbody.2 turns (held.push c) (x.drop 1) helements
      (Nat.lt_of_succ_lt_succ hturns)
    rw [Parser.manyTillLoop, char_of_ne hhead, pure_bind]
    simp only [Outcome.errorAt, Parser.one_eq, hx, pure_bind, hprogress]
    refine hrest.trans ?_
    rw [Window.drop_drop, Window.drop_drop]
    simp [Nat.add_comm]

/-- The search for a closing quote, where there is none. -/
theorem loop_unclosed (turns : Nat) (held : Array Narrow) (x : Window Narrow)
    (hx : quote ∉ x.elements) : ∃ e, (Parser.manyTillLoop .sequence .one (char quote) turns held x :
      Run σ (Outcome Narrow ε (Array Narrow × Window Narrow))) = pure (.signal (.error e)) := by
  induction turns generalizing held x with
  | zero => exact ⟨_, rfl⟩
  | succ turns ih =>
    have hhead : x.elements.head? ≠ some quote := fun h => hx (List.mem_of_mem_head? h)
    rw [Parser.manyTillLoop, char_of_ne hhead, pure_bind]
    cases helements : x.elements with
    | nil =>
      refine ⟨Payload.append x .manyTill (Payload.ofKind x .eof), ?_⟩
      simp only [Outcome.errorAt, Parser.one_eq, helements, pure_bind]
    | cons c cs =>
      obtain ⟨hlt, hrest⟩ := Window.drop_one_of_cons helements
      have hprogress : ((x.drop 1).length == x.length) = false := beq_eq_false_iff_ne.mpr hlt.ne
      have hcs : quote ∉ (x.drop 1).elements := by
        rw [hrest]
        exact fun h => hx (helements ▸ List.mem_cons_of_mem c h)
      obtain ⟨e, he⟩ := ih (held.push c) (x.drop 1) hcs
      refine ⟨e, ?_⟩
      simp only [Outcome.errorAt, Parser.one_eq, helements, pure_bind, hprogress]
      exact he

theorem quotedBody_of_closed {body rest : List Narrow} (hbody : quote ∉ body) {x : Window Narrow}
    (hx : x.elements = body ++ quote :: rest) :
    (quotedBody x : Run σ (Outcome Narrow ε (List Narrow))) =
      pure (.success body (x.drop (body.length + 1))) := by
  have hlt : body.length < x.length + 1 := by
    rw [x.length_eq, hx, List.length_append]
    omega
  unfold quotedBody Parser.map Parser.manyTill
  rw [loop_closing hbody _ _ x hx hlt, pure_bind]
  simp [Outcome.map, Container.sequence]

theorem quotedBody_of_unclosed {x : Window Narrow} (hx : quote ∉ x.elements) :
    ∃ e, (quotedBody x : Run σ (Outcome Narrow ε (List Narrow))) = pure (.signal (.error e)) := by
  obtain ⟨e, he⟩ := loop_unclosed (σ := σ) (ε := ε) (x.length + 1) #[] x hx
  refine ⟨e, ?_⟩
  unfold quotedBody Parser.map Parser.manyTill
  change (Parser.manyTillLoop .sequence .one (char quote) (x.length + 1) #[] x >>= _) = _
  rw [he, pure_bind]
  rfl

theorem plainField_eq (x : Window Narrow) :
    (plainField x : Run σ (Outcome Narrow ε (List Narrow))) =
      pure (.success (x.elements.takeWhile isPlain)
        (x.drop (x.elements.takeWhile isPlain).length)) := by
  have htake := List.prefix_iff_eq_take.mp (List.takeWhile_prefix (l := x.elements) isPlain)
  unfold plainField
  rw [Parser.takeWhile_eq, pure_bind, if_neg (Nat.not_lt_zero _)]
  simp only [Outcome.getSuccess, Run.demand_ok, pure_bind, Window.elements_take, ← htake]

/-- A field is the content of the entry that stands there. -/
theorem field_eq (x : Window Narrow) :
    (field x : Run σ (Outcome Narrow ε (List Narrow))) =
      pure (.success (firstEntry x.elements).content
        (x.drop (firstEntry x.elements).raw.length)) := by
  have hplain (h : ¬ (x.elements.head? = some quote ∧ quote ∈ x.elements.tail)) :
      (plainField x : Run σ (Outcome Narrow ε (List Narrow))) =
        pure (.success (firstEntry x.elements).content
          (x.drop (firstEntry x.elements).raw.length)) := by
    obtain ⟨hcontent, hquoted⟩ := firstEntry_bare h
    rw [plainField_eq]
    simp [Entry.raw, hquoted, hcontent]
  unfold field
  by_cases hhead : x.elements.head? = some quote
  · obtain ⟨inner, hx⟩ := List.head?_eq_some_iff.mp hhead
    obtain ⟨_, hinner⟩ := Window.drop_one_of_cons hx
    rw [char_of_head hx, pure_bind]
    by_cases hclosed : quote ∈ inner
    · obtain ⟨body, rest, hrest, hbody⟩ := List.eq_append_cons_of_mem hclosed
      have hraw := firstEntry_quoted hbody rest
      rw [← hrest, ← hx] at hraw
      simp only [quotedBody_of_closed hbody (hinner.trans hrest), pure_bind, Window.drop_drop, hraw,
        Entry.raw]
      simp [Nat.add_comm]
    · have hunclosed : quote ∉ (x.drop 1).elements := by rwa [hinner]
      obtain ⟨e, he⟩ := quotedBody_of_unclosed (σ := σ) (ε := ε) hunclosed
      simp only [he, pure_bind]
      -- what the search for the quote took is given back
      exact hplain fun h => hclosed (by simpa [hx] using h.2)
  · rw [char_of_ne hhead, pure_bind]
    exact hplain fun h => hhead h.1

/-- The fields after the first one are the contents of the entries behind commas. -/
theorem loop_eq (turns : Nat) (held : Array (List Narrow)) (x : Window Narrow)
    (hturns : x.length < turns) :
    (Parser.separatedLoop .sequence (char comma) field turns held x :
        Run σ (Outcome Narrow ε (Array (List Narrow)))) =
      pure (.success (held ++ ((moreEntries x.elements).map Entry.content).toArray)
        (x.drop (led (moreEntries x.elements)).length)) := by
  induction turns generalizing held x with
  | zero => cases hturns
  | succ turns ih =>
    rw [Parser.separatedLoop]
    by_cases hhead : x.elements.head? = some comma
    · obtain ⟨inner, hx⟩ := List.head?_eq_some_iff.mp hhead
      obtain ⟨hlt, hinner⟩ := Window.drop_one_of_cons hx
      have hprogress : ((x.drop 1).length == x.length) = false := beq_eq_false_iff_ne.mpr hlt.ne
      -- the field may be empty, but the comma before it is not
      let next := (x.drop 1).drop (firstEntry inner).raw.length
      have hnext : next.length < turns := by
        have hle : next.length ≤ (x.drop 1).length := Nat.sub_le _ _
        omega
      have helements : next.elements = inner.drop (firstEntry inner).raw.length :=
        congrArg (List.drop _) hinner
      have hrest := ih (held.push (firstEntry inner).content) next hnext
      rw [char_of_head hx, pure_bind]
      simp only [hprogress, field_eq, hinner, pure_bind]
      refine hrest.trans ?_
      rw [helements, hx, moreEntries_comma, led_cons, Window.drop_drop, Window.drop_drop]
      simp [Nat.add_comm]
    · rw [char_of_ne hhead, pure_bind, moreEntries_of_head hhead]
      simp [Outcome.errorAt]

/-- What is read of a line: its entries, and behind them what they leave of it. -/
theorem fields_eq (x : Window Narrow) :
    (fields x : Run σ (Outcome Narrow ε (Array (List Narrow)))) =
      pure (.success ((lineEntries x.elements).map Entry.content).toArray
        (x.drop (written (lineEntries x.elements)).length)) := by
  let rest := x.drop (firstEntry x.elements).raw.length
  have hloop := loop_eq (σ := σ) (ε := ε) (rest.length + 1) #[(firstEntry x.elements).content] rest
    (Nat.lt_succ_self _)
  unfold fields Parser.separatedList0
  rw [field_eq, pure_bind]
  refine hloop.trans ?_
  rw [Window.drop_drop]
  simp [lineEntries, written_cons, rest]

/-- What is written for the entries of a line. -/
def listing (entries : List Entry) : String :=
  toString entries.length ++ " fields: [" ++
    "] [".intercalate (entries.map fun e => Narrow.toString e.content) ++ "]\n"

/-- What is written for what the entries of a line leave of it. -/
def leftover (rest : Window Narrow) : String :=
  if rest.isEmpty then "" else "unparsed: " ++ rest.preview Window.defaultPreview ++ "\n"

theorem answer_eq (line : List Narrow) :
    answer line = pure (listing (lineEntries line) ++
      leftover ((Window.ofList line).drop (written (lineEntries line)).length)) := by
  unfold answer leftover
  simp only [fields_eq, pure_bind, Window.elements_ofList, List.map_map, List.size_toArray,
    List.length_map]
  split
  · simp [listing, Function.comp_def]
  · simp only [listing, Function.comp_def, String.append_assoc]

/-- Fields that were written are read back, and nothing is left of the line. -/
theorem fields_written {entries : List Entry} (h : entries ≠ []) :
    (fields (.ofList (written entries)) : Run σ (Outcome Narrow ε (Array (List Narrow)))) =
      pure (.success (entries.map Entry.content).toArray ⟨(written entries).length, [], 0, rfl⟩) := by
  have hrest : (Window.ofList (written entries)).drop (written entries).length =
      ⟨(written entries).length, [], 0, rfl⟩ := by
    apply Window.ext <;> simp
  rw [fields_eq, Window.elements_ofList, lineEntries_written h, hrest]

theorem answer_written {entries : List Entry} (h : entries ≠ []) :
    answer (written entries) = pure (listing entries) := by
  rw [answer_eq, lineEntries_written h]
  simp [leftover, Window.isEmpty]

theorem lineBreak_notMem_raw {e : Entry} (h : lineBreak ∉ e.content) : lineBreak ∉ e.raw := by
  have hquote : lineBreak ≠ quote := by decide
  cases hq : e.quoted <;> simp [Entry.raw, hq, h, hquote]

theorem lineBreak_notMem_led {entries : List Entry} (h : ∀ e ∈ entries, lineBreak ∉ e.content) :
    lineBreak ∉ led entries := by
  intro hmem
  have hcomma : lineBreak ≠ comma := by decide
  obtain ⟨e, he, hraw⟩ := List.mem_flatMap.mp hmem
  exact lineBreak_notMem_raw (h e he) ((List.mem_cons.mp hraw).resolve_left hcomma)

theorem lineBreak_notMem_written {entries : List Entry} (h : ∀ e ∈ entries, lineBreak ∉ e.content) :
    lineBreak ∉ written entries := by
  cases entries with
  | nil => simp [written]
  | cons e es =>
    have hes : ∀ e' ∈ es, lineBreak ∉ e'.content := fun e' he' => h e' (List.mem_cons_of_mem e he')
    rw [written_cons, List.mem_append, not_or]
    exact ⟨lineBreak_notMem_raw (h e List.mem_cons_self), lineBreak_notMem_led hes⟩

/-- The program reads back the fields that were written, in quotes or without: it answers with their
number and contents, and goes on with the next line. -/
theorem reads_written_fields (entries : List Entry) (h : entries ≠ []) :
    (∀ (σ ε : Type) [Payload Narrow ε],
      (fields (.ofList (written entries)) : Run σ (Outcome Narrow ε (Array (List Narrow)))) =
        pure (.success (entries.map Entry.content).toArray
          ⟨(written entries).length, [], 0, rfl⟩)) ∧
    answer (written entries) = pure (listing entries) ∧
    ((∀ e ∈ entries, lineBreak ∉ e.content) → ∀ text,
      report (written entries ++ lineBreak :: text) = (report text).map (listing entries ++ ·)) := by
  refine ⟨fun _ _ _ => fields_written h, answer_written h, fun hbreaks text => ?_⟩
  exact answerLines_append (lineBreak_notMem_written hbreaks) (congrFun (answer_written h) ()) text

/-- A field with a comma in quotes, an empty one, and a bare one before another line. -/
theorem reads_written_fields_three :
    let entries : List Entry := [⟨Narrow.ofString "a,b", true, by decide, nofun⟩,
      ⟨[], false, by decide, by decide⟩, ⟨Narrow.ofString "c", false, by decide, by decide⟩]
    written entries = Narrow.ofString "\"a,b\",,c" ∧
      (fields (ε := Located Narrow) (.ofList (written entries)) () =
        .ok (.success #[Narrow.ofString "a,b", [], Narrow.ofString "c"] ⟨8, [], 0, rfl⟩) ()) ∧
      answer (written entries) () = .ok "3 fields: [a,b] [] [c]\n" () ∧
      report (written entries ++ lineBreak :: Narrow.ofString "d") =
        .ok "3 fields: [a,b] [] [c]\n1 fields: [d]\n" := by
  intro entries
  have hwritten : written entries = Narrow.ofString "\"a,b\",,c" := by decide
  have hlisting : listing entries = "3 fields: [a,b] [] [c]\n" := by decide +kernel
  have hbreaks : ∀ e ∈ entries, lineBreak ∉ e.content := by decide
  have hother : report (Narrow.ofString "d") = .ok "1 fields: [d]\n" := by decide +kernel
  obtain ⟨hfields, hanswer, hreport⟩ := reads_written_fields entries (List.cons_ne_nil _ _)
  refine ⟨hwritten, congrFun (hfields Unit (Located Narrow)) (), ?_, ?_⟩
  · rw [hanswer, hlisting]
    rfl
  · rw [hreport hbreaks, hother, hlisting]
    decide +kernel

/-- Every line is accounted for: entries with a comma between two of them, one at least, and behind them
a rest that no comma begins. Each entry is what the line says first where it stands, in quotes if these are
closed. The fields are the contents of the entries, and never is there a signal. -/
theorem accounts_for_line (line : List Narrow) :
    ∃ (entries : List Entry) (rest : Window Narrow), entries ≠ [] ∧
      line = written entries ++ rest.elements ∧ rest.elements.head? ≠ some comma ∧
      rest = (Window.ofList line).drop (written entries).length ∧
      entries = lineEntries line ∧
      (∀ before e after, entries = before ++ e :: after → e.Leads (line.drop (ahead before).length)) ∧
      (∀ (σ ε : Type) [Payload Narrow ε],
        (fields (.ofList line) : Run σ (Outcome Narrow ε (Array (List Narrow)))) =
          pure (.success (entries.map Entry.content).toArray rest)) ∧
      answer line = pure (listing entries ++ leftover rest) := by
  obtain ⟨happend, hhead⟩ := written_lineEntries_append line
  refine ⟨lineEntries line, (Window.ofList line).drop (written (lineEntries line)).length,
    List.cons_ne_nil _ _, happend.symm, hhead, rfl, rfl, fun _ _ _ => leads_of_lineEntries,
    fun _ _ _ => fields_eq _, answer_eq line⟩

/-- What follows a closing quote is no field. -/
example : answer (Narrow.ofString "\"a\"b,c") () =
    .ok "1 fields: [a]\nunparsed: \"b,c\"$\n" () := by rfl

end Reprise.CommaSeparated
