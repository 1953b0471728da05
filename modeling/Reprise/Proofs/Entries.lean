import Mathlib.Data.List.Infix
import Mathlib.Data.List.TakeWhile
import Reprise.Proofs.Lines
import Reprise.Text.CommaSeparated

/-!
# Entries of a line

What a line says: the entries it begins with, each a field as it stands there, with a comma between two of
them. Entries that were written are found again, and what is found stands in the line.
-/

namespace Reprise.CommaSeparated

/-- A field as it stands in a line: in double quotes, or bare, which a field with a comma can not be. -/
structure Entry where
  content : List Narrow
  quoted : Bool
  quote_notMem : quote ∉ content
  comma_notMem : quoted = false → comma ∉ content

namespace Entry

theorem ext {e e' : Entry} (hc : e.content = e'.content) (hq : e.quoted = e'.quoted) : e = e' := by
  cases e
  cases e'
  simp only at hc hq
  subst hc hq
  rfl

def raw (e : Entry) : List Narrow := if e.quoted then quote :: (e.content ++ [quote]) else e.content

/-- Bare fields are made of plain characters. -/
theorem plain {e : Entry} (h : e.quoted = false) : ∀ c ∈ e.content, isPlain c = true := by
  intro c hc
  have hquote : c ≠ quote := fun heq => e.quote_notMem (heq ▸ hc)
  have hcomma : c ≠ comma := fun heq => e.comma_notMem h (heq ▸ hc)
  simp [isPlain, hquote, hcomma]

end Entry

/-- The entry that some characters begin with. Where no quote closes the field, it is bare. -/
def firstEntry (cs : List Narrow) : Entry :=
  if cs.head? = some quote ∧ quote ∈ cs.tail then
    { content := cs.tail.takeWhile (· != quote)
      quoted := true
      quote_notMem := fun h => by simpa using List.mem_takeWhile_imp h
      comma_notMem := nofun }
  else
    { content := cs.takeWhile isPlain
      quoted := false
      quote_notMem := fun h => by simpa [isPlain] using List.mem_takeWhile_imp h
      comma_notMem := fun _ h => by simpa [isPlain] using List.mem_takeWhile_imp h }

theorem firstEntry_quoted {body : List Narrow} (h : quote ∉ body) (rest : List Narrow) :
    firstEntry (quote :: (body ++ quote :: rest)) = ⟨body, true, h, nofun⟩ := by
  have hbody : ∀ c ∈ body, (c != quote) = true := by
    intro c hc
    simpa using fun heq : c = quote => h (heq ▸ hc)
  unfold firstEntry
  rw [if_pos (by simp)]
  apply Entry.ext
  · simp [List.takeWhile_append_of_pos hbody]
  · rfl

theorem firstEntry_bare {cs : List Narrow} (h : ¬ (cs.head? = some quote ∧ quote ∈ cs.tail)) :
    (firstEntry cs).content = cs.takeWhile isPlain ∧ (firstEntry cs).quoted = false := by
  unfold firstEntry
  rw [if_neg h]
  exact ⟨rfl, rfl⟩

/-- An entry is found where it stands before a comma or at the end. -/
theorem firstEntry_raw_append (e : Entry) {rest : List Narrow} (h : ∀ c ∈ rest.head?, c = comma) :
    firstEntry (e.raw ++ rest) = e := by
  cases hq : e.quoted with
  | true =>
    have hraw : e.raw ++ rest = quote :: (e.content ++ quote :: rest) := by simp [Entry.raw, hq]
    rw [hraw, firstEntry_quoted e.quote_notMem]
    exact Entry.ext rfl hq.symm
  | false =>
    have hraw : e.raw ++ rest = e.content ++ rest := by simp [Entry.raw, hq]
    have hhead : (e.content ++ rest).head? ≠ some quote := by
      cases hc : e.content with
      | nil => exact fun hrest => absurd (h quote hrest) (by decide)
      | cons c cs =>
        have hne : c ≠ quote := fun heq => e.quote_notMem (by simp [hc, heq])
        simpa using hne
    have hrest : ∀ c ∈ rest.head?, isPlain c = false := by
      intro c hc
      obtain rfl := h c hc
      rfl
    obtain ⟨hcontent, hquoted⟩ := firstEntry_bare fun hopen => hhead hopen.1
    rw [hraw]
    apply Entry.ext
    · rw [hcontent, takeWhile_append_of_head (Entry.plain hq) hrest]
    · rw [hquoted, hq]

/-- Nothing is made up: the entry is what stands there. -/
theorem raw_firstEntry_append (cs : List Narrow) :
    (firstEntry cs).raw ++ cs.drop (firstEntry cs).raw.length = cs := by
  suffices h : (firstEntry cs).raw <+: cs from (List.prefix_append_drop h).symm
  by_cases hopen : cs.head? = some quote ∧ quote ∈ cs.tail
  · obtain ⟨inner, rfl⟩ := List.head?_eq_some_iff.mp hopen.1
    obtain ⟨body, rest, hinner, hbody⟩ := List.eq_append_cons_of_mem hopen.2
    rw [List.tail_cons] at hinner
    subst hinner
    rw [firstEntry_quoted hbody]
    exact ⟨rest, by simp [Entry.raw]⟩
  · obtain ⟨hcontent, hquoted⟩ := firstEntry_bare hopen
    simpa [Entry.raw, hquoted, hcontent] using List.takeWhile_prefix isPlain

/-- An entry is what some characters say first: it is quoted wherever a quote there is closed, and a bare one
goes on as long as there are plain characters. -/
structure Entry.Leads (e : Entry) (cs : List Narrow) : Prop where
  stands : e.raw <+: cs
  quoted_iff : e.quoted = true ↔ cs.head? = some quote ∧ quote ∈ cs.tail
  maximal : e.quoted = false → ∀ c ∈ (cs.drop e.raw.length).head?, isPlain c = false

theorem leads_firstEntry (cs : List Narrow) : (firstEntry cs).Leads cs := by
  have hstands : (firstEntry cs).raw <+: cs := ⟨_, raw_firstEntry_append cs⟩
  by_cases hopen : cs.head? = some quote ∧ quote ∈ cs.tail
  · have hquoted : (firstEntry cs).quoted = true := by rw [firstEntry, if_pos hopen]
    exact ⟨hstands, iff_of_true hquoted hopen, fun h => nomatch hquoted.symm.trans h⟩
  · obtain ⟨hcontent, hquoted⟩ := firstEntry_bare hopen
    refine ⟨hstands, iff_of_false (by rw [hquoted]; decide) hopen, fun _ c hc => ?_⟩
    have hraw : (firstEntry cs).raw = cs.takeWhile isPlain := by simp [Entry.raw, hquoted, hcontent]
    have hrest : (cs.takeWhile isPlain ++ cs.dropWhile isPlain).drop (cs.takeWhile isPlain).length =
        cs.dropWhile isPlain := List.drop_left
    rw [List.takeWhile_append_dropWhile, ← hraw] at hrest
    have hhead := List.head?_dropWhile_not isPlain cs
    rw [← hrest, hc] at hhead
    exact hhead

/-- There is one such entry only. -/
theorem Entry.Leads.eq_firstEntry {e : Entry} {cs : List Narrow} (h : e.Leads cs) : e = firstEntry cs := by
  obtain ⟨rest, rfl⟩ := h.stands
  cases hq : e.quoted with
  | true =>
    have hraw : e.raw ++ rest = quote :: (e.content ++ quote :: rest) := by simp [Entry.raw, hq]
    rw [hraw, firstEntry_quoted e.quote_notMem]
    exact Entry.ext rfl hq
  | false =>
    have hraw : e.raw = e.content := by simp [Entry.raw, hq]
    obtain ⟨hcontent, hquoted⟩ := firstEntry_bare fun hopen => nomatch hq.symm.trans (h.quoted_iff.mpr hopen)
    have hrest := h.maximal hq
    rw [List.drop_left] at hrest
    refine Entry.ext ?_ (hq.trans hquoted.symm)
    rw [hcontent, hraw, takeWhile_append_of_head (Entry.plain hq) hrest]

/-- The entries after the first one, each behind a comma. -/
def moreEntries : List Narrow → List Entry
  | [] => []
  | c :: cs =>
    if c = comma then firstEntry cs :: moreEntries (cs.drop (firstEntry cs).raw.length) else []
termination_by cs => cs.length
decreasing_by simp only [List.length_drop, List.length_cons]; omega

def lineEntries (line : List Narrow) : List Entry :=
  firstEntry line :: moreEntries (line.drop (firstEntry line).raw.length)

/-- Entries, each behind a comma. -/
def led (entries : List Entry) : List Narrow := entries.flatMap fun e => comma :: e.raw

/-- Entries with a comma between two of them. -/
def written (entries : List Entry) : List Narrow := [comma].intercalate (entries.map Entry.raw)

@[simp] theorem led_nil : led [] = [] := rfl

@[simp] theorem led_cons (e : Entry) (entries : List Entry) :
    led (e :: entries) = comma :: (e.raw ++ led entries) := rfl

theorem head_led (entries : List Entry) : ∀ c ∈ (led entries).head?, c = comma := by
  cases entries <;> simp

theorem written_cons (e : Entry) (entries : List Entry) :
    written (e :: entries) = e.raw ++ led entries := by
  rw [written, List.map_cons, intercalate_cons, List.flatMap_map]
  rfl

theorem moreEntries_comma (cs : List Narrow) : moreEntries (comma :: cs) =
    firstEntry cs :: moreEntries (cs.drop (firstEntry cs).raw.length) := by
  rw [moreEntries, if_pos rfl]

theorem moreEntries_of_head {cs : List Narrow} (h : cs.head? ≠ some comma) : moreEntries cs = [] := by
  cases cs with
  | nil => rw [moreEntries]
  | cons c cs => rw [moreEntries, if_neg fun hc => h (by rw [hc, List.head?_cons])]

theorem moreEntries_led (entries : List Entry) : moreEntries (led entries) = entries := by
  induction entries with
  | nil => rw [led_nil, moreEntries]
  | cons e entries ih =>
    rw [led_cons, moreEntries_comma, firstEntry_raw_append e (head_led entries), List.drop_left, ih]

/-- Entries that were written are those of the line. -/
theorem lineEntries_written {entries : List Entry} (h : entries ≠ []) :
    lineEntries (written entries) = entries := by
  obtain ⟨e, others, rfl⟩ := List.exists_cons_of_ne_nil h
  unfold lineEntries
  rw [written_cons, firstEntry_raw_append e (head_led others), List.drop_left, moreEntries_led]

/-- What stands ahead of an entry: those before it, with a comma behind each. -/
def ahead (entries : List Entry) : List Narrow := entries.flatMap fun e => e.raw ++ [comma]

theorem leads_of_moreEntries {cs : List Narrow} {before after : List Entry} {e : Entry}
    (h : moreEntries cs = before ++ e :: after) : e.Leads (cs.drop ((ahead before).length + 1)) := by
  induction cs using moreEntries.induct generalizing before with
  | case1 =>
    rw [moreEntries] at h
    simp at h
  | case2 cs ih =>
    rw [moreEntries_comma] at h
    cases before with
    | nil =>
      obtain ⟨rfl, -⟩ := List.cons_eq_cons.mp h
      exact leads_firstEntry cs
    | cons b before =>
      obtain ⟨rfl, hmore⟩ := List.cons_eq_cons.mp h
      have hleads := ih hmore
      rw [List.drop_drop] at hleads
      have hahead : (ahead (firstEntry cs :: before)).length =
          (firstEntry cs).raw.length + ((ahead before).length + 1) := by
        simp only [ahead, List.flatMap_cons, List.length_append, List.length_singleton]
        omega
      rwa [List.drop_succ_cons, hahead]
  | case3 c cs hc =>
    rw [moreEntries, if_neg hc] at h
    simp at h

/-- Every entry of a line is what the line says first where it stands. -/
theorem leads_of_lineEntries {line : List Narrow} {before after : List Entry} {e : Entry}
    (h : lineEntries line = before ++ e :: after) : e.Leads (line.drop (ahead before).length) :=
  leads_of_moreEntries ((moreEntries_comma line).trans h)

theorem led_moreEntries_append (cs : List Narrow) :
    led (moreEntries cs) ++ cs.drop (led (moreEntries cs)).length = cs ∧
      (cs.drop (led (moreEntries cs)).length).head? ≠ some comma := by
  induction hn : cs.length using Nat.strongRecOn generalizing cs with
  | ind n ih =>
    by_cases hhead : cs.head? = some comma
    · obtain ⟨inner, rfl⟩ := List.head?_eq_some_iff.mp hhead
      have hlt : (inner.drop (firstEntry inner).raw.length).length < n := by
        simp only [List.length_drop, ← hn, List.length_cons]
        omega
      obtain ⟨happend, hrest⟩ := ih _ hlt (inner.drop (firstEntry inner).raw.length) rfl
      rw [List.drop_drop] at happend hrest
      rw [moreEntries_comma, led_cons, List.length_cons, List.drop_succ_cons, List.length_append]
      refine ⟨?_, hrest⟩
      rw [List.cons_append, List.append_assoc, happend, raw_firstEntry_append]
    · rw [moreEntries_of_head hhead]
      exact ⟨rfl, hhead⟩

/-- The entries of a line and what they leave of it are all of the line, and no comma begins the rest. -/
theorem written_lineEntries_append (line : List Narrow) :
    written (lineEntries line) ++ line.drop (written (lineEntries line)).length = line ∧
      (line.drop (written (lineEntries line)).length).head? ≠ some comma := by
  obtain ⟨happend, hhead⟩ := led_moreEntries_append (line.drop (firstEntry line).raw.length)
  rw [List.drop_drop] at happend hhead
  unfold lineEntries
  rw [written_cons, List.length_append]
  refine ⟨?_, hhead⟩
  rw [List.append_assoc, happend, raw_firstEntry_append]

end Reprise.CommaSeparated
