import Mathlib.Data.List.Induction
import Mathlib.Data.Nat.Digits.Defs
import Mathlib.Data.Nat.Find
import Reprise.Proofs.ReadBack
import Reprise.Text.RecordDump

/-!
# Lines of hex

What a line in hex holds is told apart from what the program takes its digits for: numerals are written
with blanks between two of them, and stand for the lowest bytes of their numbers. So much of a line is read
as has this form, and the rest of it is left.
-/

namespace Reprise.RecordDump

variable {σ ε : Type}

/-- A hex digit. Only from ten on it may be a capital letter. -/
structure Digit where
  number : Fin 16
  capital : Bool

namespace Digit

def char (d : Digit) : Narrow :=
  let c := Nat.digitChar d.number
  .ofChar (if d.capital then c.toUpper else c)

theorem isHexDigit_char (d : Digit) : isHexDigit d.char = true := by
  have hall : ∀ n c, isHexDigit (char ⟨n, c⟩) = true := by decide
  exact hall d.number d.capital

theorem digitValue_char (d : Digit) : (digitValue d.char).toNat = d.number := by
  have hall : ∀ n c, (digitValue (char ⟨n, c⟩)).toNat = n := by decide
  exact hall d.number d.capital

/-- There are no hex digits but these. -/
theorem exists_char {c : Narrow} (h : isHexDigit c = true) : ∃ d : Digit, d.char = c := by
  have hall : ∀ b : Fin 256, isHexDigit ⟨⟨⟨b⟩⟩⟩ = true → ∃ n capital, char ⟨n, capital⟩ = ⟨⟨⟨b⟩⟩⟩ := by
    decide +kernel
  obtain ⟨n, capital, hchar⟩ := hall c.byte.toBitVec.toFin h
  exact ⟨⟨n, capital⟩, hchar⟩

theorem char_ne_blank (d : Digit) : d.char ≠ blank := by
  intro h
  have hdigit := d.isHexDigit_char
  rw [h] at hdigit
  cases hdigit

end Digit

/-- A number in hex digits, of any length. -/
structure Numeral where
  digits : List Digit
  digits_ne_nil : digits ≠ []

namespace Numeral

def text (w : Numeral) : List Narrow := w.digits.map Digit.char

/-- The number, with the last digit as the least one. -/
def value (w : Numeral) : Nat := Nat.ofDigits 16 (w.digits.reverse.map fun d => (d.number : Nat))

def byte (w : Numeral) : UInt8 := .ofNat (w.value % 256)

theorem text_ne_nil (w : Numeral) : w.text ≠ [] := by simpa [text] using w.digits_ne_nil

theorem isHexDigit_of_mem {w : Numeral} {c : Narrow} (h : c ∈ w.text) : isHexDigit c = true := by
  obtain ⟨d, -, rfl⟩ := List.mem_map.mp h
  exact d.isHexDigit_char

theorem head_ne_blank (w : Numeral) (behind : List Narrow) : (w.text ++ behind).head? ≠ some blank := by
  rcases w with ⟨ds, hds⟩
  cases ds with
  | nil => exact absurd rfl hds
  | cons d ds => simpa [text] using d.char_ne_blank

/-- A numeral that is longer by a digit. -/
def snoc (w : Numeral) (d : Digit) : Numeral := ⟨w.digits ++ [d], by simp⟩

theorem text_snoc (w : Numeral) (d : Digit) : (w.snoc d).text = w.text ++ [d.char] := by simp [text, snoc]

def ofDigit (d : Digit) : Numeral := ⟨[d], List.cons_ne_nil _ _⟩

theorem text_ofDigit (d : Digit) : (ofDigit d).text = [d.char] := rfl

/-- What exceeds a byte is lost digit by digit, or in the end. -/
theorem toNat_byteOf (ds : List Digit) : (byteOf (ds.map Digit.char)).toNat =
    Nat.ofDigits 16 (ds.reverse.map fun d => (d.number : Nat)) % 256 := by
  induction ds using List.reverseRecOn with
  | nil => rfl
  | append_singleton ds d ih =>
    have hlast : byteOf ((ds ++ [d]).map Digit.char) =
        byteOf (ds.map Digit.char) * 16 + digitValue d.char := by simp [byteOf]
    rw [hlast, UInt8.toNat_add, UInt8.toNat_mul, ih, d.digitValue_char, List.reverse_concat, List.map_cons,
      Nat.ofDigits_cons]
    have h16 : (16 : UInt8).toNat = 16 := rfl
    rw [h16]
    push_cast
    omega

theorem byteOf_text (w : Numeral) : byteOf w.text = w.byte := by
  apply UInt8.toNat.inj
  rw [text, toNat_byteOf, byte, value, UInt8.toNat_ofNat']
  exact (Nat.mod_mod _ _).symm

end Numeral

/-- A numeral behind a blank and `more` others. -/
structure Spaced where
  more : Nat
  numeral : Numeral

namespace Spaced

def gap (e : Spaced) : List Narrow := List.replicate (e.more + 1) blank

def text (e : Spaced) : List Narrow := e.gap ++ e.numeral.text

theorem more_lt_of_mem {e : Spaced} {others : List Spaced} (h : e ∈ others) :
    e.more < (others.flatMap text).length := by
  obtain ⟨before, after, rfl⟩ := List.append_of_mem h
  simp [text, gap]
  omega

end Spaced

/-- A digit stands neither first in numerals behind blanks, nor first in what follows them. -/
theorem head_spaced (others : List Spaced) {left : List Narrow}
    (hleft : ∀ d ∈ left.head?, isHexDigit d = false) :
    ∀ d ∈ (others.flatMap Spaced.text ++ left).head?, isHexDigit d = false := by
  cases others with
  | nil => exact hleft
  | cons e others =>
    intro d hd
    obtain rfl : blank = d := by simpa [Spaced.text, Spaced.gap, List.replicate_succ] using hd
    rfl

/-- What a line holds. -/
inductive Content where
  | nothing
  | numerals (first : Numeral) (others : List Spaced)

namespace Content

def text : Content → List Narrow
  | nothing => []
  | numerals first others => first.text ++ others.flatMap Spaced.text

/-- One byte for each numeral. -/
def bytes : Content → List UInt8
  | nothing => []
  | numerals first others => first.byte :: others.map fun e => e.numeral.byte

theorem blank_or_digit {c : Content} {e : Narrow} (h : e ∈ c.text) : e = blank ∨ isHexDigit e = true := by
  cases c with
  | nothing => cases h
  | numerals first others =>
    rcases List.mem_append.mp h with hfirst | hother
    · exact .inr (Numeral.isHexDigit_of_mem hfirst)
    · obtain ⟨w, -, hw⟩ := List.mem_flatMap.mp hother
      rcases List.mem_append.mp hw with hgap | hdigits
      · exact .inl (List.eq_of_mem_replicate hgap)
      · exact .inr (Numeral.isHexDigit_of_mem hdigits)

/-- A digit behind a content belongs to it. -/
theorem exists_snoc (c : Content) (d : Digit) : ∃ c' : Content, c'.text = c.text ++ [d.char] := by
  cases c with
  | nothing => exact ⟨.numerals (.ofDigit d) [], by simp [text, Numeral.text_ofDigit]⟩
  | numerals first others =>
    rcases List.eq_nil_or_concat' others with rfl | ⟨front, last, rfl⟩
    · exact ⟨.numerals (first.snoc d) [], by simp [text, Numeral.text_snoc]⟩
    · refine ⟨.numerals first (front ++ [⟨last.more, last.numeral.snoc d⟩]), ?_⟩
      simp [text, Spaced.text, Spaced.gap, Numeral.text_snoc]

end Content

/-- The content of the longest part of a line that holds one, from the start of the line. -/
structure Longest (line : List Narrow) (c : Content) : Prop where
  shown : c.text <+: line
  length_le : ∀ c' : Content, c'.text <+: line → c'.text.length ≤ c.text.length

theorem exists_longest (line : List Narrow) : ∃ c, Longest line c := by
  classical
  -- the lengths of the parts from the start of the line that hold a content
  let held (n : Nat) : Prop := ∃ c : Content, c.text <+: line ∧ c.text.length = n
  have hnothing : held 0 := ⟨.nothing, List.nil_prefix, rfl⟩
  obtain ⟨c, hc, hlen⟩ := Nat.findGreatest_spec (Nat.zero_le line.length) hnothing
  refine ⟨c, hc, fun c' hc' => ?_⟩
  rw [hlen]
  exact Nat.le_findGreatest hc'.length_le ⟨c', hc', rfl⟩

theorem Longest.of_whole (c : Content) : Longest c.text c := ⟨List.prefix_rfl, fun _ h => h.length_le⟩

variable {line left : List Narrow} {c : Content}

/-- What is left of a line does not go on with what would belong to its content. -/
theorem Longest.not_longer (h : Longest (c.text ++ left) c) {c' : Content} {part : List Narrow}
    (hpart : part ≠ []) (hc' : c'.text = c.text ++ part) (behind : List Narrow) : left ≠ part ++ behind := by
  rintro rfl
  have hprefix : c'.text <+: c.text ++ (part ++ behind) := ⟨behind, by rw [hc', List.append_assoc]⟩
  have hle := h.length_le c' hprefix
  have hpos := List.length_pos_iff.mpr hpart
  rw [hc', List.length_append] at hle
  omega

theorem Longest.head_left (h : Longest (c.text ++ left) c) : ∀ d ∈ left.head?, isHexDigit d = false := by
  intro e he
  by_contra hdigit
  obtain ⟨d, rfl⟩ := Digit.exists_char (Bool.eq_true_of_not_eq_false hdigit)
  -- with that digit there is a longer content
  obtain ⟨c', hc'⟩ := c.exists_snoc d
  exact h.not_longer (List.cons_ne_nil _ _) hc' _ (List.eq_cons_of_mem_head? he)

/-- Blanks, and what follows them. -/
theorem exists_blanks (text : List Narrow) :
    ∃ n behind, text = List.replicate n blank ++ behind ∧ behind.head? ≠ some blank := by
  induction text with
  | nil => exact ⟨0, [], rfl, by simp⟩
  | cons e text ih =>
    by_cases he : e = blank
    · obtain ⟨n, behind, rfl, hbehind⟩ := ih
      exact ⟨n + 1, behind, by rw [he]; rfl, hbehind⟩
    · exact ⟨0, e :: text, rfl, by simpa using he⟩

section

variable [Payload Narrow ε] {x : Window Narrow} {behind : List Narrow}

theorem blanks_eq (x : Window Narrow) : (blanks x : Run σ (Outcome Narrow ε Nat)) =
    Repetition.many1Count.loop (.literal .complete [blank]) (fun n _ => return n + 1) largestCount 0 0 x := by
  have hinverted : Repetition.many1Count.range.inverted = false := rfl
  have hturns : Repetition.many1Count.counts.turns x.length = largestCount := rfl
  simp only [blanks, Parser.many1Count, Parser.countOver, Parser.collect]
  rw [Repetition.run_eq_loop hinverted, hturns]
  simp only [Container.counter]

/-- From the first blank on, the loop takes all blanks. -/
theorem loop_blanks (i held : Nat) {n turns : Nat} (hn : n ≤ turns) (hi : 0 < n + i)
    (hx : x.elements = List.replicate n blank ++ behind) (hbehind : behind.head? ≠ some blank) :
    (Repetition.many1Count.loop (.literal .complete [blank]) (fun n _ => return n + 1) turns i held x :
      Run σ (Outcome Narrow ε Nat)) = pure (.success (held + n) (x.drop n)) := by
  induction n generalizing i held x turns with
  | zero =>
    rw [Window.drop_zero]
    cases turns with
    | zero => rfl
    | succ turns =>
      have hmissing : ¬ x.elements.head? = some blank := by rwa [hx]
      have hone : 1 ≤ i := by omega
      have henough : Repetition.many1Count.range.contains i = true := by
        simpa [Repetition.many1Count, Repetition.within, Bounds.toRange, Bounds.atLeast, Bounds.contains]
          using hone
      rw [Repetition.loop, Parser.literal_eq, if_neg hmissing, pure_bind]
      simp only [Outcome.errorAt, henough]
      rfl
  | succ n ih =>
    obtain ⟨turns, rfl⟩ := Nat.exists_eq_add_one_of_ne_zero (Nat.ne_of_gt (Nat.zero_lt_of_lt hn))
    obtain ⟨hlt, hnext⟩ := Window.drop_one_of_cons hx
    have hprogress : ((x.drop 1).length == x.length) = false := beq_eq_false_iff_ne.mpr hlt.ne
    have hlargest : 0 < largestCount := by decide
    have hcount : 0 < n + Counts.next i := by
      unfold Counts.next
      split <;> omega
    rw [Repetition.loop, Parser.literal_eq, if_pos (by rw [hx]; rfl), pure_bind]
    simp only [hprogress, Bool.and_false, pure_bind]
    refine (ih _ _ (by omega) hcount hnext).trans ?_
    rw [Window.drop_drop, Nat.add_assoc, Nat.add_comm n 1]

theorem skips_blanks {n : Nat} (hn : n < largestCount) (hbehind : behind.head? ≠ some blank) :
    (blanks : Parser σ Narrow ε Nat).Skips (List.replicate (n + 1) blank) behind := by
  intro x s hx
  have hloop := loop_blanks (σ := σ) (ε := ε) 0 0 hn (by omega) hx hbehind
  rw [← blanks_eq] at hloop
  exact ⟨_, s, by rw [hloop, List.length_replicate]; rfl, rfl⟩

theorem errsOn_blanks (hbehind : behind.head? ≠ some blank) :
    (blanks : Parser σ Narrow ε Nat).ErrsOn behind := by
  intro x s hx
  have hmissing : ¬ x.elements.head? = some blank := by rwa [hx]
  have hturns : largestCount = largestCount - 1 + 1 := rfl
  rw [blanks_eq, hturns, Repetition.loop, Parser.literal_eq, if_neg hmissing, pure_bind]
  exact ⟨_, s, rfl⟩

theorem reads_numeral (w : Numeral) (hbehind : ∀ d ∈ behind.head?, isHexDigit d = false) :
    (hexByte : Parser σ Narrow ε UInt8).Reads id w.text behind w.byte := by
  have hpos := List.length_pos_iff.mpr w.text_ne_nil
  have hdigits : ∀ d ∈ w.text, isHexDigit d = true := fun _ => Numeral.isHexDigit_of_mem
  refine (Parser.reads_takeWhile .tag hdigits hpos hbehind).map fun found hfound => ?_
  rw [hfound]
  exact w.byteOf_text

theorem errsOn_hexByte (hbehind : ∀ d ∈ behind.head?, isHexDigit d = false) :
    (hexByte : Parser σ Narrow ε UInt8).ErrsOn behind :=
  (Parser.errsOn_takeWhile .tag hbehind Nat.one_pos).map _

/-- What is written behind the first numeral is legible, up to what no digit begins. -/
theorem legible_spaced (others : List Spaced) (hmore : ∀ e ∈ others, e.more < largestCount)
    (hleft : ∀ d ∈ left.head?, isHexDigit d = false) :
    Separated.Legible (blanks : Parser σ Narrow ε Nat) hexByte id left
      (others.map fun e => e.numeral.byte) (others.flatMap Spaced.text ++ left) := by
  induction others with
  | nil => exact .none
  | cons e others ih =>
    have hrest := ih fun e' he' => hmore e' (.tail _ he')
    have hskips := skips_blanks (σ := σ) (ε := ε) (hmore e (.head _))
      (e.numeral.head_ne_blank (others.flatMap Spaced.text ++ left))
    have hreads := reads_numeral (σ := σ) (ε := ε) e.numeral (head_spaced others hleft)
    rw [List.flatMap_cons, Spaced.text, Spaced.gap, List.append_assoc, List.append_assoc]
    exact hrest.more (List.cons_ne_nil _ _) hskips hreads

/-- No numeral is read of what the longest content leaves. -/
theorem Longest.ends {first : Numeral} {others : List Spaced}
    (h : Longest ((Content.numerals first others).text ++ left) (.numerals first others))
    (hlarge : left.length < UInt64.size) :
    Separated.Ends (blanks : Parser σ Narrow ε Nat) hexByte left := by
  obtain ⟨n, behind, rfl, hbehind⟩ := exists_blanks left
  cases n with
  | zero => exact .inl (errsOn_blanks hbehind)
  | succ n =>
    have hn : n < largestCount := by
      rw [List.length_append, List.length_replicate] at hlarge
      unfold largestCount
      omega
    refine .inr ⟨_, behind, rfl, List.cons_ne_nil _ _, skips_blanks hn hbehind, errsOn_hexByte ?_⟩
    intro e he
    by_contra hdigit
    obtain ⟨d, rfl⟩ := Digit.exists_char (Bool.eq_true_of_not_eq_false hdigit)
    -- the blanks and that digit would be one more numeral
    have hc' : (Content.numerals first (others ++ [⟨n, .ofDigit d⟩])).text =
        (Content.numerals first others).text ++ (List.replicate (n + 1) blank ++ [d.char]) := by
      simp [Content.text, Spaced.text, Spaced.gap, Numeral.text_ofDigit]
    refine h.not_longer (by simp) hc' behind.tail ?_
    rw [List.append_assoc, List.singleton_append, ← List.eq_cons_of_mem_head? he]

/-- Numerals are read, whatever is left of the line behind them. -/
theorem hexLine_numerals {first : Numeral} {others : List Spaced}
    (hmore : ∀ e ∈ others, e.more < largestCount) (hleft : ∀ d ∈ left.head?, isHexDigit d = false)
    (hends : Separated.Ends (blanks : Parser σ Narrow ε Nat) hexByte left)
    (hline : line = (Content.numerals first others).text ++ left) (s : σ) :
    ∃ t, (hexLine (.ofList line) s : EStateM.Result Stop σ (Outcome Narrow ε (Array UInt8))) =
      .ok (.success (Content.numerals first others).bytes.toArray
        ((Window.ofList line).drop (Content.numerals first others).text.length)) t := by
  have hlegible := legible_spaced (σ := σ) (ε := ε) others hmore hleft
  have hreads := reads_numeral (σ := σ) (ε := ε) first (head_spaced others hleft)
  have hline' : (Window.ofList line).elements = first.text ++ (others.flatMap Spaced.text ++ left) := by
    rw [← List.append_assoc]
    exact hline
  have hlen : first.text.length + ((others.flatMap Spaced.text ++ left).length - left.length) =
      (Content.numerals first others).text.length := by
    rw [Content.text, List.length_append, List.length_append, Nat.add_sub_cancel]
  obtain ⟨as, t, has, -, hrun⟩ := Separated.finds_legible hreads hlegible hends .sequence hline' s
  rw [List.map_id] at has
  subst has
  rw [hlen, Container.insertAll_sequence] at hrun
  exact ⟨t, hrun⟩

/-- Nothing is read where no digit stands. -/
theorem hexLine_nothing (hline : ∀ d ∈ line.head?, isHexDigit d = false) (s : σ) :
    ∃ t, (hexLine (.ofList line) s : EStateM.Result Stop σ (Outcome Narrow ε (Array UInt8))) =
      .ok (.success #[] (.ofList line)) t := by
  obtain ⟨e, t, hfirst⟩ := errsOn_hexByte (ε := ε) hline (.ofList line) s rfl
  exact ⟨t, (Run.bind_of_ok hfirst).trans rfl⟩

theorem hexLine_of_longest (h : Longest line c) (hlarge : line.length < UInt64.size) (s : σ) :
    ∃ t, (hexLine (.ofList line) s : EStateM.Result Stop σ (Outcome Narrow ε (Array UInt8))) =
      .ok (.success c.bytes.toArray ((Window.ofList line).drop c.text.length)) t := by
  obtain ⟨left, rfl⟩ := h.shown
  rw [List.length_append] at hlarge
  cases c with
  | nothing => exact hexLine_nothing h.head_left s
  | numerals first others =>
    refine hexLine_numerals (fun e he => ?_) h.head_left (h.ends (by omega)) rfl s
    have hlt := Spaced.more_lt_of_mem he
    rw [Content.text, List.length_append] at hlarge
    unfold largestCount
    omega

end

/-- Nothing is left behind a content that the line is written for. -/
theorem isEmpty_drop_iff (h : c.text <+: line) :
    ((Window.ofList line).drop c.text.length).isEmpty = true ↔ c.text = line := by
  have hle := h.length_le
  rw [Window.isEmpty, beq_iff_eq, Window.length_drop, Window.length_ofList, Nat.sub_eq_zero_iff_le]
  exact ⟨fun hge => h.eq_of_length (Nat.le_antisymm hle hge), fun heq => heq ▸ Nat.le_refl _⟩

theorem answer_of_longest (h : Longest line c) (hlarge : line.length < UInt64.size) :
    answer line = if c.text = line then answerBytes c.bytes
      else pure ("bad hex at offset " ++ toString c.text.length ++ "\n") := by
  funext s
  obtain ⟨t, hrun⟩ := hexLine_of_longest (ε := Located Narrow) h hlarge s
  have hle := h.shown.length_le
  have hdistance : (Window.ofList line).distance ((Window.ofList line).drop c.text.length) =
      (c.text.length : Int) := by
    simp [Window.distance, hle]
  rw [answer, Run.bind_of_ok hrun]
  by_cases hwhole : c.text = line
  · rw [if_pos hwhole]
    simp only [(isEmpty_drop_iff h.shown).mpr hwhole]
    rfl
  · have hrest := mt (isEmpty_drop_iff h.shown).mp hwhole
    rw [if_neg hwhole]
    simp only [hrest, hdistance]
    rfl

/-- A line in hex, no longer than lengths go, is read up to the end of the longest part of it that is empty or
holds numerals with blanks between two of them. There is one, and its bytes are the value. So the whole line is
read just when it is of that form, and the program has nothing but an offset to say of any other line. -/
theorem hexLine_reads_longest [Payload Narrow ε] (line : List Narrow) (hlarge : line.length < UInt64.size)
    (s : σ) :
    let read (found : Array UInt8) (rest : Window Narrow) : Prop :=
      ∃ t, (hexLine (.ofList line) s : EStateM.Result Stop σ (Outcome Narrow ε (Array UInt8))) =
        .ok (.success found rest) t
    (∃ c, Longest line c) ∧
    (∀ c, Longest line c → read c.bytes.toArray ((Window.ofList line).drop c.text.length) ∧
      answer line = if c.text = line then answerBytes c.bytes
        else pure ("bad hex at offset " ++ toString c.text.length ++ "\n")) ∧
    ∀ found, (∃ rest, read found rest ∧ rest.isEmpty = true) ↔
      ∃ c : Content, c.text = line ∧ found = c.bytes.toArray := by
  intro read
  obtain ⟨c, hc⟩ := exists_longest line
  refine ⟨⟨c, hc⟩, fun c hc => ⟨hexLine_of_longest hc hlarge s, answer_of_longest hc hlarge⟩, ?_⟩
  intro found
  constructor
  · rintro ⟨rest, ⟨t, hrun⟩, hempty⟩
    obtain ⟨u, hrun'⟩ := hexLine_of_longest (ε := ε) hc hlarge s
    cases hrun.symm.trans hrun'
    exact ⟨c, (isEmpty_drop_iff hc.shown).mp hempty, rfl⟩
  · rintro ⟨c, rfl, rfl⟩
    refine ⟨_, hexLine_of_longest (.of_whole c) hlarge s, ?_⟩
    exact (isEmpty_drop_iff List.prefix_rfl).mpr rfl

/-- Three numerals, one of them too large for a byte, and a line whose last blanks are left. -/
theorem hexLine_reads_longest_lines :
    let run (line : List Narrow) := (hexLine (.ofList line) () :
      EStateM.Result Stop Unit (Outcome Narrow (Trail Narrow) (Array UInt8)))
    let whole : List Narrow := Narrow.ofString "1aB  00 7"
    let cut : List Narrow := Narrow.ofString "1F  b0 "
    (whole.length < UInt64.size ∧
      ∃ rest, (∃ t, run whole = .ok (.success #[0xab, 0, 7] rest) t) ∧ rest.isEmpty = true) ∧
    cut.length < UInt64.size ∧
      ∃ c, Longest cut c ∧ c.text = Narrow.ofString "1F  b0" ∧ c.bytes = [0x1f, 0xb0] ∧
        answer cut = pure "bad hex at offset 6\n" := by
  intro run whole cut
  have hwhole : whole.length < UInt64.size := by decide
  have hcut : cut.length < UInt64.size := by decide
  obtain ⟨-, -, hread⟩ := hexLine_reads_longest (ε := Trail Narrow) whole hwhole ()
  obtain ⟨⟨c, hc⟩, hlongest, -⟩ := hexLine_reads_longest (ε := Trail Narrow) cut hcut ()
  obtain ⟨⟨t, hrun⟩, hanswer⟩ := hlongest c hc
  have hvalue : run cut = .ok (.success #[0x1f, 0xb0] ((Window.ofList cut).drop 6)) () := rfl
  obtain ⟨hbytes, hrest⟩ := Outcome.success.inj (EStateM.Result.ok.inj (hvalue.symm.trans hrun)).1
  have hlen : c.text.length = 6 := by
    have hle : c.text.length ≤ 7 := hc.shown.length_le
    have hleft : 7 - 6 = 7 - c.text.length := congrArg Window.length hrest
    omega
  have htext : c.text = cut.take 6 := by rw [List.prefix_iff_eq_take.mp hc.shown, hlen]
  have hother : c.text ≠ cut := by
    rw [htext]
    decide
  let held : Content := .numerals ⟨[⟨1, false⟩, ⟨10, false⟩, ⟨11, true⟩], by decide⟩
    [⟨1, ⟨[⟨0, false⟩, ⟨0, false⟩], by decide⟩⟩, ⟨0, ⟨[⟨7, false⟩], by decide⟩⟩]
  refine ⟨⟨hwhole, (hread _).mpr ⟨held, by decide, by decide⟩⟩, hcut, c, hc, ?_, ?_, ?_⟩
  · rw [htext]
    decide
  · exact congrArg Array.toList hbytes.symm
  · rw [hanswer, if_neg hother, hlen]
    rfl

end Reprise.RecordDump
