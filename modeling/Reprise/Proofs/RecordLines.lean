import Reprise.Proofs.HexLines
import Reprise.Proofs.Records

/-!
# Lines of records

A line in hex says which bytes to read, and its records are listed. The digits of a byte are told apart
from what the program takes them for: they are written from numbers, and read back as the same numbers.
-/

namespace Reprise.RecordDump

variable {σ ε : Type}

/-- Two hex digits. -/
structure Token where
  high : Digit
  low : Digit

namespace Token

def byte (t : Token) : UInt8 := (t.high.number * 16 + t.low.number : Nat).toUInt8

def text (t : Token) : List Narrow := [t.high.char, t.low.char]

/-- A byte in small letters. -/
def ofByte (b : UInt8) : Token where
  high := ⟨⟨b.toNat / 16, by have h := b.toNat_lt; omega⟩, false⟩
  low := ⟨⟨b.toNat % 16, by omega⟩, false⟩

@[simp] theorem byte_ofByte (b : UInt8) : (ofByte b).byte = b := by
  simp [byte, ofByte, Nat.div_add_mod']

/-- The digits as one numeral. -/
def numeral (t : Token) : Numeral := ⟨[t.high, t.low], List.cons_ne_nil _ _⟩

theorem byte_numeral (t : Token) : t.numeral.byte = t.byte := by
  apply UInt8.toNat.inj
  have hhigh := t.high.number.isLt
  have hlow := t.low.number.isLt
  simp [Numeral.byte, Numeral.value, numeral, byte, Nat.ofDigits_cons]
  omega

end Token

/-- Tokens with one blank between two of them. -/
def lineOf (ts : List Token) : List Narrow := [blank].intercalate (ts.map Token.text)

/-- The same as numerals. -/
def content : List Token → Content
  | [] => .nothing
  | t :: ts => .numerals t.numeral (ts.map fun t => ⟨0, t.numeral⟩)

theorem text_content (ts : List Token) : (content ts).text = lineOf ts := by
  cases ts with
  | nil => rfl
  | cons t ts =>
    rw [lineOf, List.map_cons, intercalate_cons, List.flatMap_map]
    simp only [content, Content.text, List.flatMap_map]
    rfl

theorem bytes_content (ts : List Token) : (content ts).bytes = ts.map Token.byte := by
  cases ts with
  | nil => rfl
  | cons t ts => simp [content, Content.bytes, Token.byte_numeral]

theorem blank_or_digit_of_mem_lineOf {ts : List Token} {c : Narrow} (h : c ∈ lineOf ts) :
    c = blank ∨ isHexDigit c = true := by
  rw [← text_content] at h
  exact Content.blank_or_digit h

theorem lineBreak_notMem_lineOf (ts : List Token) : lineBreak ∉ lineOf ts := by
  intro h
  rcases blank_or_digit_of_mem_lineOf h with hblank | hdigit
  · exact absurd hblank (by decide)
  · exact absurd hdigit (by decide)

/-- What is read of tokens are the bytes that they stand for, and nothing is left of the line. -/
theorem hexLine_lineOf [Payload Narrow ε] (ts : List Token) (s : σ) :
    ∃ t, (hexLine (.ofList (lineOf ts)) s : EStateM.Result Stop σ (Outcome Narrow ε (Array UInt8))) =
      .ok (.success (ts.map Token.byte).toArray ((Window.ofList (lineOf ts)).drop (lineOf ts).length)) t := by
  rw [← text_content, ← bytes_content]
  cases ts with
  | nil => exact hexLine_nothing (by simp [content, Content.text]) s
  | cons t ts =>
    have hone : ∀ e ∈ ts.map (fun t => Spaced.mk 0 t.numeral), e.more < largestCount := by
      intro e he
      obtain ⟨t', -, rfl⟩ := List.mem_map.mp he
      exact Nat.pos_of_ne_zero (by decide)
    exact hexLine_numerals hone (by simp) (.inl (errsOn_blanks (by simp))) (List.append_nil _).symm s

theorem answer_lineOf (ts : List Token) : answer (lineOf ts) = answerBytes (ts.map Token.byte) := by
  funext s
  obtain ⟨t, hrun⟩ := hexLine_lineOf (ε := Located Narrow) ts s
  rw [answer, Run.bind_of_ok hrun]
  simp [Window.isEmpty]

/-- One line for each record: its number, and no more than 64 bytes of it. -/
def listing (rs : List Record) : String :=
  String.join (rs.zipIdx.map fun (r, i) =>
    "record " ++ toString i ++ ": " ++ (Window.ofList r.bytes).preview 64 ++ "\n")

theorem listRecords_placed (rs : List Record) (i n : Nat) :
    listRecords i (placed n rs) = String.join ((rs.zipIdx i).map fun (r, i) =>
      "record " ++ toString i ++ ": " ++ (Window.ofList r.bytes).preview 64 ++ "\n") := by
  induction rs generalizing i n with
  | nil => rfl
  | cons r rs ih =>
    simp [placed, listRecords, ih, recordPreview]
    rfl

theorem answerBytes_written {bytes : List UInt8} {rs : List Record} (hrs : bytes = written rs)
    (h : bytes.length < UInt64.size) : answerBytes bytes = pure (listing rs) := by
  simp [answerBytes, records_of_written hrs h, listing, listRecords_placed]

theorem answerBytes_endsWithin {bytes : List UInt8} {missing : Nat} (hends : EndsWithin bytes missing)
    (h : bytes.length < UInt64.size) :
    answerBytes bytes = pure ("incomplete: needs " ++ toString missing ++ " more\n") := by
  have hmissing : missing ≠ 0 := by
    obtain ⟨_, _, _, _, _, hpos⟩ := hends
    exact hpos.ne'
  have htext (tail : String) : "incomplete: " ++ ("needs " ++ tail) = "incomplete: needs " ++ tail := by
    rw [← String.append_assoc]
    rfl
  simp [htext, answerBytes, records_of_endsWithin hends h, Outcome.needs, Signal.describe, Needed.describe,
    Needed.isUnknown, hmissing, String.append_assoc]

/-- A line is answered by an output, whatever lines follow it. -/
structure Prints (line : List Narrow) (output : String) : Prop where
  answer_eq : answer line = pure output
  report_eq (text : List Narrow) :
    report (line ++ lineBreak :: text) = (report text).map (output ++ ·)

theorem prints_lineOf {ts : List Token} {output : String}
    (h : answerBytes (ts.map Token.byte) = pure output) : Prints (lineOf ts) output := by
  have hanswer : answer (lineOf ts) = pure output := by rw [answer_lineOf, h]
  exact ⟨hanswer, answerLines_append (lineBreak_notMem_lineOf ts) (congrFun hanswer ())⟩

/-- The bytes of a source that is cut off within a record. -/
theorem endsWithin_take {before after : List Record} {r : Record} {n : Nat}
    (hsize : (written before).length < n) (hlast : n < (written (before ++ [r])).length) :
    EndsWithin ((written (before ++ r :: after)).take n) ((written (before ++ [r])).length - n) := by
  obtain ⟨k, rfl⟩ : ∃ k, n = (written before).length + (k + 1) :=
    ⟨n - (written before).length - 1, by omega⟩
  simp at hlast
  have htake : (written (before ++ r :: after)).take ((written before).length + (k + 1)) =
      written before ++ r.size :: r.bytes.take k := by
    rw [written_append, List.take_length_add_append, written_cons, Record.raw, List.cons_append,
      List.take_succ_cons, List.take_append_of_le_length (by omega)]
  refine ⟨before, r.size, r.bytes.take k, htake, ?_, ?_⟩
  · simp
    omega
  · simp
    omega

/-- The program lists the records that a line holds. Where the line ends within a record, after its length
and before its last byte, it says how many bytes that record misses, and nothing else. -/
theorem prints_records (ts : List Token) (h : ts.length < UInt64.size) :
    (∀ rs, ts.map Token.byte = written rs → Prints (lineOf ts) (listing rs)) ∧
    ∀ before r after n, (written before).length < n → n < (written (before ++ [r])).length →
      ts.map Token.byte = (written (before ++ r :: after)).take n →
      Prints (lineOf ts)
        ("incomplete: needs " ++ toString ((written (before ++ [r])).length - n) ++ " more\n") := by
  have hlarge : (ts.map Token.byte).length < UInt64.size := by rwa [List.length_map]
  exact ⟨fun rs hrs => prints_lineOf (answerBytes_written hrs hlarge),
    fun before r after n hsize hlast hbytes =>
      prints_lineOf (answerBytes_endsWithin (hbytes ▸ endsWithin_take hsize hlast) hlarge)⟩

/-- Three records in small and capital letters, and a line that ends before the last byte of a record. -/
theorem prints_records_three :
    let records : List Record := [⟨[0xab, 0xcd], by decide⟩, ⟨[], by decide⟩, ⟨[0xff], by decide⟩]
    let whole : List Token :=
      [.ofByte 2, ⟨⟨10, true⟩, ⟨11, true⟩⟩, .ofByte 0xcd, .ofByte 0, .ofByte 1, .ofByte 0xff]
    whole.map Token.byte = written records ∧
      lineOf whole = Narrow.ofString "02 AB cd 00 01 ff" ∧
      answer (lineOf whole) () = .ok "record 0: [ab cd]$\nrecord 1: []$\nrecord 2: [ff]$\n" () ∧
      report (lineOf (whole.take 2) ++ lineBreak :: Narrow.ofString "00") =
        .ok "incomplete: needs 1 more\nrecord 0: []$\n" := by
  intro records whole
  have hbytes : whole.map Token.byte = written records := by decide
  have hlisting : listing records = "record 0: [ab cd]$\nrecord 1: []$\nrecord 2: [ff]$\n" := by
    decide +kernel
  have hother : report (Narrow.ofString "00") = .ok "record 0: []$\n" := by decide +kernel
  obtain ⟨hwhole, -⟩ := prints_records whole (by decide)
  obtain ⟨-, hcut⟩ := prints_records (whole.take 2) (by decide)
  have hprints := hcut [] ⟨[0xab, 0xcd], by decide⟩ [⟨[], by decide⟩, ⟨[0xff], by decide⟩] 2 (by decide)
    (by decide) (by decide)
  refine ⟨hbytes, by decide, ?_, ?_⟩
  · rw [(hwhole records hbytes).answer_eq, hlisting]
    rfl
  · rw [hprints.report_eq, hother]
    decide +kernel

end Reprise.RecordDump
