import Reprise.Grammar.Session
import Reprise.Proofs.Checked
import Reprise.Text.CommaSeparated
import Reprise.Text.RecordDump

/-!
# Grammars and programs, access by access

What grammars mean and what the two line programs answer, put together from parsers that test and
demand. They are equal to what runs.
-/

namespace Reprise

variable {σ τ ε : Type}

section

variable [Payload τ ε] [Element τ]

namespace Grammar

/-- The parser of a grammar, access by access. -/
def checked (rule : String → Rule τ ε) : Grammar τ → Rule τ ε
  | one => Checked.map .elem Parser.one
  | eof => Checked.map (fun _ => .unit) Parser.eof
  | epsilon => Checked.map (fun _ => .unit) Parser.epsilon
  | tag mode (.own es) => Checked.map .slice (Checked.tag (fun a b => a == b) mode es)
  | tag mode (.foreign vs) => Checked.map .slice (Checked.tag Element.equals mode vs)
  | takeWhile set least kind => Checked.map .slice (Checked.takeWhile set.contains least kind)
  | digits least => Checked.map .slice (Checked.takeWhile Parser.isDigit least .digit)
  | letters => Checked.map .slice (Checked.takeWhile Parser.isLetter 1 .alpha)
  | uint mode width order => Checked.map .num (Checked.uint mode width order)
  | opt p => Checked.map (fun | some v => .given v | none => .missing) (Checked.opt (p.checked rule))
  | cut p => Checked.cut (p.checked rule)
  | boxed p => p.checked rule
  | map f p => Checked.map f.apply (p.checked rule)
  | collect times shape p => shape.use fun into finish =>
    Checked.map finish (Checked.collect times.repetition into (times.held into) (p.checked rule))
  | many0Count p => Checked.map .num (Checked.collect .many0Count .counter 0 (p.checked rule))
  | many1Count p => Checked.map .num (Checked.collect .many1Count .counter 0 (p.checked rule))
  | fold times start step p =>
    Checked.foldOver times.repetition start.run step.apply (p.checked rule)
  | manyTill shape till p => shape.use fun into finish =>
    Checked.map (fun (held, u) => .pair (finish held) u)
      (Checked.manyTill into (p.checked rule) (till.checked rule))
  | separatedList0 shape sep p => shape.use fun into finish =>
    Checked.map finish (Checked.separatedList false into (sep.checked rule) (p.checked rule))
  | separatedList1 shape sep p => shape.use fun into finish =>
    Checked.map finish (Checked.separatedList true into (sep.checked rule) (p.checked rule))
  | lengthData len =>
    Checked.map .slice (Checked.lengthData (Checked.map Value.number (len.checked rule)))
  | lengthValue len p =>
    Checked.lengthValue (Checked.map Value.number (len.checked rule)) (p.checked rule)
  | lengthCount shape len p => shape.use fun into finish =>
    Checked.map finish
      (Checked.lengthCount (Checked.map Value.number (len.checked rule)) into (p.checked rule))
  | fill buffer _ p => fun x => do
    let slots := (← get).buffers.size buffer
    Checked.map (fun _ => .unit) (Checked.fill slots (RunState.write buffer) (p.checked rule)) x
  | trace name p => Checked.traced RunState.note name (p.checked rule)
  | raise kind => fun x => return .errorAt x kind
  | commit kind => fun x => return .failureAt x kind
  | await needed => fun _ => return .needs needed
  | take n => fun x =>
    if x.length < n then return .signal (.incomplete .unknown)
    else Checked.map .slice (Parser.take n) x
  | done => fun x => return .success (.list []) x
  | andThen p rest => Checked.map (fun (v, vs) => .list (v :: FoldStep.items vs))
    (Checked.andThen (p.checked rule) (rest.checked rule))
  | orElse p q => Checked.orElse (p.checked rule) (q.checked rule)
  | ref name => rule name

theorem checked_eq (rule : String → Rule τ ε) (g : Grammar τ) : g.checked rule = g.parser rule := by
  induction g with
  | one | eof | epsilon => simp only [checked, parser, Checked.map_eq]
  | tag mode pattern =>
    cases pattern <;>
      simp only [checked, parser, Checked.map_eq, Checked.tag_eq, Parser.literal, Parser.foreign]
  | takeWhile set least kind | digits least | letters =>
    simp only [checked, parser, Checked.map_eq, Checked.takeWhile_eq, Parser.digits, Parser.letters]
  | uint mode width order => simp only [checked, parser, Checked.map_eq, Checked.uint_eq]
  | opt p ih =>
    have hopt : Checked.opt (p.checked rule) = (p.parser rule).opt := by rw [Checked.opt_eq, ih]
    exact (Checked.map_eq _ _).trans (congrArg (Parser.map _) hopt)
  | cut p ih => simp only [checked, parser, Checked.cut_eq, ih]
  | boxed p ih => simp only [checked, parser, ih]
  | map f p ih => simp only [checked, parser, Checked.map_eq, ih]
  | collect times shape p ih =>
    simp only [checked, parser, Checked.map_eq, Checked.collect_eq, Collecting.parser_eq_collect, ih]
  | many0Count p ih | many1Count p ih =>
    simp only [checked, parser, Checked.map_eq, Checked.collect_eq, ih]
    rfl
  | fold times start step p ih =>
    simp only [checked, parser, Checked.foldOver_eq, Folding.parser_eq_foldOver, ih]
  | manyTill shape till p ihtill ih =>
    simp only [checked, parser, Checked.map_eq, Checked.manyTill_eq, ihtill, ih]
  | separatedList0 shape sep p ihsep ih =>
    simp only [checked, parser, Checked.map_eq, Checked.separatedList_eq_list0, ihsep, ih]
  | separatedList1 shape sep p ihsep ih =>
    simp only [checked, parser, Checked.map_eq, Checked.separatedList_eq_list1, ihsep, ih]
  | lengthData len ih =>
    simp only [checked, parser, Checked.map_eq, Checked.lengthData_eq, lengthOf, ih]
  | lengthValue len p ihlen ih =>
    simp only [checked, parser, Checked.map_eq, Checked.lengthValue_eq, lengthOf, ihlen, ih]
  | lengthCount shape len p ihlen ih =>
    simp only [checked, parser, Checked.map_eq, Checked.lengthCount_eq, lengthOf, ihlen, ih]
  | fill buffer slots p ih =>
    simp only [checked, parser, Checked.map_eq, Checked.fill_eq, ih]
  | trace name p ih => simp only [checked, parser, Checked.traced_eq, ih]
  | raise kind | commit kind | await n | done | ref name => rfl
  | take n => simp only [checked, parser, Checked.map_eq]
  | andThen p rest ih ihrest =>
    simp only [checked, parser, Checked.map_eq, Checked.andThen_eq, ih, ihrest]
  | orElse p q ihp ihq => simp only [checked, parser, Checked.orElse_eq, ihp, ihq]

end Grammar

namespace Bindings

/-- The parser of a rule, access by access. -/
def checkedRule (bindings : Bindings τ) : Nat → String → Rule τ ε
  | 0, _ => fun _ => throw .tooDeep
  | depth + 1, name =>
    match bindings.lookup name with
    | some g => g.checked (bindings.checkedRule depth)
    | none => fun _ => throw (.unbound name)

theorem checkedRule_eq (bindings : Bindings τ) (depth : Nat) :
    (bindings.checkedRule depth : String → Rule τ ε) = bindings.rule depth := by
  induction depth with
  | zero => rfl
  | succ depth ih =>
    funext name
    unfold checkedRule rule
    rw [ih]
    cases bindings.lookup name with
    | none => rfl
    | some g => exact g.checked_eq _

end Bindings

end

namespace Checked

section

variable [Payload Narrow ε]

/-! The program that splits lines into fields. -/

def char (c : Narrow) : Parser σ Narrow ε (Window Narrow) := tag (fun a b => a == b) .complete [c]

theorem char_eq (c : Narrow) : (char c : Parser σ Narrow ε _) = CommaSeparated.char c := tag_eq _ _ _

def quotedBody : Parser σ Narrow ε (List Narrow) :=
  map (fun (body, _) => body.toList) (manyTill .sequence .one (char CommaSeparated.quote))

theorem quotedBody_eq : (quotedBody : Parser σ Narrow ε _) = CommaSeparated.quotedBody := by
  unfold quotedBody CommaSeparated.quotedBody
  rw [map_eq, manyTill_eq, char_eq]

/-- Whether the field is there is not asked. -/
def plainField : Parser σ Narrow ε (List Narrow) := fun x => do
  let plain ← takeWhile (ε := ε) CommaSeparated.isPlain 0 .tag x
  let (field, rest) ← Run.demand plain.getSuccess
  return .success field.elements rest

theorem plainField_eq : (plainField : Parser σ Narrow ε _) = CommaSeparated.plainField := by
  unfold plainField CommaSeparated.plainField
  rw [takeWhile_eq]

def field : Parser σ Narrow ε (List Narrow) := fun x => do
  let opening ← char (ε := ε) CommaSeparated.quote x
  if opening.isSuccess then
    let (_, inner) ← Run.demand opening.getSuccess
    let body ← quotedBody (ε := ε) inner
    if body.isSuccess then
      let (text, rest) ← Run.demand body.getSuccess
      return .success text rest
    else plainField x
  else plainField x

theorem field_eq : (field : Parser σ Narrow ε _) = CommaSeparated.field := by
  funext x
  unfold field CommaSeparated.field
  rw [char_eq, quotedBody_eq, plainField_eq]
  refine bind_congr fun o => ?_
  cases o with
  | signal g => rfl
  | success w inner =>
    change CommaSeparated.quotedBody inner >>= _ = _
    refine bind_congr fun o => ?_
    cases o <;> rfl

def fields : Parser σ Narrow ε (Array (List Narrow)) :=
  separatedList false .sequence (char CommaSeparated.comma) field

theorem fields_eq : (fields : Parser σ Narrow ε _) = CommaSeparated.fields := by
  unfold fields CommaSeparated.fields
  rw [separatedList_eq_list0, char_eq, field_eq]

/-! The program that lists the records of a line. -/

def blanks : Parser σ Narrow ε Nat := collect .many1Count .counter 0 (char RecordDump.blank)

theorem blanks_eq : (blanks : Parser σ Narrow ε _) = RecordDump.blanks := by
  unfold blanks
  rw [collect_eq, char_eq]
  rfl

def byte : Parser σ Narrow ε UInt8 :=
  map (fun w => RecordDump.byteOf w.elements) (takeWhile RecordDump.isHexDigit 1 .tag)

theorem byte_eq : (byte : Parser σ Narrow ε _) = RecordDump.hexByte := by
  unfold byte RecordDump.hexByte
  rw [map_eq, takeWhile_eq]

def bytes : Parser σ Narrow ε (Array UInt8) := separatedList false .sequence blanks byte

theorem bytes_eq : (bytes : Parser σ Narrow ε _) = RecordDump.hexLine := by
  unfold bytes RecordDump.hexLine
  rw [separatedList_eq_list0, blanks_eq, byte_eq]

end

def records [Payload UInt8 ε] : Parser σ UInt8 ε (Array (Window UInt8)) :=
  collect .many0 .sequence Container.sequence.empty (lengthData (uint .complete .w8 .big))

theorem records_eq [Payload UInt8 ε] : (records : Parser σ UInt8 ε _) = RecordDump.records := by
  unfold records
  rw [collect_eq, lengthData_eq, uint_eq]
  rfl

/-- What the first program writes for a line. -/
def answerFields (line : List Narrow) : Run Unit String := do
  let text := Window.ofList line
  let res ← fields (ε := Located Narrow) text
  if !res.isSuccess then
    let g ← Run.demand res.getSignal
    return (← Run.demand (describe text g)) ++ "\n"
  else
    let (vs, rest) ← Run.demand res.getSuccess
    let listed := "] [".intercalate (vs.toList.map Narrow.toString)
    let found := toString vs.size ++ " fields: [" ++ listed ++ "]\n"
    if rest.isEmpty then return found
    else return found ++ "unparsed: " ++ (← Run.demand (preview rest Window.defaultPreview)) ++ "\n"

theorem answerFields_eq (line : List Narrow) : answerFields line = CommaSeparated.answer line := by
  unfold answerFields CommaSeparated.answer
  rw [fields_eq]
  refine bind_congr fun o => ?_
  cases o with
  | signal g =>
    simp only [describe_eq]
    rfl
  | success vs rest =>
    simp only [preview_eq]
    rfl

def listRecords : Nat → List (Window UInt8) → Except Fault String
  | _, [] => return ""
  | i, r :: rs => do
    let shown ← preview r RecordDump.recordPreview
    return "record " ++ toString i ++ ": " ++ shown ++ "\n" ++ (← listRecords (i + 1) rs)

theorem listRecords_eq (i : Nat) (rs : List (Window UInt8)) :
    listRecords i rs = .ok (RecordDump.listRecords i rs) := by
  induction rs generalizing i with
  | nil => rfl
  | cons r rs ih =>
    rw [listRecords, preview_eq, ih]
    rfl

def answerBytes (bytes : List UInt8) : Run Unit String := do
  let source := Window.ofList bytes
  let res ← records (ε := Located UInt8) source
  if !res.isSuccess then
    let g ← Run.demand res.getSignal
    return (← Run.demand (describe source g)) ++ "\n"
  else
    let (found, _) ← Run.demand res.getSuccess
    Run.demand (listRecords 0 found.toList)

theorem answerBytes_eq (bytes : List UInt8) : answerBytes bytes = RecordDump.answerBytes bytes := by
  unfold answerBytes RecordDump.answerBytes
  rw [records_eq]
  refine bind_congr fun o => ?_
  cases o with
  | signal g =>
    simp only [describe_eq]
    rfl
  | success found rest =>
    simp only [listRecords_eq]
    rfl

/-- What the second program writes for a line. -/
def answerRecords (line : List Narrow) : Run Unit String := do
  let text := Window.ofList line
  let res ← bytes (ε := Located Narrow) text
  if !res.isSuccess then
    let g ← Run.demand res.getSignal
    return "bad hex: " ++ (← Run.demand (describe text g)) ++ "\n"
  else
    let (bytes, rest) ← Run.demand res.getSuccess
    if rest.isEmpty then answerBytes bytes.toList
    else return "bad hex at offset " ++ toString (text.distance rest) ++ "\n"

theorem answerRecords_eq (line : List Narrow) : answerRecords line = RecordDump.answer line := by
  unfold answerRecords RecordDump.answer
  rw [bytes_eq]
  refine bind_congr fun o => ?_
  cases o with
  | signal g =>
    simp only [describe_eq]
    rfl
  | success bytes rest =>
    change (if rest.isEmpty = true then answerBytes bytes.toList else _) = _
    rw [answerBytes_eq]

end Checked
end Reprise
