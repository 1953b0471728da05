import Reprise.Outcome.Diagnostic
import Reprise.Parser.Integer
import Reprise.Parser.LengthPrefixed
import Reprise.Text.Lines
import Reprise.Source.Preview
import Reprise.Parser.SeparatedList

/-!
# Record dump

A line holds bytes in hex, and the bytes are records: each a length of one byte, followed by that
many bytes.
-/

namespace Reprise.RecordDump

variable {σ ε : Type}

def isDecimalDigit (c : Narrow) : Bool := 48 ≤ c.byte && c.byte ≤ 57

def isHexDigit (c : Narrow) : Bool :=
  isDecimalDigit c || (65 ≤ c.byte && c.byte ≤ 70) || (97 ≤ c.byte && c.byte ≤ 102)

/-- The number that a hex digit of either case stands for. -/
def digitValue (c : Narrow) : UInt8 :=
  if isDecimalDigit c then c.byte - 48 else if c.byte < 97 then c.byte - 55 else c.byte - 87

/-- The lowest byte of a number in hex digits. -/
def byteOf (digits : List Narrow) : UInt8 := digits.foldl (fun n c => n * 16 + digitValue c) 0

def blank : Narrow := .ofChar ' '

section

variable [Payload Narrow ε]

def blanks : Parser σ Narrow ε Nat := .many1Count (.literal .complete [blank])

def hexByte : Parser σ Narrow ε UInt8 :=
  (Parser.takeWhile isHexDigit 1 .tag).map fun w => byteOf w.elements

/-- Bytes in hex, with blanks between two of them. -/
def hexLine : Parser σ Narrow ε (Array UInt8) := .separatedList0 .sequence blanks hexByte

end

/-- Records, each after its length. -/
def records [Payload UInt8 ε] : Parser σ UInt8 ε (Array (Window UInt8)) :=
  .many0 .sequence (.lengthData (.uint .complete .w8 .big))

/-- How much of a record is shown. -/
def recordPreview : Nat := 64

/-- One line for each record, numbered from `i`. -/
def listRecords : Nat → List (Window UInt8) → String
  | _, [] => ""
  | i, r :: rs =>
    "record " ++ toString i ++ ": " ++ r.preview recordPreview ++ "\n" ++ listRecords (i + 1) rs

/-- What is written for the bytes of a line. -/
def answerBytes (bytes : List UInt8) : Run Unit String := do
  let source := Window.ofList bytes
  match ← records (ε := Located UInt8) source with
  | .signal s => return s.describe source ++ "\n"
  | .success found _ => return listRecords 0 found.toList

/-- What is written for a line. -/
def answer (line : List Narrow) : Run Unit String := do
  let text := Window.ofList line
  match ← hexLine (ε := Located Narrow) text with
  | .signal s => return "bad hex: " ++ s.describe text ++ "\n"
  | .success bytes rest =>
    if rest.isEmpty then answerBytes bytes.toList
    else return "bad hex at offset " ++ toString (text.distance rest) ++ "\n"

/-- The records of all lines of a text. -/
def report (text : List Narrow) : Except Stop String := answerLines answer text

end Reprise.RecordDump
