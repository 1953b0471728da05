import Reprise.Outcome.Diagnostic
import Reprise.Text.Lines
import Reprise.Parser.ManyTill
import Reprise.Source.Preview
import Reprise.Parser.Primitive
import Reprise.Parser.SeparatedList

/-!
# Comma-separated fields

A line holds fields with a comma between two of them. A field may stand in double quotes, and is
then read up to the next double quote; otherwise it ends before a comma or a double quote.
-/

namespace Reprise.CommaSeparated

variable {σ ε : Type} [Payload Narrow ε]

def quote : Narrow := .ofChar '"'

def comma : Narrow := .ofChar ','

def isPlain (c : Narrow) : Bool := c != comma && c != quote

/-- A single character. -/
def char (c : Narrow) : Parser σ Narrow ε (Window Narrow) := .literal .complete [c]

/-- What stands before the closing quote. -/
def quotedBody : Parser σ Narrow ε (List Narrow) :=
  (Parser.manyTill .sequence .one (char quote)).map fun (body, _) => body.toList

/-- A field without quotes. It may be empty, so there always is one. -/
def plainField : Parser σ Narrow ε (List Narrow) := fun x => do
  let (field, rest) ← Run.demand (← Parser.takeWhile (ε := ε) isPlain 0 .tag x).getSuccess
  return .success field.elements rest

/-- A field. Where the closing quote is missing, the opening one does not count. -/
def field : Parser σ Narrow ε (List Narrow) := fun x => do
  match ← char (ε := ε) quote x with
  | .success _ inner =>
    match ← quotedBody (ε := ε) inner with
    | .success body rest => return .success body rest
    | .signal _ => plainField x
  | .signal _ => plainField x

def fields : Parser σ Narrow ε (Array (List Narrow)) :=
  .separatedList0 .sequence (char comma) field

/-- What is written for a line: its fields, and what of it is no field. -/
def answer (line : List Narrow) : Run Unit String := do
  let text := Window.ofList line
  match ← fields (ε := Located Narrow) text with
  | .signal s => return s.describe text ++ "\n"
  | .success vs rest =>
    let listed := "] [".intercalate (vs.toList.map Narrow.toString)
    let found := toString vs.size ++ " fields: [" ++ listed ++ "]\n"
    if rest.isEmpty then return found
    else return found ++ "unparsed: " ++ rest.preview Window.defaultPreview ++ "\n"

/-- The fields of all lines of a text. -/
def report (text : List Narrow) : Except Stop String := answerLines answer text

end Reprise.CommaSeparated
