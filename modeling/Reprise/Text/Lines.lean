import Reprise.Source.Element
import Reprise.Parser

/-!
# Line by line

Programs that answer each line of a text on its own. A line ends at a line break, and what follows
the last line break is a line only if it is not empty.
-/

namespace Reprise

def lineBreak : Narrow := .ofChar '\n'

/-- The lines of a text, without their line breaks. -/
def linesOf : List Narrow → List (List Narrow)
  | [] => []
  | c :: cs =>
    if c = lineBreak then [] :: linesOf cs
    else
      match linesOf cs with
      | [] => [[c]]
      | line :: lines => (c :: line) :: lines

/-- The answers to all lines, in order. -/
def answerLines (answer : List Narrow → Run Unit String) (text : List Narrow) :
    Except Stop String :=
  match (linesOf text).mapM answer () with
  | .ok answers _ => .ok (String.join answers)
  | .error stop _ => .error stop

end Reprise
