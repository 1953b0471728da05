import Reprise.Grammar

/-!
# Parts of grammars

What a grammar was made of, read back.
-/

namespace Reprise

/-- The least number of repetitions, where it is written down. -/
def Collecting.least? : Collecting → Option Nat
  | many0 => some 0
  | many1 => some 1
  | manyBetween low _ => some low
  | many _ => none
  | count n => some n

/-- The greatest number of repetitions of a range, unless it goes on without end. -/
def Range.most? (range : Range) : Option Nat :=
  match range.capped with
  | .upTo limit => some limit
  | .endless => none

namespace Grammar

variable {τ : Type}

/-- The parser that another one repeats, wraps or changes. -/
def child? : Grammar τ → Option (Grammar τ)
  | opt p | cut p | boxed p | map _ p | collect _ _ p | many0Count p | many1Count p | fold _ _ _ p
  | manyTill _ _ p | separatedList0 _ _ p | separatedList1 _ _ p | lengthValue _ p
  | lengthCount _ _ p | fill _ _ p | trace _ p => some p
  | _ => none

/-- The pattern of a tag. -/
def pattern? : Grammar τ → Option (List τ)
  | tag _ (.own es) => some es
  | _ => none

/-- The name of a traced parser. -/
def label? : Grammar τ → Option String
  | trace name _ => some name
  | _ => none

def repetition? : Grammar τ → Option Repetition
  | collect times _ _ => some times.repetition
  | fold times _ _ _ => some times.repetition
  | _ => none

def least? : Grammar τ → Option Nat
  | collect times _ _ => times.least?
  | _ => none

def most? (g : Grammar τ) : Option Nat := g.repetition?.bind fun r => r.range.most?

end Grammar

end Reprise
