import Reprise.Grammar.Buffers
import Reprise.Parser.Integer
import Reprise.Repetition

/-!
# Grammars

A grammar is a parser written down as data. Rules refer to one another by name, so that a rule may
contain itself, and may be bound anew.
-/

namespace Reprise

/-- A fixed pattern: elements of the source's own kind, or integers that stand for elements of
another kind. -/
inductive Pattern (τ : Type) where
  | own (es : List τ)
  | foreign (values : List Int)

/-- The elements to take, or those to leave. -/
inductive ElementSet (τ : Type) where
  | among (es : List τ)
  | except (es : List τ)

def ElementSet.contains {τ : Type} [Element τ] : ElementSet τ → τ → Bool
  | among es, e => es.contains e
  | except es, e => !es.contains e

/-- What becomes of the values of a repetition. -/
inductive Shape where
  | list
  | set
  | multiset
  | dropped
  | text
  deriving DecidableEq, Repr

/-- How often a collecting repetition goes on. -/
inductive Collecting where
  | many0
  | many1
  | manyBetween (low high : Nat)
  | many (range : Range)
  | count (n : Nat)

/-- How often a fold goes on. -/
inductive Folding where
  | many0
  | many1
  | manyBetween (low high : Nat)
  | within (range : Range)

/-- The repetition that collects. -/
def Collecting.repetition : Collecting → Repetition
  | many0 => .many0
  | many1 => .many1
  | manyBetween low high => .manyBetween low high
  | many range => .many range
  | count n => .count n

/-- The repetition that folds. -/
def Folding.repetition : Folding → Repetition
  | many0 => .foldMany0
  | many1 => .foldMany1
  | manyBetween low high => .foldManyBetween low high
  | within range => .fold range

inductive Grammar (τ : Type) where
  | one
  | eof
  | epsilon
  | tag (mode : Mode) (pattern : Pattern τ)
  | takeWhile (set : ElementSet τ) (least : Nat) (kind : ErrorKind)
  | digits (least : Nat)
  | letters
  | uint (mode : Mode) (width : Width) (order : ByteOrder)
  | opt (p : Grammar τ)
  | cut (p : Grammar τ)
  | boxed (p : Grammar τ)
  | map (f : Projection) (p : Grammar τ)
  | collect (times : Collecting) (shape : Shape) (p : Grammar τ)
  | many0Count (p : Grammar τ)
  | many1Count (p : Grammar τ)
  | fold (times : Folding) (start : FoldStart) (step : FoldStep) (p : Grammar τ)
  | manyTill (shape : Shape) (till p : Grammar τ)
  | separatedList0 (shape : Shape) (sep p : Grammar τ)
  | separatedList1 (shape : Shape) (sep p : Grammar τ)
  | lengthData (len : Grammar τ)
  | lengthValue (len p : Grammar τ)
  | lengthCount (shape : Shape) (len p : Grammar τ)
  | fill (buffer : String) (slots : Nat) (p : Grammar τ)
  | trace (name : String) (p : Grammar τ)
  | raise (kind : ErrorKind)
  | commit (kind : ErrorKind)
  | await (needed : Nat)
  | take (n : Nat)
  | done
  | andThen (p rest : Grammar τ)
  | orElse (p q : Grammar τ)
  | ref (name : String)

namespace Grammar

variable {τ : Type}

/-- One after the other. The value is the list of the values. -/
def sequence (ps : List (Grammar τ)) : Grammar τ := ps.foldr andThen done

/-- The first of several that does not err, or the last. -/
def choice (p : Grammar τ) : List (Grammar τ) → Grammar τ
  | [] => p
  | q :: qs => orElse p (choice q qs)

/-- Makes the rows of all buffers that a grammar fills, in the order in which it is built. -/
def layOut : Grammar τ → Buffers τ → Buffers τ
  | opt p, b | cut p, b | boxed p, b | map _ p, b | collect _ _ p, b | many0Count p, b
  | many1Count p, b | fold _ _ _ p, b | lengthData p, b | trace _ p, b => p.layOut b
  | manyTill _ q p, b | separatedList0 _ q p, b | separatedList1 _ q p, b | lengthValue q p, b
  | lengthCount _ q p, b | andThen q p, b | orElse q p, b => p.layOut (q.layOut b)
  | fill name slots p, b => p.layOut (b.make name slots)
  | _, b => b

end Grammar

end Reprise
