/-!
# Error kinds

What a parser was looking for when it gave up. The declared kinds are numbered in order; any
other number stands for a kind this library does not know.
-/

namespace Reprise

inductive ErrorKind where
  | tag
  | eof
  | digit
  | alpha
  | complete
  | many0
  | many1
  | manyBetween
  | many0Count
  | many1Count
  | manyTill
  | separatedList
  | count
  | fill
  | foldMany0
  | foldMany1
  | foldManyBetween
  | many
  | fold
  | lengthCount
  | undeclared (number : Int)
  deriving DecidableEq, Repr

namespace ErrorKind

/-- The declared kinds, in the order of their numbers. -/
def declared : List ErrorKind :=
  [tag, eof, digit, alpha, complete, many0, many1, manyBetween, many0Count, many1Count, manyTill,
    separatedList, count, fill, foldMany0, foldMany1, foldManyBetween, many, fold, lengthCount]

def name : ErrorKind → String
  | tag => "tag"
  | eof => "eof"
  | digit => "digit"
  | alpha => "alpha"
  | complete => "complete"
  | many0 => "many0"
  | many1 => "many1"
  | manyBetween => "many_m_n"
  | many0Count => "many0_count"
  | many1Count => "many1_count"
  | manyTill => "many_till"
  | separatedList => "separated_list"
  | count => "count"
  | fill => "fill"
  | foldMany0 => "fold_many0"
  | foldMany1 => "fold_many1"
  | foldManyBetween => "fold_many_m_n"
  | many => "many"
  | fold => "fold"
  | lengthCount => "length_count"
  | undeclared _ => "unknown"

def ofNumber : Int → ErrorKind
  | .ofNat n => declared[n]?.getD (.undeclared n)
  | .negSucc n => .undeclared (.negSucc n)

def ofName? (s : String) : Option ErrorKind := declared.find? (·.name == s)

end ErrorKind

end Reprise
