import Reprise.Source.Element
import Reprise.Source.Window

/-!
# Values

What the parsers of a grammar yield, with the order that sorted collections use and the functions
a grammar may apply.
-/

namespace Reprise

inductive Value (τ : Type) where
  | unit
  | num (n : Nat)
  | elem (e : τ)
  | slice (w : Window τ)
  | list (vs : List (Value τ))
  | dropped (n : Nat)
  | pair (first second : Value τ)
  | missing
  | given (v : Value τ)
  | text (es : List τ)

namespace Value

variable {τ : Type} [Element τ]

/-- Where values of a form stand among those of other forms. -/
def rank : Value τ → Nat
  | unit => 0
  | num _ => 1
  | elem _ => 2
  | slice _ => 3
  | list _ => 4
  | dropped _ => 5
  | pair _ _ => 6
  | missing => 7
  | given _ => 7
  | text _ => 8

/-- Element by element; of two lists of which one continues the other, the shorter comes first. -/
def compareElements : List τ → List τ → Ordering
  | [], [] => .eq
  | [], _ :: _ => .lt
  | _ :: _, [] => .gt
  | a :: as, b :: bs => (Element.compare a b).then (compareElements as bs)

mutual

/-- The order of values: by form, then by content. -/
def compare : Value τ → Value τ → Ordering
  | num m, num n => Ord.compare m n
  | elem a, elem b => Element.compare a b
  | slice w, slice v => compareElements w.elements v.elements
  | list vs, list ws => compareAll vs ws
  | dropped m, dropped n => Ord.compare m n
  | pair a b, pair c d => (compare a c).then (compare b d)
  | missing, given _ => .lt
  | given _, missing => .gt
  | given v, given w => compare v w
  | text as, text bs => compareElements as bs
  | v, w => Ord.compare (rank v) (rank w)

/-- The same for lists of values. -/
def compareAll : List (Value τ) → List (Value τ) → Ordering
  | [], [] => .eq
  | [], _ :: _ => .lt
  | _ :: _, [] => .gt
  | v :: vs, w :: ws => (compare v w).then (compareAll vs ws)

end

/-- Arithmetic on values is that of 64-bit words. -/
def wrap (n : Nat) : Nat := n % UInt64.size

/-- The number a value stands for, where one is needed. -/
def number : Value τ → Nat
  | unit => 0
  | num n => n
  | elem e => Element.number e
  | slice w => w.length
  | list vs => vs.length
  | dropped n => n
  | pair v _ => number v
  | missing => 0
  | given v => number v
  | text es => es.length

/-- The decimal number that elements spell. Whatever is no digit counts by its distance from the
digit zero, too. -/
def decimal (es : List τ) : Nat :=
  es.foldl (fun n e => wrap (n * 10 + Element.number e + (UInt64.size - 48))) 0

end Value

/-- A function from values to values. -/
inductive Projection where
  | number
  | decimal
  | singleton
  | first
  | second
  | unit
  | same
  deriving DecidableEq, Repr

def Projection.apply {τ : Type} [Element τ] : Projection → Value τ → Value τ
  | .number, v => .num v.number
  | .decimal, .slice w => .num (Value.decimal w.elements)
  | .decimal, _ => .num 0
  | .singleton, v => .list [v]
  | .first, .pair v _ => v
  | .first, v => v
  | .second, .pair _ v => v
  | .second, v => v
  | .unit, _ => .unit
  | .same, v => v

/-- How a fold takes in the next value. -/
inductive FoldStep where
  | count
  | sum
  | horner
  | push
  | cons
  | pair
  | last
  deriving DecidableEq, Repr

namespace FoldStep

variable {τ : Type}

/-- The values of a list. Any other value counts as the empty list. -/
def items : Value τ → List (Value τ)
  | .list vs => vs
  | _ => []

def apply [Element τ] : FoldStep → Value τ → Value τ → Value τ
  | count, acc, _ => .num (Value.wrap (acc.number + 1))
  | sum, acc, v => .num (Value.wrap (acc.number + v.number))
  | horner, acc, v => .num (Value.wrap (acc.number * 10 + v.number))
  | push, acc, v => .list (items acc ++ [v])
  | cons, acc, v => .list (v :: items acc)
  | pair, acc, v => .pair acc v
  | last, _, v => v

end FoldStep

/-- What a fold starts from. -/
inductive FoldStart where
  | zero
  | list
  | unit
  | calls
  deriving DecidableEq, Repr

end Reprise
