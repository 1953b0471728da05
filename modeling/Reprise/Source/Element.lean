/-!
# Elements

What a source is made of: characters of narrow text, bytes, 32-bit numbers, code points or whole
words. Parsers know elements only through this class.
-/

namespace Reprise

/-- How an excerpt of a source is written for a reader. -/
inductive Excerpt (τ : Type) where
  | quoted (char : τ → Char)
  | hex (byte : τ → UInt8)
  | counted

/-- A kind of source element. -/
class Element (τ : Type) extends BEq τ, LawfulBEq τ where
  /-- The element read as a count: its code, or the length of a word. -/
  number : τ → Nat
  /-- The integer that stands for the element where it meets one of another kind, as words never do. -/
  value : τ → Int := fun e => number e
  /-- The order of elements in sorted collections. -/
  compare : τ → τ → Ordering := fun a b => Ord.compare (number a) (number b)
  excerpt : Excerpt τ

/-- The byte an element carries. -/
def Element.octet {τ : Type} [Element τ] (e : τ) : UInt8 := (Element.number e).toUInt8

/-- Whether an element equals one of another kind, for which an integer stands. They are compared as unsigned
numbers of 32 bits, so that a negative one equals the large one that it wraps to. -/
def Element.equals {τ : Type} [Element τ] (e : τ) (v : Int) : Bool :=
  BitVec.ofInt 32 (Element.value e) == BitVec.ofInt 32 v

/-- A character of narrow text: one byte, whose value as an integer is signed. -/
structure Narrow where
  byte : UInt8
  deriving DecidableEq, Repr

namespace Narrow

def value (c : Narrow) : Int := c.byte.toInt8.toInt

def toChar (c : Narrow) : Char := Char.ofNat c.byte.toNat

def ofChar (c : Char) : Narrow := ⟨c.toNat.toUInt8⟩

/-- The characters of a text all of whose code points are below 256. -/
def ofString (s : String) : List Narrow := s.toList.map ofChar

def toString (cs : List Narrow) : String := String.ofList (cs.map toChar)

end Narrow

instance : Element Narrow where
  number c := c.byte.toNat
  value := Narrow.value
  excerpt := .quoted Narrow.toChar

instance : Element UInt8 where
  number := UInt8.toNat
  excerpt := .hex id

instance : Element UInt32 where
  number := UInt32.toNat
  excerpt := .counted

instance : Element Char where
  number := Char.toNat
  excerpt := .counted

instance : Element String where
  number := String.length
  compare a b := Ord.compare a b
  excerpt := .counted

end Reprise
