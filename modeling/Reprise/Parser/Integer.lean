import Reprise.Parser.Primitive

/-!
# Fixed-width integers

Unsigned integers of one, two, four or eight bytes in either byte order.
-/

namespace Reprise

inductive Width where
  | w8
  | w16
  | w32
  | w64
  deriving DecidableEq, Repr

def Width.bytes : Width → Nat
  | .w8 => 1
  | .w16 => 2
  | .w32 => 4
  | .w64 => 8

inductive ByteOrder where
  | big
  | little
  deriving DecidableEq, Repr

namespace ByteOrder

/-- The number that bytes stand for, the least significant one first. -/
def value : List UInt8 → Nat
  | [] => 0
  | b :: bs => b.toNat + 256 * value bs

/-- The lowest `k` bytes of a number, the least significant one first. -/
def bytes : Nat → Nat → List UInt8
  | 0, _ => []
  | k + 1, n => (n % 256).toUInt8 :: bytes k (n / 256)

/-- Puts the least significant byte first, or back to where it was. -/
def arrange : ByteOrder → List UInt8 → List UInt8
  | .little, bs => bs
  | .big, bs => bs.reverse

def decode (order : ByteOrder) (bs : List UInt8) : Nat := value (order.arrange bs)

/-- A number in `k` bytes. -/
def encode (order : ByteOrder) (k n : Nat) : List UInt8 := order.arrange (bytes k n)

@[simp] theorem length_bytes (k n : Nat) : (bytes k n).length = k := by
  induction k generalizing n with
  | zero => rfl
  | succ k ih => simp [bytes, ih]

@[simp] theorem length_arrange (order : ByteOrder) (bs : List UInt8) :
    (order.arrange bs).length = bs.length := by cases order <;> simp [arrange]

@[simp] theorem arrange_arrange (order : ByteOrder) (bs : List UInt8) :
    order.arrange (order.arrange bs) = bs := by cases order <;> simp [arrange]

@[simp] theorem length_encode (order : ByteOrder) (k n : Nat) :
    (order.encode k n).length = k := by simp [encode]

end ByteOrder

/-- An unsigned integer. -/
def Parser.uint {σ τ ε : Type} [Payload τ ε] [Element τ]
    (mode : Mode) (width : Width) (order : ByteOrder) : Parser σ τ ε Nat := fun x =>
  if x.length < width.bytes then return tooShort mode .eof width.bytes x
  else Parser.map (fun w => order.decode (w.elements.map Element.octet)) (take width.bytes) x

end Reprise
