import Reprise.Source.Element

/-!
# Elements of one byte

Narrow text and bytes are the same eight bits in two forms. Numbers of fixed width are read from either.
-/

namespace Reprise

/-- Elements that are bytes in a form of their own. -/
class Octets (τ : Type) extends Element τ where
  ofByte : UInt8 → τ
  octet_ofByte : ∀ b, Element.octet (ofByte b) = b
  ofByte_octet : ∀ e : τ, ofByte (Element.octet e) = e

instance : Octets UInt8 where
  ofByte := id
  octet_ofByte _ := UInt8.ofNat_toNat
  ofByte_octet _ := UInt8.ofNat_toNat

instance : Octets Narrow where
  ofByte := Narrow.mk
  octet_ofByte _ := UInt8.ofNat_toNat
  ofByte_octet c := congrArg Narrow.mk (UInt8.ofNat_toNat (x := c.byte))

end Reprise
